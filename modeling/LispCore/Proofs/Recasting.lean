import LispCore.Proofs.Equality
import Mathlib.Logic.Relation

/-! # What equality does not see

A value can be recast at one place, however deep: a list may become a vector, a symbol may get other metadata, a set or
a map another order (`Value.Recast`). Equality sees none of this, and it sees everything else: proper values are equal
just when some recastings lead from one to the other (`equality_is_congruence`). So equality is a congruence, and the
finest one under which these changes do not count. -/

namespace LispCore

/-! ### The metadata of symbols -/

theorem Symbol.beq_withMetadata (sym : Symbol) (metadata : Option (List (Key × Form))) :
    (sym == { sym with metadata }) = true :=
  (Symbol.beq_iff _ _).mpr ⟨rfl, rfl⟩

theorem Symbol.eq_withMetadata {sym sym' : Symbol} (h : sym.bare = sym'.bare) :
    sym' = { sym with metadata := sym'.metadata } := by
  cases sym
  cases sym'
  simp_all [Symbol.bare]

theorem Key.eq_or_withMetadata {k k' : Key} (h : k.bare = k'.bare) :
    k' = k ∨ ∃ sym metadata, k = .symbol sym ∧ k' = .symbol { sym with metadata } := by
  cases k with
  | symbol sym =>
    cases k' with
    | symbol sym' =>
      have hsym : sym.bare = sym'.bare := by injection h
      exact .inr ⟨sym, sym'.metadata, rfl, by rw [← Symbol.eq_withMetadata hsym]⟩
    | _ => cases h
  | _ =>
    cases k' <;> cases h
    exact .inl rfl

namespace Value
variable {a b : Value}

/-- The second value is the first, recast at one place. -/
inductive Recast : Value → Value → Prop where
  | listAsVector (items : List Value) : Recast (.list items) (.vector items)
  | vectorAsList (items : List Value) : Recast (.vector items) (.list items)
  | metadata (sym : Symbol) (metadata : Option (List (Key × Form))) :
      Recast (.symbol sym) (.symbol { sym with metadata })
  | setOrder {items items' : List Value} : items.Perm items' → Recast (.set items) (.set items')
  | mapOrder {entries entries' : List (Key × Value)} : entries.Perm entries' → Recast (.map entries) (.map entries')
  | inList (before after : List Value) {a b : Value} : Recast a b →
      Recast (.list (before ++ a :: after)) (.list (before ++ b :: after))
  | inVector (before after : List Value) {a b : Value} : Recast a b →
      Recast (.vector (before ++ a :: after)) (.vector (before ++ b :: after))
  | inSet (before after : List Value) {a b : Value} : Recast a b →
      Recast (.set (before ++ a :: after)) (.set (before ++ b :: after))
  | inKey (before after : List (Key × Value)) (sym : Symbol) (metadata : Option (List (Key × Form))) (value : Value) :
      Recast (.map (before ++ (.symbol sym, value) :: after))
        (.map (before ++ (.symbol { sym with metadata }, value) :: after))
  | inEntry (before after : List (Key × Value)) (k : Key) {a b : Value} : Recast a b →
      Recast (.map (before ++ (k, a) :: after)) (.map (before ++ (k, b) :: after))

/-! ### Changes at one place of a list -/

section Places
variable {α : Type} {before after : List α} {x y : α}

theorem forall₂_replace {R : α → α → Prop} (h : ∀ z ∈ before ++ x :: after, R z z) (hxy : R x y) :
    List.Forall₂ R (before ++ x :: after) (before ++ y :: after) := by
  have hbefore : List.Forall₂ R before before :=
    List.forall₂_same.mpr fun z hz => h z (List.mem_append_left _ hz)
  have hafter : List.Forall₂ R after after :=
    List.forall₂_same.mpr fun z hz => h z (List.mem_append_right _ (List.mem_cons_of_mem _ hz))
  exact List.rel_append hbefore (.cons hxy hafter)

/-- Where a step at one place of a list is a step of what is made of the list, steps at all places are steps. -/
theorem reflTransGen_places {β : Type} {T : α → α → Prop} {R : β → β → Prop} (make : List α → β)
    (h : ∀ before after x y, T x y → R (make (before ++ x :: after)) (make (before ++ y :: after))) {xs ys : List α}
    (hxs : List.Forall₂ (Relation.ReflTransGen T) xs ys) : Relation.ReflTransGen R (make xs) (make ys) := by
  have hrest : ∀ before, Relation.ReflTransGen R (make (before ++ xs)) (make (before ++ ys)) := by
    induction hxs with
    | nil => exact fun before => .refl
    | @cons x y xs ys hxy _ ih =>
      intro before
      have hfirst : Relation.ReflTransGen R (make (before ++ x :: xs)) (make (before ++ y :: xs)) :=
        hxy.lift (fun z => make (before ++ z :: xs)) (h before xs)
      have hothers := ih (before ++ [y])
      simp only [List.append_assoc, List.singleton_append] at hothers
      exact hfirst.trans hothers
  exact hrest []

end Places

/-- Things that stand for apart things are apart. -/
theorem pairwise_of_forall₂ {α β : Type} {R : α → β → Prop} {S : α → α → Prop} {S' : β → β → Prop} {as : List α}
    {bs : List β} (hS : ∀ a a' b b', R a b → R a' b' → S a a' → S' b b') (hab : List.Forall₂ R as bs)
    (h : as.Pairwise S) : bs.Pairwise S' := by
  induction hab with
  | nil => exact .nil
  | @cons a b as bs hab hrest ih =>
    obtain ⟨hfirst, hothers⟩ := List.pairwise_cons.mp h
    refine List.pairwise_cons.mpr ⟨fun b' hb' => ?_, ih hothers⟩
    obtain ⟨a', ha', hab'⟩ := exists_mem_of_forall₂ hrest b' hb'
    exact hS a a' b b' hab hab' (hfirst a' ha')

/-! ### The keys of maps -/

theorem nodup_bareKeys_iff {entries : List (Key × Value)} :
    (entries.map (·.1.bare)).Nodup ↔ entries.Pairwise fun e e' => (e.1 == e'.1) = false := by
  rw [List.Nodup, List.pairwise_map]
  have hkeys : ∀ e e' : Key × Value, e.1.bare ≠ e'.1.bare ↔ (e.1 == e'.1) = false := by
    intro e e'
    rw [← Bool.not_eq_true, Key.beq_iff_bare]
  simp only [hkeys]

/-- Maps are equal if each entry of the one is one of the other, and neither has more. -/
theorem beq_map_of_entries {entries entries' : List (Key × Value)} (hlength : entries.length = entries'.length)
    (hapart : (entries'.map (·.1.bare)).Nodup)
    (h : ∀ e ∈ entries, ∃ e' ∈ entries', (e.1 == e'.1) = true ∧ (e.2 == e'.2) = true) :
    (Value.map entries == .map entries') = true := by
  refine beq_map_iff.mpr ⟨entries', rfl, hlength, fun e he => ?_⟩
  obtain ⟨e', he', hkey, hvalue⟩ := h e he
  have hget := Key.beqOn.get?_of_mem (fun _ _ => trivial) (nodup_bareKeys_iff.mp hapart) he' trivial hkey
  exact ⟨e'.2, hget, hvalue⟩

/-! ### Recasting is not seen -/

theorem Proper.of_list {items : List Value} (h : (Value.list items).Proper) : ∀ a ∈ items, a.Proper := by
  cases h with
  | atom h => cases h
  | list h => exact h

theorem Proper.of_vector {items : List Value} (h : (Value.vector items).Proper) : ∀ a ∈ items, a.Proper := by
  cases h with
  | atom h => cases h
  | vector h => exact h

theorem Proper.of_set {items : List Value} (h : (Value.set items).Proper) :
    (∀ a ∈ items, a.Proper) ∧ items.Pairwise fun a b => (a == b) = false := by
  cases h with
  | atom h => cases h
  | set h hapart => exact ⟨h, hapart⟩

theorem Proper.of_map {entries : List (Key × Value)} (h : (Value.map entries).Proper) :
    (∀ e ∈ entries, e.2.Proper) ∧ (entries.map (·.1.bare)).Nodup := by
  cases h with
  | atom h => cases h
  | map h hapart => exact ⟨h, nodup_bareKeys_iff.mpr hapart⟩

/-- One entry of a map may change to an equal one. -/
theorem Proper.beq_replace_entry {before after : List (Key × Value)} {e e' : Key × Value}
    (h : (Value.map (before ++ e :: after)).Proper) (hkey : (e.1 == e'.1) = true) (hvalue : (e.2 == e'.2) = true) :
    (Value.map (before ++ e :: after) == .map (before ++ e' :: after)) = true := by
  obtain ⟨hentries, hnodup⟩ := h.of_map
  have hbare : (before ++ e' :: after).map (·.1.bare) = (before ++ e :: after).map (·.1.bare) := by
    simp [(Key.beq_iff_bare _ _).mp hkey]
  have hall : List.Forall₂ (fun f f' : Key × Value => (f.1 == f'.1) = true ∧ (f.2 == f'.2) = true)
      (before ++ e :: after) (before ++ e' :: after) :=
    forall₂_replace (fun f hf => ⟨Key.beqOn.refl f.1 trivial, (hentries f hf).refl⟩) ⟨hkey, hvalue⟩
  exact beq_map_of_entries hall.length_eq (hbare ▸ hnodup) (exists_mem_of_forall₂ hall.flip)

/-- The step: one recasting leaves a proper value equal to what it was. -/
theorem Recast.beq (h : Recast a b) (ha : a.Proper) : (a == b) = true := by
  induction h with
  | listAsVector items =>
    exact beq_list_iff.mpr ⟨items, .inr rfl, List.forall₂_same.mpr fun a h => (ha.of_list a h).refl⟩
  | vectorAsList items =>
    rw [beq_vector]
    exact beq_list_iff.mpr ⟨items, .inl rfl, List.forall₂_same.mpr fun a h => (ha.of_vector a h).refl⟩
  | metadata sym metadata => exact (beq_iff_bare rfl).mpr rfl
  | setOrder hperm =>
    exact beq_set_iff.mpr ⟨_, rfl, hperm.length_eq, fun a h => ⟨a, hperm.mem_iff.mp h, (ha.of_set.1 a h).refl⟩⟩
  | mapOrder hperm =>
    obtain ⟨hentries, hnodup⟩ := ha.of_map
    refine beq_map_of_entries hperm.length_eq ((hperm.map _).nodup_iff.mp hnodup) fun e he => ?_
    exact ⟨e, hperm.mem_iff.mp he, Key.beqOn.refl e.1 trivial, (hentries e he).refl⟩
  | @inList before after a b _ ih =>
    have hitems := ha.of_list
    have hab := ih (hitems a (List.mem_append_right _ List.mem_cons_self))
    exact beq_list_iff.mpr ⟨_, .inl rfl, forall₂_replace (fun z hz => (hitems z hz).refl) hab⟩
  | @inVector before after a b _ ih =>
    have hitems := ha.of_vector
    have hab := ih (hitems a (List.mem_append_right _ List.mem_cons_self))
    rw [beq_vector]
    exact beq_list_iff.mpr ⟨_, .inr rfl, forall₂_replace (fun z hz => (hitems z hz).refl) hab⟩
  | @inSet before after a b _ ih =>
    have hitems := ha.of_set.1
    have hab := ih (hitems a (List.mem_append_right _ List.mem_cons_self))
    have hall := forall₂_replace (R := fun a b : Value => (a == b) = true) (fun z hz => (hitems z hz).refl) hab
    exact beq_set_iff.mpr ⟨_, rfl, hall.length_eq, exists_mem_of_forall₂ hall.flip⟩
  | inKey before after sym metadata value =>
    have hvalue : value.Proper := ha.of_map.1 (.symbol sym, value) (List.mem_append_right _ List.mem_cons_self)
    exact ha.beq_replace_entry (Symbol.beq_withMetadata sym metadata) hvalue.refl
  | @inEntry before after k a b _ ih =>
    have hab := ih (ha.of_map.1 (k, a) (List.mem_append_right _ List.mem_cons_self))
    exact ha.beq_replace_entry (Key.beqOn.refl k trivial) hab

/-! ### What equals a proper value -/

theorem proper_set_of_matching {as bs matched : List Value} (h : ∀ a ∈ as, a.Balanced)
    (hapart : as.Pairwise fun a a' => (a == a') = false) (hab : List.Forall₂ (fun a b => (a == b) = true) as matched)
    (hperm : matched.Perm bs) (hbs : ∀ b ∈ bs, b.Proper) : (Value.set bs).Proper := by
  -- what is equal among the partners is equal among the elements
  have hmatched : matched.Pairwise fun b b' => (b == b') = false ∧ (b' == b) = false := by
    refine pairwise_of_forall₂ ?_ ((List.forall₂_and_left as matched).mpr ⟨h, hab⟩) hapart
    rintro a a' b b' ⟨ha, hab⟩ ⟨ha', hab'⟩ hne
    simp only [← Bool.not_eq_true] at hne ⊢
    constructor
    · exact fun hbb' => hne (ha.trans b' a' (ha.trans b b' hab hbb') (ha'.symm b' hab'))
    · exact fun hb'b => hne (ha'.symm a (ha'.trans b a (ha'.trans b' b hab' hb'b) (ha.symm b hab)))
  exact .set hbs (((hperm.pairwise_iff fun h => ⟨h.2, h.1⟩).mp hmatched).imp fun h => h.1)

/-- Where what equals an item is proper and reached from it, so it is with the items one by one. -/
theorem forall₂_recast {as bs : List Value}
    (ih : ∀ a ∈ as, ∀ {b : Value}, (a == b) = true → b.Proper ∧ Relation.ReflTransGen Recast a b)
    (hab : List.Forall₂ (fun a b => (a == b) = true) as bs) :
    (∀ b ∈ bs, b.Proper) ∧ List.Forall₂ (Relation.ReflTransGen Recast) as bs := by
  have hboth := (List.forall₂_and_left as bs).mpr ⟨ih, hab⟩
  refine ⟨fun b hb => ?_, hboth.imp fun a b h => (h.1 h.2).2⟩
  obtain ⟨a, -, h, heq⟩ := exists_mem_of_forall₂ hboth b hb
  exact (h heq).1

/-- An entry can be recast in its value and in its key. -/
theorem recast_entry {e e' : Key × Value} (hkey : (e.1 == e'.1) = true)
    (hvalue : Relation.ReflTransGen Recast e.2 e'.2) :
    Relation.ReflTransGen (fun e e' : Key × Value =>
      ∀ before after, Recast (.map (before ++ e :: after)) (.map (before ++ e' :: after))) e e' := by
  obtain ⟨k, a⟩ := e
  obtain ⟨k', b⟩ := e'
  have hentry := hvalue.lift (p := fun e e' : Key × Value =>
      ∀ before after, Recast (.map (before ++ e :: after)) (.map (before ++ e' :: after))) (fun value => (k, value))
    fun a b h before after => Recast.inEntry before after k h
  refine hentry.trans ?_
  rcases Key.eq_or_withMetadata ((Key.beq_iff_bare k k').mp hkey) with rfl | ⟨sym, metadata, rfl, rfl⟩
  · exact .refl
  · exact .single fun before after => .inKey before after sym metadata b

/-- What equals a proper value is proper, and recastings lead to it. Those of the parts are made one place after the
other; sets and maps are brought to the order of their partners last. -/
theorem Proper.recast_of_beq (ha : a.Proper) (h : (a == b) = true) :
    b.Proper ∧ Relation.ReflTransGen Recast a b := by
  induction ha generalizing b with
  | @atom a hatom =>
    have hbare := (beq_iff_bare hatom).mp h
    refine ⟨.atom (by rw [← collKind?_bare, ← hbare, collKind?_bare, hatom]), ?_⟩
    by_cases hsym : ∃ sym, a = .symbol sym
    · obtain ⟨sym, rfl⟩ := hsym
      cases b with
      | symbol sym' =>
        have hbares : sym.bare = sym'.bare := by injection hbare
        rw [Symbol.eq_withMetadata hbares]
        exact .single (.metadata sym sym'.metadata)
      | _ => cases hbare
    · rw [(beq_iff_eq_of_atom hatom fun sym ha => hsym ⟨sym, ha⟩).mp h]
  | @list as _ ih =>
    obtain ⟨bs, hkind, hab⟩ := beq_list_iff.mp h
    obtain ⟨hbs, hrecast⟩ := forall₂_recast ih hab
    have hitems := reflTransGen_places Value.list (fun before after _ _ => Recast.inList before after) hrecast
    rcases hkind with rfl | rfl
    · exact ⟨.list hbs, hitems⟩
    · exact ⟨.vector hbs, hitems.tail (.listAsVector bs)⟩
  | @vector as _ ih =>
    rw [beq_vector] at h
    obtain ⟨bs, hkind, hab⟩ := beq_list_iff.mp h
    obtain ⟨hbs, hrecast⟩ := forall₂_recast ih hab
    have hitems := reflTransGen_places Value.vector (fun before after _ _ => Recast.inVector before after) hrecast
    rcases hkind with rfl | rfl
    · exact ⟨.list hbs, hitems.tail (.vectorAsList bs)⟩
    · exact ⟨.vector hbs, hitems⟩
  | @set as has hapart ih =>
    obtain ⟨bs, rfl, hlength, hitems⟩ := beq_set_iff.mp h
    have hbalanced := fun a ha => (has a ha).balanced
    obtain ⟨matched, hperm, hab⟩ :=
      exists_matching hitems (partners_of_set hbalanced hapart) (Nat.le_of_eq hlength.symm)
    obtain ⟨hbs, hrecast⟩ := forall₂_recast ih hab
    have hset := proper_set_of_matching hbalanced hapart hab hperm fun b hb => hbs b (hperm.mem_iff.mpr hb)
    have hmatched := reflTransGen_places Value.set (fun before after _ _ => Recast.inSet before after) hrecast
    exact ⟨hset, hmatched.tail (.setOrder hperm)⟩
  | @map as has hapart ih =>
    obtain ⟨bs, rfl, hlength, hentries⟩ := beq_map_iff.mp h
    obtain ⟨matched, hperm, hab⟩ :=
      exists_matching (exists_entry_of_get? hentries) (partners_of_map hapart) (Nat.le_of_eq hlength.symm)
    have hboth := (List.forall₂_and_left as matched).mpr ⟨ih, hab⟩
    have hbs : ∀ e' ∈ bs, e'.2.Proper := by
      intro e' he'
      obtain ⟨e, -, h, -, hvalue⟩ := exists_mem_of_forall₂ hboth e' (hperm.mem_iff.mpr he')
      exact (h hvalue).1
    have hkeys : List.Forall₂ (· = ·) (as.map (·.1.bare)) (matched.map (·.1.bare)) := by
      rw [List.forall₂_map_left_iff, List.forall₂_map_right_iff]
      exact hab.imp fun e e' h => (Key.beq_iff_bare e.1 e'.1).mp h.1
    rw [List.forall₂_eq_eq_eq] at hkeys
    have hmatched := reflTransGen_places Value.map (fun before after _ _ h => h before after)
      (hboth.imp fun e e' h => recast_entry h.2.1 (h.1 h.2.2).2)
    refine ⟨.map hbs ?_, hmatched.tail (.mapOrder hperm)⟩
    exact nodup_bareKeys_iff.mp ((hperm.map _).nodup_iff.mp (hkeys ▸ nodup_bareKeys_iff.mpr hapart))

/-- The run: however often a proper value is recast, it stays proper and equal to what it was. -/
theorem Proper.beq_of_recast (ha : a.Proper) (h : Relation.ReflTransGen Recast a b) : (a == b) = true := by
  induction h with
  | refl => exact ha.refl
  | tail _ hstep ih =>
    have hproper := (ha.recast_of_beq ih).1
    exact ha.balanced.trans _ _ ih (hstep.beq hproper)

end Value

/-- Equality is an equivalence that leaves the proper values among themselves, and values are equal just when recasting
the one at some places, however deep, leads to the other. Floats, not-a-numbers too, are equal when their bits are. -/
theorem equality_is_congruence {a : Value} (ha : a.Proper) :
    (a == a) = true ∧ (∀ b, (a == b) = true → b.Proper ∧ (b == a) = true) ∧
      (∀ b c, (a == b) = true → (b == c) = true → (a == c) = true) ∧
      (∀ b, (a == b) = true ↔ Relation.ReflTransGen Value.Recast a b) ∧
      ∀ x y : Binary64, (Value.float x == .float y) = true ↔ x.bits = y.bits := by
  refine ⟨ha.refl, fun b h => ⟨(ha.recast_of_beq h).1, ha.balanced.symm b h⟩, ha.balanced.trans,
    fun b => ⟨fun h => (ha.recast_of_beq h).2, ha.beq_of_recast⟩, fun x y => ?_⟩
  rw [Value.beq_iff_eq_of_atom rfl (by simp), Value.float.injEq, Binary64.mk.injEq, eq_comm]

/-- A set that a map holds under a symbol is recast in all ways at once: the key and a symbol inside an element get
metadata, and the elements change their kinds and their places. One of them holds a not-a-number. -/
theorem equality_is_congruence_nested :
    let x : Symbol := .unqualified "x"
    let x' : Symbol := { x with metadata := some [(.keyword "doc", .string "a name")] }
    let nan : Value := .float ⟨0x7ff8000000000001⟩
    let a : Value := .map [(.symbol x, .set [.list [.symbol x], .vector [nan]])]
    let b : Value := .map [(.symbol x', .set [.list [nan], .vector [.symbol x']])]
    a.Proper ∧ Relation.ReflTransGen Value.Recast a b := by
  intro x x' nan a b
  have hitem : ∀ v : Value, v.collKind? = none → ∀ b ∈ [v], b.Proper := by
    intro v hv b hb
    rw [List.mem_singleton.mp hb]
    exact .atom hv
  have hitems : ∀ b ∈ [Value.list [.symbol x], .vector [nan]], b.Proper := by
    intro b hb
    simp only [List.mem_cons, List.not_mem_nil, or_false] at hb
    rcases hb with rfl | rfl
    · exact .list (hitem _ rfl)
    · exact .vector (hitem _ rfl)
  have ha : a.Proper := by
    refine .map (fun e he => ?_) (List.pairwise_singleton _ _)
    rw [List.mem_singleton.mp he]
    exact .set hitems (List.pairwise_pair.mpr (by decide +kernel))
  exact ⟨ha, ((equality_is_congruence ha).2.2.2.1 _).mp (by decide +kernel)⟩

end LispCore
