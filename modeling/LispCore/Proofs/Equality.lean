import LispCore.Proofs.Cells
import Mathlib.Data.List.Forall2

/-! # Equality of values

Equality is coarser than sameness: it does not see the metadata of symbols, the order of sets and maps, or whether a
sequence is a list or a vector. It is an equivalence among the values whose sets and maps have each element and each
key once (`Value.Proper`). Sets and maps are compared by size and inclusion, so symmetry is the pigeonhole principle
(`exists_matching`). -/

namespace LispCore

/-- `==` is an equivalence among the things of which `P` holds. -/
structure BEqOn {κ : Type} [BEq κ] (P : κ → Prop) : Prop where
  refl : ∀ a, P a → (a == a) = true
  symm : ∀ a b, P a → P b → (a == b) = true → (b == a) = true
  trans : ∀ a b c, P a → P b → P c → (a == b) = true → (b == c) = true → (a == c) = true

/-! ### Tables -/

namespace BEqOn
variable {κ α : Type} [BEq κ] {P : κ → Prop} {t : Table κ α} {k k' : κ}

/-- Equal keys are equal to the same keys. -/
theorem beq_congr (hP : BEqOn P) {a : κ} (hk : P k) (hk' : P k') (ha : P a) (h : (k == k') = true) :
    (k == a) = (k' == a) := by
  rw [Bool.eq_iff_iff]
  constructor
  · exact hP.trans k' k a hk' hk ha (hP.symm k k' hk hk' h)
  · exact hP.trans k k' a hk hk' ha h

theorem get?_congr (hP : BEqOn P) (ht : ∀ e ∈ t, P e.1) (hk : P k) (hk' : P k') (h : (k == k') = true) :
    Table.get? t k = Table.get? t k' :=
  Table.get?_of_beq_eq fun e he => hP.beq_congr hk hk' (ht e he) h

theorem get?_insert (hP : BEqOn P) (ht : ∀ e ∈ t, P e.1) (hk : P k) (a : α) (hk' : P k') :
    Table.get? (Table.insert t k a) k' = if k' == k then some a else Table.get? t k' := by
  induction t with
  | nil => rw [Table.insert, Table.get?_cons]
  | cons e rest ih =>
    obtain ⟨he, hrest⟩ := List.forall_mem_cons.mp ht
    unfold Table.insert
    split
    · next hke =>
      rw [Table.get?_cons, Table.get?_cons]
      split
      · rfl
      · next hne =>
        have hother : ¬(k' == e.1) = true :=
          fun h => hne (hP.trans k' e.1 k hk' he hk h (hP.symm k e.1 hk he hke))
        rw [if_neg hother]
    · next hke =>
      rw [Table.get?_cons, Table.get?_cons, ih hrest]
      by_cases hsame : (k' == k) = true
      · have hother : ¬(k' == e.1) = true :=
          fun h => hke (hP.trans k k' e.1 hk hk' he (hP.symm k' k hk' hk hsame) h)
        rw [if_neg hother, if_pos hsame, if_pos hsame]
      · rw [if_neg hsame, if_neg hsame]

theorem get?_modify (hP : BEqOn P) (ht : ∀ e ∈ t, P e.1) (hk : P k) (f : α → α) (hk' : P k') :
    Table.get? (Table.modify t k f) k' = if k' == k then (Table.get? t k').map f else Table.get? t k' := by
  induction t with
  | nil => exact (ite_self none).symm
  | cons e rest ih =>
    obtain ⟨he, hrest⟩ := List.forall_mem_cons.mp ht
    have hsame : (k' == k) = true → (k' == e.1) = (k == e.1) := hP.beq_congr hk' hk he
    unfold Table.modify
    rw [Table.get?_cons]
    split
    · next hke =>
      rw [Table.get?_cons]
      by_cases hk'k : (k' == k) = true
      · rw [if_pos hk'k, hsame hk'k, if_pos hke, if_pos hke, Option.map_some]
      · have hother : ¬(k' == e.1) = true :=
          fun h => hk'k (hP.trans k' e.1 k hk' he hk h (hP.symm k e.1 hk he hke))
        rw [if_neg hk'k, if_neg hother, if_neg hother]
    · next hke =>
      rw [Table.get?_cons, ih hrest]
      by_cases hk'k : (k' == k) = true
      · rw [if_pos hk'k, if_pos hk'k, hsame hk'k, if_neg hke, if_neg hke]
      · rw [if_neg hk'k, if_neg hk'k]

theorem forall_mem_insert (ht : ∀ e ∈ t, P e.1) (hk : P k) (a : α) : ∀ e ∈ Table.insert t k a, P e.1 := by
  intro e he
  rcases Table.eq_or_mem_of_mem_insert he with rfl | he
  · exact hk
  · exact ht e he

/-- An entry is found under every key equal to its own, if no other entry has such a key. -/
theorem get?_of_mem (hP : BEqOn P) (ht : ∀ e ∈ t, P e.1) (hapart : t.Pairwise fun e e' => (e.1 == e'.1) = false)
    {e : κ × α} (he : e ∈ t) (hk : P k) (h : (k == e.1) = true) : Table.get? t k = some e.2 := by
  induction t with
  | nil => cases he
  | cons first rest ih =>
    obtain ⟨hfirst, hrest⟩ := List.forall_mem_cons.mp ht
    obtain ⟨hfirsts, happarts⟩ := List.pairwise_cons.mp hapart
    rw [Table.get?_cons]
    rcases List.mem_cons.mp he with rfl | he
    · rw [if_pos h]
    · have hother : ¬(k == first.1) = true := by
        intro hkf
        have heq := hP.trans first.1 k e.1 hfirst hk (hrest e he) (hP.symm k first.1 hk hfirst hkf) h
        rw [hfirsts e he] at heq
        cases heq
      rw [if_neg hother, ih hrest happarts he]

/-- Insertion keeps keys apart. -/
theorem pairwise_insert (hP : BEqOn P) (ht : ∀ e ∈ t, P e.1) (hapart : t.Pairwise fun e e' => (e.1 == e'.1) = false)
    (hk : P k) (a : α) : (Table.insert t k a).Pairwise fun e e' => (e.1 == e'.1) = false := by
  induction t with
  | nil => exact List.pairwise_singleton _ _
  | cons first rest ih =>
    obtain ⟨hfirst, hrest⟩ := List.forall_mem_cons.mp ht
    obtain ⟨hothers, happarts⟩ := List.pairwise_cons.mp hapart
    unfold Table.insert
    split
    · next hkf =>
      refine List.pairwise_cons.mpr ⟨fun e he => ?_, happarts⟩
      rw [← Bool.not_eq_true]
      intro hke
      have hfe := hP.trans first.1 k e.1 hfirst hk (hrest e he) (hP.symm k first.1 hk hfirst hkf) hke
      rw [hothers e he] at hfe
      cases hfe
    · next hkf =>
      refine List.pairwise_cons.mpr ⟨fun e he => ?_, ih hrest happarts⟩
      rcases Table.eq_or_mem_of_mem_insert he with rfl | he
      · rw [← Bool.not_eq_true]
        exact fun hfk => hkf (hP.symm first.1 k hfirst hk hfk)
      · exact hothers e he

/-- In a table built by insertion all keys are apart. -/
theorem pairwise_ofList (hP : BEqOn P) {entries : List (κ × α)} (h : ∀ e ∈ entries, P e.1) :
    (Table.ofList entries).Pairwise fun e e' => (e.1 == e'.1) = false := by
  have hfold : ∀ built : Table κ α, (∀ e ∈ built, P e.1) → built.Pairwise (fun e e' => (e.1 == e'.1) = false) →
      (entries.foldl (fun t e => Table.insert t e.1 e.2) built).Pairwise fun e e' => (e.1 == e'.1) = false := by
    induction entries with
    | nil => exact fun built _ hapart => hapart
    | cons e rest ih =>
      intro built hbuilt hapart
      obtain ⟨he, hrest⟩ := List.forall_mem_cons.mp h
      exact ih hrest _ (forall_mem_insert hbuilt he e.2) (hP.pairwise_insert hbuilt hapart he e.2)
  exact hfold [] (by simp) .nil

/-- In a table built by insertion the last entry under a key counts. -/
theorem get?_ofList (hP : BEqOn P) {entries : List (κ × α)} (h : ∀ e ∈ entries, P e.1) (hk : P k) :
    Table.get? (Table.ofList entries) k = Table.get? entries.reverse k := by
  have hfold : ∀ built : Table κ α, (∀ e ∈ built, P e.1) →
      Table.get? (entries.foldl (fun t e => Table.insert t e.1 e.2) built) k =
        (Table.get? entries.reverse k).or (Table.get? built k) := by
    induction entries with
    | nil => exact fun built _ => rfl
    | cons e rest ih =>
      intro built hbuilt
      obtain ⟨he, hrest⟩ := List.forall_mem_cons.mp h
      rw [List.foldl_cons, ih hrest _ (forall_mem_insert hbuilt he e.2), hP.get?_insert hbuilt he e.2 hk,
        List.reverse_cons, Table.get?_append, Table.get?_cons, Option.or_assoc]
      split <;> rfl
  exact (hfold [] (by simp)).trans Option.or_none

end BEqOn

/-! ### Symbols and keys -/

theorem Symbol.beq_iff (a b : Symbol) : (a == b) = true ↔ a.ns = b.ns ∧ a.name = b.name := by
  have hdef : (a == b) = (a.ns == b.ns && a.name == b.name) := rfl
  rw [hdef, Bool.and_eq_true, beq_iff_eq, beq_iff_eq]

/-- The symbol without its metadata. -/
def Symbol.bare (sym : Symbol) : Symbol :=
  { sym with metadata := none }

theorem Symbol.beq_iff_bare (a b : Symbol) : (a == b) = true ↔ a.bare = b.bare := by
  rw [Symbol.beq_iff, bare, bare, Symbol.mk.injEq]
  simp

/-- The key without the metadata of a symbol. -/
def Key.bare : Key → Key
  | .symbol sym => .symbol sym.bare
  | other => other

theorem Key.beq_iff_bare (a b : Key) : (a == b) = true ↔ a.bare = b.bare := by
  have hdef : (a == b) = Key.beq a b := rfl
  rw [hdef]
  cases a <;> cases b <;> simp [Key.beq, bare, Symbol.beq_iff_bare]

theorem Key.beqOn : BEqOn fun _ : Key => True where
  refl a _ := (Key.beq_iff_bare a a).mpr rfl
  symm a b _ _ h := (Key.beq_iff_bare b a).mpr ((Key.beq_iff_bare a b).mp h).symm
  trans a b c _ _ _ h h' :=
    (Key.beq_iff_bare a c).mpr (((Key.beq_iff_bare a b).mp h).trans ((Key.beq_iff_bare b c).mp h'))

/-! ### Values by kind -/

namespace Value
variable {a b c : Value} {as bs items : List Value}

theorem beqAll_iff : beqAll as bs = true ↔ List.Forall₂ (fun a b => (a == b) = true) as bs := by
  induction as generalizing bs with
  | nil => cases bs <;> simp [beqAll]
  | cons a as ih =>
    cases bs with
    | nil => simp [beqAll]
    | cons b bs =>
      rw [beqAll, Bool.and_eq_true, ih, List.forall₂_cons]
      rfl

theorem itemsWithin_iff : itemsWithin as bs = true ↔ ∀ a ∈ as, ∃ b ∈ bs, (a == b) = true := by
  induction as with
  | nil => simp [itemsWithin]
  | cons a as ih =>
    rw [itemsWithin, Bool.and_eq_true, ih, List.forall_mem_cons, List.any_eq_true]
    rfl

theorem entriesWithin_iff {as bs : List (Key × Value)} : entriesWithin as bs = true ↔
    ∀ e ∈ as, ∃ b, Table.get? bs e.1 = some b ∧ (e.2 == b) = true := by
  induction as with
  | nil => simp [entriesWithin]
  | cons e as ih =>
    obtain ⟨k, a⟩ := e
    rw [entriesWithin, Bool.and_eq_true, ih, List.forall_mem_cons, Option.any_eq_true]
    rfl

theorem beq_list_iff : (.list as == b) = true ↔
    ∃ bs, (b = .list bs ∨ b = .vector bs) ∧ List.Forall₂ (fun a b => (a == b) = true) as bs := by
  have hdef : (.list as == b) = beq (.list as) b := rfl
  rw [hdef]
  cases b <;> simp [beq, beqAll_iff]

/-- A list and a vector are told apart by their items only. -/
theorem beq_vector (as : List Value) (b : Value) : (.vector as == b) = (.list as == b) := by
  have hdef : ∀ a : Value, (a == b) = beq a b := fun _ => rfl
  rw [hdef, hdef]
  cases b <;> simp [beq]

theorem beq_set_iff : (.set as == b) = true ↔
    ∃ bs, b = .set bs ∧ as.length = bs.length ∧ ∀ a ∈ as, ∃ b ∈ bs, (a == b) = true := by
  have hdef : (.set as == b) = beq (.set as) b := rfl
  rw [hdef]
  cases b <;> simp [beq, itemsWithin_iff]

theorem beq_map_iff {as : List (Key × Value)} : (.map as == b) = true ↔ ∃ bs, b = .map bs ∧ as.length = bs.length ∧
    ∀ e ∈ as, ∃ b, Table.get? bs e.1 = some b ∧ (e.2 == b) = true := by
  have hdef : (.map as == b) = beq (.map as) b := rfl
  rw [hdef]
  cases b <;> simp [beq, entriesWithin_iff]

/-- The value without metadata, if it is a symbol. -/
def bare : Value → Value
  | .symbol sym => .symbol sym.bare
  | other => other

theorem beq_iff_bare (h : a.collKind? = none) : (a == b) = true ↔ a.bare = b.bare := by
  have hdef : (a == b) = beq a b := rfl
  rw [hdef]
  cases a <;> cases h <;> cases b <;> simp [beq, bare, Symbol.beq_iff_bare]

theorem beq_iff_eq_of_atom (h : a.collKind? = none) (hsym : ∀ sym, a ≠ .symbol sym) : (a == b) = true ↔ b = a := by
  have hbare : ∀ {b : Value}, (∀ sym, b ≠ .symbol sym) → b.bare = b := by
    intro b hb
    cases b with
    | symbol sym => exact (hb sym rfl).elim
    | _ => rfl
  rw [beq_iff_bare h, hbare hsym]
  constructor
  · rintro rfl
    exact (hbare fun sym hb => hsym sym.bare (by rw [hb]; rfl)).symm
  · rintro rfl
    exact (hbare hsym).symm

theorem collKind?_bare (a : Value) : a.bare.collKind? = a.collKind? := by
  cases a <;> rfl

/-! ### Proper values -/

/-- In the value and in all its parts, sets have each element once and maps each key. -/
inductive Proper : Value → Prop where
  | atom {a : Value} : a.collKind? = none → Proper a
  | list {items : List Value} : (∀ a ∈ items, Proper a) → Proper (.list items)
  | vector {items : List Value} : (∀ a ∈ items, Proper a) → Proper (.vector items)
  | set {items : List Value} : (∀ a ∈ items, Proper a) → items.Pairwise (fun a b => (a == b) = false) →
      Proper (.set items)
  | map {entries : List (Key × Value)} : (∀ e ∈ entries, Proper e.2) →
      entries.Pairwise (fun e e' => (e.1 == e'.1) = false) → Proper (.map entries)

theorem Proper.refl (h : a.Proper) : (a == a) = true := by
  have hitems : ∀ {items : List Value}, (∀ a ∈ items, (a == a) = true) →
      List.Forall₂ (fun a b => (a == b) = true) items items :=
    fun h => List.forall₂_same.mpr h
  induction h with
  | atom h => exact (beq_iff_bare h).mpr rfl
  | list _ ih => exact beq_list_iff.mpr ⟨_, .inl rfl, hitems ih⟩
  | vector _ ih =>
    rw [beq_vector]
    exact beq_list_iff.mpr ⟨_, .inr rfl, hitems ih⟩
  | set _ _ ih => exact beq_set_iff.mpr ⟨_, rfl, rfl, fun a ha => ⟨a, ha, ih a ha⟩⟩
  | map _ hapart ih =>
    refine beq_map_iff.mpr ⟨_, rfl, rfl, fun e he => ⟨e.2, ?_, ih e he⟩⟩
    exact Key.beqOn.get?_of_mem (fun _ _ => trivial) hapart he trivial (Key.beqOn.refl e.1 trivial)

end Value

theorem exists_mem_of_forall₂ {α β : Type} {R : α → β → Prop} {as : List α} {bs : List β} (h : List.Forall₂ R as bs) :
    ∀ b ∈ bs, ∃ a ∈ as, R a b := by
  induction h with
  | nil => simp
  | @cons a b as bs hab _ ih =>
    intro b' hb'
    rcases List.mem_cons.mp hb' with rfl | hb'
    · exact ⟨a, List.mem_cons_self, hab⟩
    · obtain ⟨a', ha', hR⟩ := ih b' hb'
      exact ⟨a', List.mem_cons_of_mem _ ha', hR⟩

/-- Where each of the first has a partner among the second, no two have the same, and there are no more of the second,
the second can be put in the order of their partners. -/
theorem exists_matching {α β : Type} {R : α → β → Prop} {as : List α} {bs : List β} (h : ∀ a ∈ as, ∃ b ∈ bs, R a b)
    (hapart : as.Pairwise fun a a' => ∀ b, R a b → ¬R a' b) (hlength : bs.length ≤ as.length) :
    ∃ matched, matched.Perm bs ∧ List.Forall₂ R as matched := by
  induction as generalizing bs with
  | nil =>
    rw [List.length_eq_zero_iff.mp (Nat.le_zero.mp hlength)]
    exact ⟨[], .nil, .nil⟩
  | cons a as ih =>
    obtain ⟨hfirst, hrest⟩ := List.pairwise_cons.mp hapart
    obtain ⟨partner, hmem, hpartner⟩ := h a List.mem_cons_self
    obtain ⟨before, after, rfl⟩ := List.append_of_mem hmem
    -- the others have their partners elsewhere
    have hothers : ∀ a' ∈ as, ∃ b ∈ before ++ after, R a' b := by
      intro a' ha'
      obtain ⟨b, hb, hR⟩ := h a' (List.mem_cons_of_mem _ ha')
      refine ⟨b, ?_, hR⟩
      simp only [List.mem_append, List.mem_cons] at hb ⊢
      rcases hb with hb | rfl | hb
      · exact .inl hb
      · exact (hfirst a' ha' b hpartner hR).elim
      · exact .inr hb
    have hrestlength : (before ++ after).length ≤ as.length := by
      simp only [List.length_append, List.length_cons] at hlength ⊢
      omega
    obtain ⟨matched, hperm, hmatched⟩ := ih hothers hrest hrestlength
    exact ⟨partner :: matched, (hperm.cons partner).trans List.perm_middle.symm, .cons hpartner hmatched⟩

theorem exists_partner {α β : Type} {R : α → β → Prop} {as : List α} {bs : List β} (h : ∀ a ∈ as, ∃ b ∈ bs, R a b)
    (hapart : as.Pairwise fun a a' => ∀ b, R a b → ¬R a' b) (hlength : bs.length ≤ as.length) :
    ∀ b ∈ bs, ∃ a ∈ as, R a b := by
  obtain ⟨matched, hperm, hmatched⟩ := exists_matching h hapart hlength
  exact fun b hb => exists_mem_of_forall₂ hmatched b (hperm.mem_iff.mpr hb)

namespace Value
variable {a b c : Value}

/-- Equality with the value can be turned round and followed. -/
structure Balanced (a : Value) : Prop where
  symm : ∀ b, (a == b) = true → (b == a) = true
  trans : ∀ b c, (a == b) = true → (b == c) = true → (a == c) = true

theorem balanced_atom (h : a.collKind? = none) : a.Balanced := by
  have hbare : ∀ {b : Value}, a.bare = b.bare → b.collKind? = none := by
    intro b hb
    rw [← collKind?_bare, ← hb, collKind?_bare, h]
  constructor
  · intro b hb
    have hab := (beq_iff_bare h).mp hb
    exact (beq_iff_bare (hbare hab)).mpr hab.symm
  · intro b c hb hc
    have hab := (beq_iff_bare h).mp hb
    exact (beq_iff_bare h).mpr (hab.trans ((beq_iff_bare (hbare hab)).mp hc))

section Sequences
variable {as bs cs : List Value}

theorem forall₂_symm (h : ∀ a ∈ as, a.Balanced) (hab : List.Forall₂ (fun a b => (a == b) = true) as bs) :
    List.Forall₂ (fun b a => (b == a) = true) bs as := by
  have hboth := (List.forall₂_and_left as bs).mpr ⟨h, hab⟩
  exact (hboth.imp fun a b hab => hab.1.symm b hab.2).flip

theorem forall₂_trans (h : ∀ a ∈ as, a.Balanced) (hab : List.Forall₂ (fun a b => (a == b) = true) as bs)
    (hbc : List.Forall₂ (fun b c => (b == c) = true) bs cs) : List.Forall₂ (fun a c => (a == c) = true) as cs := by
  induction hab generalizing cs with
  | nil =>
    cases hbc
    exact .nil
  | @cons a b as bs hab _ ih =>
    cases hbc with
    | @cons _ c _ cs hbc hrest =>
      obtain ⟨hfirst, hothers⟩ := List.forall_mem_cons.mp h
      exact .cons (hfirst.trans b c hab hbc) (ih hothers hrest)

theorem balanced_list (h : ∀ a ∈ as, a.Balanced) : (Value.list as).Balanced := by
  constructor
  · intro b hb
    obtain ⟨bs, rfl | rfl, hab⟩ := beq_list_iff.mp hb
    · exact beq_list_iff.mpr ⟨as, .inl rfl, forall₂_symm h hab⟩
    · rw [beq_vector]
      exact beq_list_iff.mpr ⟨as, .inl rfl, forall₂_symm h hab⟩
  · intro b c hb hc
    obtain ⟨bs, hkind, hab⟩ := beq_list_iff.mp hb
    have hbc : (Value.list bs == c) = true := by
      rcases hkind with rfl | rfl
      · exact hc
      · rwa [← beq_vector]
    obtain ⟨cs, hkind, hbc⟩ := beq_list_iff.mp hbc
    exact beq_list_iff.mpr ⟨cs, hkind, forall₂_trans h hab hbc⟩

theorem balanced_vector (h : ∀ a ∈ as, a.Balanced) : (Value.vector as).Balanced := by
  have hlist := balanced_list h
  constructor
  · intro b hb
    rw [beq_vector] at hb
    obtain ⟨bs, rfl | rfl, hab⟩ := beq_list_iff.mp hb
    · exact beq_list_iff.mpr ⟨as, .inr rfl, forall₂_symm h hab⟩
    · rw [beq_vector]
      exact beq_list_iff.mpr ⟨as, .inr rfl, forall₂_symm h hab⟩
  · intro b c hb hc
    rw [beq_vector] at hb ⊢
    exact hlist.trans b c hb hc

end Sequences

/-- Of two elements of a set no value is a partner: it would make them equal. -/
theorem partners_of_set {as : List Value} (h : ∀ a ∈ as, a.Balanced)
    (hapart : as.Pairwise fun a a' => (a == a') = false) :
    as.Pairwise fun a a' => ∀ b, (a == b) = true → ¬(a' == b) = true := by
  refine hapart.imp_of_mem fun {a a'} ha ha' hne b hab hab' => ?_
  rw [(h a ha).trans b a' hab ((h a' ha').symm b hab')] at hne
  cases hne

theorem partners_of_map {as : List (Key × Value)} (hapart : as.Pairwise fun e e' => (e.1 == e'.1) = false) :
    as.Pairwise fun e e' => ∀ f : Key × Value, (e.1 == f.1) = true ∧ (e.2 == f.2) = true →
      ¬((e'.1 == f.1) = true ∧ (e'.2 == f.2) = true) := by
  refine hapart.imp fun {e e'} hne f hf hf' => ?_
  have hback := Key.beqOn.symm e'.1 f.1 trivial trivial hf'.1
  rw [Key.beqOn.trans e.1 f.1 e'.1 trivial trivial trivial hf.1 hback] at hne
  cases hne

theorem exists_entry_of_get? {as bs : List (Key × Value)}
    (h : ∀ e ∈ as, ∃ b, Table.get? bs e.1 = some b ∧ (e.2 == b) = true) :
    ∀ e ∈ as, ∃ e' ∈ bs, (e.1 == e'.1) = true ∧ (e.2 == e'.2) = true := by
  intro e he
  obtain ⟨value, hget, hvalue⟩ := h e he
  obtain ⟨e', he', hkey, rfl⟩ := Table.exists_mem_of_get? hget
  exact ⟨e', he', hkey, hvalue⟩

theorem balanced_set {as : List Value} (h : ∀ a ∈ as, a.Balanced)
    (hapart : as.Pairwise fun a a' => (a == a') = false) : (Value.set as).Balanced := by
  constructor
  · intro b hb
    obtain ⟨bs, rfl, hlength, hitems⟩ := beq_set_iff.mp hb
    refine beq_set_iff.mpr ⟨as, rfl, hlength.symm, fun b hb => ?_⟩
    obtain ⟨a, ha, hab⟩ := exists_partner hitems (partners_of_set h hapart) (Nat.le_of_eq hlength.symm) b hb
    exact ⟨a, ha, (h a ha).symm b hab⟩
  · intro b c hb hc
    obtain ⟨bs, rfl, hlength, hab⟩ := beq_set_iff.mp hb
    obtain ⟨cs, rfl, hlength', hbc⟩ := beq_set_iff.mp hc
    refine beq_set_iff.mpr ⟨cs, rfl, hlength.trans hlength', fun a ha => ?_⟩
    obtain ⟨b, hb, hab⟩ := hab a ha
    obtain ⟨c, hc, hbc⟩ := hbc b hb
    exact ⟨c, hc, (h a ha).trans b c hab hbc⟩

theorem balanced_map {as : List (Key × Value)} (h : ∀ e ∈ as, e.2.Balanced)
    (hapart : as.Pairwise fun e e' => (e.1 == e'.1) = false) : (Value.map as).Balanced := by
  constructor
  · intro b hb
    obtain ⟨bs, rfl, hlength, hentries⟩ := beq_map_iff.mp hb
    refine beq_map_iff.mpr ⟨as, rfl, hlength.symm, fun f hf => ?_⟩
    obtain ⟨e, he, hkey, hvalue⟩ :=
      exists_partner (exists_entry_of_get? hentries) (partners_of_map hapart) (Nat.le_of_eq hlength.symm) f hf
    have hback := Key.beqOn.symm e.1 f.1 trivial trivial hkey
    exact ⟨e.2, Key.beqOn.get?_of_mem (fun _ _ => trivial) hapart he trivial hback, (h e he).symm f.2 hvalue⟩
  · intro b c hb hc
    obtain ⟨bs, rfl, hlength, hab⟩ := beq_map_iff.mp hb
    obtain ⟨cs, rfl, hlength', hbc⟩ := beq_map_iff.mp hc
    refine beq_map_iff.mpr ⟨cs, rfl, hlength.trans hlength', fun e he => ?_⟩
    obtain ⟨value, hget, hvalue⟩ := hab e he
    obtain ⟨f, hf, hkey, rfl⟩ := Table.exists_mem_of_get? hget
    obtain ⟨value', hget', hvalue'⟩ := hbc f hf
    refine ⟨value', ?_, (h e he).trans f.2 value' hvalue hvalue'⟩
    rw [Key.beqOn.get?_congr (fun _ _ => trivial) trivial trivial hkey, hget']

theorem Proper.balanced (h : a.Proper) : a.Balanced := by
  induction h with
  | atom h => exact balanced_atom h
  | list _ ih => exact balanced_list ih
  | vector _ ih => exact balanced_vector ih
  | set _ hapart ih => exact balanced_set ih hapart
  | map _ hapart ih => exact balanced_map ih hapart

/-- Equality is an equivalence among proper values. -/
theorem beqOn_proper : BEqOn Proper where
  refl _ h := h.refl
  symm _ b h _ := h.balanced.symm b
  trans _ b c h _ _ := h.balanced.trans b c

/-! ### Building proper values -/

theorem proper_mapOf {entries : List (Key × Value)} (h : ∀ e ∈ entries, e.2.Proper) :
    (Value.map (Table.ofList entries)).Proper :=
  .map (fun e he => h e (Table.mem_of_mem_ofList he)) (Key.beqOn.pairwise_ofList fun _ _ => trivial)

/-- A set is a table whose entries are keys only. -/
theorem insertItem_eq (items : List Value) (a : Value) :
    (insertItem items a).map (·, ()) = Table.insert (items.map (·, ())) a () := by
  induction items with
  | nil => rfl
  | cons b rest ih =>
    rw [insertItem, List.map_cons, Table.insert, ← ih]
    split <;> rfl

theorem setOf_eq (items : List Value) : (setOf items).map (·, ()) = Table.ofList (items.map (·, ())) := by
  have hfold : ∀ built : List Value, (items.foldl insertItem built).map (·, ()) =
      (items.map (·, ())).foldl (fun t e => Table.insert t e.1 e.2) (built.map (·, ())) := by
    induction items with
    | nil => exact fun built => rfl
    | cons a rest ih =>
      intro built
      rw [List.foldl_cons, ih, insertItem_eq, List.map_cons, List.foldl_cons]
  exact hfold []

theorem proper_setOf {items : List Value} (h : ∀ a ∈ items, a.Proper) : (Value.set (setOf items)).Proper := by
  have hkeys : ∀ e ∈ items.map (·, ()), e.1.Proper := by simpa using h
  refine .set (fun a ha => ?_) ?_
  · have hentry : (a, ()) ∈ Table.ofList (items.map (·, ())) := setOf_eq items ▸ List.mem_map_of_mem ha
    exact hkeys _ (Table.mem_of_mem_ofList hentry)
  · have hapart := beqOn_proper.pairwise_ofList hkeys
    rwa [← setOf_eq, List.pairwise_map] at hapart

end Value

end LispCore
