import LispCore.Proofs.Literals
import LispCore.Proofs.Recasting
import Mathlib.Data.List.Induction
import Mathlib.Data.Set.List

/-! # Building sets and maps

Sets and maps are built by insertion, and an insertion takes the place of an equal element or key. Of all that is given
the last of equal things is kept, and nothing else is lost (`KeepsLast`): this holds after each insertion and so in the
end. It is the same whether the parts are values that were computed or forms that are taken as data. -/

namespace LispCore

/-! ### The last of equal things -/

/-- Of the given things the last of those with equal keys is kept. -/
structure KeepsLast {ι κ : Type} [BEq κ] (key : ι → κ) (given kept : List ι) : Prop where
  apart : kept.Pairwise fun a b => (key a == key b) = false
  present : ∀ k, (∃ a ∈ kept, (key a == k) = true) ↔ ∃ a ∈ given, (key a == k) = true
  last : ∀ a ∈ kept, ∃ before after, given = before ++ a :: after ∧ ∀ b ∈ after, (key a == key b) = false

/-- Only keys count. -/
theorem KeepsLast.map {ι ι' κ : Type} [BEq κ] {key : ι → κ} {key' : ι' → κ} {given kept : List ι}
    (h : KeepsLast key given kept) {f : ι → ι'} (hf : ∀ a, key' (f a) = key a) :
    KeepsLast key' (given.map f) (kept.map f) := by
  refine ⟨?_, fun k => ?_, fun b hb => ?_⟩
  · simp only [List.pairwise_map, hf]
    exact h.apart
  · simp only [List.mem_map, exists_exists_and_eq_and, hf]
    exact h.present k
  · obtain ⟨a, ha, rfl⟩ := List.mem_map.mp hb
    obtain ⟨before, after, rfl, hafter⟩ := h.last a ha
    refine ⟨before.map f, after.map f, List.map_append, fun c hc => ?_⟩
    obtain ⟨a', ha', rfl⟩ := List.mem_map.mp hc
    rw [hf, hf, hafter a' ha']

namespace BEqOn
variable {κ α : Type} [BEq κ] {P : κ → Prop}

/-- Insertion keeps what has other keys. -/
theorem mem_insert_iff (hP : BEqOn P) {t : Table κ α} (ht : ∀ e ∈ t, P e.1)
    (hapart : t.Pairwise fun e e' => (e.1 == e'.1) = false) {k : κ} (hk : P k) (a : α) {e : κ × α} :
    e ∈ Table.insert t k a ↔ e = (k, a) ∨ e ∈ t ∧ (k == e.1) = false := by
  induction t with
  | nil => simp [Table.insert]
  | cons first rest ih =>
    obtain ⟨hfirst, hrest⟩ := List.forall_mem_cons.mp ht
    obtain ⟨hothers, hapart⟩ := List.pairwise_cons.mp hapart
    unfold Table.insert
    split
    · next hkf =>
      -- the others are apart from the key, since they are apart from the first
      have hother : ∀ e' ∈ rest, (k == e'.1) = false := by
        intro e' he'
        rw [hP.beq_congr hk hfirst (hrest e' he') hkf, hothers e' he']
      rw [List.mem_cons, List.mem_cons]
      refine or_congr_right ⟨fun he => ⟨.inr he, hother e he⟩, ?_⟩
      rintro ⟨rfl | he, hke⟩
      · rw [hkf] at hke
        cases hke
      · exact he
    · next hkf =>
      rw [List.mem_cons, ih hrest hapart, List.mem_cons]
      constructor
      · rintro (rfl | rfl | ⟨he, hke⟩)
        · exact .inr ⟨.inl rfl, Bool.eq_false_of_not_eq_true hkf⟩
        · exact .inl rfl
        · exact .inr ⟨.inr he, hke⟩
      · rintro (rfl | ⟨rfl | he, hke⟩)
        · exact .inr (.inl rfl)
        · exact .inl rfl
        · exact .inr (.inr ⟨he, hke⟩)

/-- The step: one more insertion. -/
theorem keepsLast_insert (hP : BEqOn P) (hclosed : ∀ a b, P a → (a == b) = true → P b) {given : List (κ × α)}
    {kept : Table κ α} (h : KeepsLast Prod.fst given kept) (hgiven : ∀ e ∈ given, P e.1) {e : κ × α} (he : P e.1) :
    KeepsLast Prod.fst (given ++ [e]) (Table.insert kept e.1 e.2) := by
  have hsub : ∀ a ∈ kept, a ∈ given := by
    intro a ha
    obtain ⟨before, after, rfl, -⟩ := h.last a ha
    simp
  have hkept : ∀ a ∈ kept, P a.1 := fun a ha => hgiven a (hsub a ha)
  have hmem : ∀ a, a ∈ Table.insert kept e.1 e.2 ↔ a = e ∨ a ∈ kept ∧ (e.1 == a.1) = false :=
    fun a => hP.mem_insert_iff hkept h.apart he e.2
  refine ⟨hP.pairwise_insert hkept h.apart he e.2, fun k => ⟨?_, ?_⟩, fun a ha => ?_⟩
  · rintro ⟨a, ha, hak⟩
    rcases (hmem a).mp ha with rfl | ⟨ha, -⟩
    · exact ⟨a, by simp, hak⟩
    · exact ⟨a, List.mem_append_left _ (hsub a ha), hak⟩
  · rintro ⟨a, ha, hak⟩
    rcases List.mem_append.mp ha with ha | ha
    · obtain ⟨b, hb, hbk⟩ := (h.present k).mpr ⟨a, ha, hak⟩
      cases heb : e.1 == b.1 with
      | false => exact ⟨b, (hmem b).mpr (.inr ⟨hb, heb⟩), hbk⟩
      | true =>
        have hek := hP.trans e.1 b.1 k he (hkept b hb) (hclosed b.1 k (hkept b hb) hbk) heb hbk
        exact ⟨e, (hmem e).mpr (.inl rfl), hek⟩
    · rw [List.mem_singleton.mp ha] at hak
      exact ⟨e, (hmem e).mpr (.inl rfl), hak⟩
  · rcases (hmem a).mp ha with rfl | ⟨ha, hea⟩
    · exact ⟨given, [], rfl, by simp⟩
    · obtain ⟨before, after, rfl, hafter⟩ := h.last a ha
      refine ⟨before, after ++ [e], by simp, fun b hb => ?_⟩
      rcases List.mem_append.mp hb with hb | hb
      · exact hafter b hb
      · rw [List.mem_singleton.mp hb, ← Bool.not_eq_true]
        intro hae
        rw [hP.symm a.1 e.1 (hkept a ha) he hae] at hea
        cases hea

/-- The run: a table that is built by insertion. -/
theorem keepsLast_ofList (hP : BEqOn P) (hclosed : ∀ a b, P a → (a == b) = true → P b) {entries : List (κ × α)}
    (h : ∀ e ∈ entries, P e.1) : KeepsLast Prod.fst entries (Table.ofList entries) := by
  induction entries using List.reverseRecOn with
  | nil => exact ⟨.nil, fun k => Iff.rfl, by simp [Table.ofList]⟩
  | append_singleton given e ih =>
    have hgiven : ∀ e ∈ given, P e.1 := fun e he => h e (List.mem_append_left _ he)
    have hinsert : Table.ofList (given ++ [e]) = Table.insert (Table.ofList given) e.1 e.2 := List.foldl_append
    rw [hinsert]
    exact hP.keepsLast_insert hclosed (ih hgiven) hgiven (h e (by simp))

end BEqOn

/-! ### Sets and maps of values -/

section Results
variable {ε ε' α β : Type} {r : Except ε α} {a : α}

theorem pure_eq_ok_iff {b : α} : (pure a : Except ε α) = .ok b ↔ a = b := by
  simp [pure, Except.pure]

theorem bind_eq_ok_iff {f : α → Except ε β} {b : β} : r >>= f = .ok b ↔ ∃ a, r = .ok a ∧ f a = .ok b := by
  cases r <;> simp [bind, Except.bind]

theorem mapError_eq_ok_iff {f : ε → ε'} : r.mapError f = .ok a ↔ r = .ok a := by
  cases r <;> simp [Except.mapError]

end Results

theorem Key.eq_toValue_of_ofValue {value : Value} {k : Key} (h : Key.ofValue value = .ok k) : value = k.toValue := by
  cases value <;> cases h <;> rfl

namespace Value

/-- The set of the last of equal items. -/
def IsSetOf (items : List Value) (v : Value) : Prop :=
  ∃ kept, v = .set kept ∧ KeepsLast id items kept

/-- The map of the last of the pairs with equal keys. -/
def IsMapOf (pairs : List (Value × Value)) (v : Value) : Prop :=
  ∃ given kept, pairs = given.map (fun e => (e.1.toValue, e.2)) ∧ v = .map kept ∧ KeepsLast Prod.fst given kept

/-- What can be the key of a map. -/
def IsKey (v : Value) : Prop :=
  v.kind ∈ [.keyword, .symbol, .string, .int, .bool]

theorem isKey_iff {v : Value} : v.IsKey ↔ ∃ k : Key, k.toValue = v := by
  constructor
  · intro h
    cases v with
    | keyword name => exact ⟨.keyword name, rfl⟩
    | symbol sym => exact ⟨.symbol sym, rfl⟩
    | string text => exact ⟨.string text, rfl⟩
    | int n => exact ⟨.int n, rfl⟩
    | bool b => exact ⟨.bool b, rfl⟩
    | _ => simp [IsKey, kind] at h
  · rintro ⟨k, rfl⟩
    cases k <;> simp [IsKey, kind, Key.toValue]

theorem isSetOf_setOf {items : List Value} (h : ∀ a ∈ items, a.Proper) : (Value.set (setOf items)).IsSetOf items := by
  have hkeys : ∀ e ∈ items.map (·, ()), e.1.Proper := by simpa using h
  have hclosed : ∀ a b : Value, a.Proper → (a == b) = true → b.Proper := fun a b ha hab => (ha.recast_of_beq hab).1
  have hlast : KeepsLast id ((items.map (·, ())).map Prod.fst) ((Table.ofList (items.map (·, ()))).map Prod.fst) :=
    (beqOn_proper.keepsLast_ofList hclosed hkeys).map fun _ => rfl
  rw [← setOf_eq] at hlast
  simp only [List.map_map, Function.comp_def, List.map_id'] at hlast
  exact ⟨_, rfl, hlast⟩

theorem isMapOf_ofList (given : List (Key × Value)) :
    (Value.map (Table.ofList given)).IsMapOf (given.map fun e => (e.1.toValue, e.2)) :=
  ⟨given, _, rfl, rfl, Key.beqOn.keepsLast_ofList (fun _ _ _ _ => trivial) fun _ _ => trivial⟩

theorem keyed_eq_ok {pairs : List (Value × Value)} {given : List (Key × Value)} (h : keyed pairs = .ok given) :
    pairs = given.map fun e => (e.1.toValue, e.2) := by
  induction pairs generalizing given with
  | nil =>
    cases h
    rfl
  | cons p rest ih =>
    obtain ⟨k, value⟩ := p
    simp only [keyed_cons, bind_eq_ok_iff, pure_eq_ok_iff] at h
    obtain ⟨key, hkey, given, hgiven, rfl⟩ := h
    rw [List.map_cons, ← ih hgiven, Key.eq_toValue_of_ofValue hkey]

theorem mapOf_eq_ok_iff {pairs : List (Value × Value)} {entries : Table Key Value} :
    mapOf pairs = .ok entries ↔
      ∃ given, pairs = given.map (fun e => (e.1.toValue, e.2)) ∧ entries = Table.ofList given := by
  constructor
  · intro h
    simp only [mapOf_eq, bind_eq_ok_iff, pure_eq_ok_iff] at h
    obtain ⟨given, hgiven, rfl⟩ := h
    exact ⟨given, keyed_eq_ok hgiven, rfl⟩
  · rintro ⟨given, rfl, rfl⟩
    exact mapOf_tags given

theorem exists_keys {pairs : List (Value × Value)} (h : ∀ p ∈ pairs, p.1.IsKey) :
    ∃ given : List (Key × Value), pairs = given.map fun e => (e.1.toValue, e.2) := by
  have hrange : pairs ∈ Set.range (List.map fun e : Key × Value => (e.1.toValue, e.2)) := by
    rw [Set.range_list_map]
    intro p hp
    obtain ⟨k, hk⟩ := isKey_iff.mp (h p hp)
    exact ⟨(k, p.2), Prod.ext hk rfl⟩
  obtain ⟨given, hgiven⟩ := hrange
  exact ⟨given, hgiven.symm⟩

/-- There is a map just when every key can be one. -/
theorem mapOf_defined_iff {pairs : List (Value × Value)} :
    (∃ entries, mapOf pairs = .ok entries) ↔ ∀ p ∈ pairs, p.1.IsKey := by
  constructor
  · rintro ⟨entries, h⟩ p hp
    obtain ⟨given, rfl, -⟩ := mapOf_eq_ok_iff.mp h
    obtain ⟨e, -, rfl⟩ := List.mem_map.mp hp
    exact isKey_iff.mpr ⟨e.1, rfl⟩
  · intro h
    obtain ⟨given, rfl⟩ := exists_keys h
    exact ⟨_, mapOf_tags given⟩

theorem isMapOf_of_mapOf {pairs : List (Value × Value)} {entries : Table Key Value} (h : mapOf pairs = .ok entries) :
    (Value.map entries).IsMapOf pairs := by
  obtain ⟨given, rfl, rfl⟩ := mapOf_eq_ok_iff.mp h
  exact isMapOf_ofList given

end Value

/-- Items of an even number are all in the pairs. -/
theorem Machine.flat_pairUp {items : List Value} (h : items.length % 2 = 0) : flat (pairUp items) = items := by
  fun_induction pairUp items with
  | case1 k v rest ih =>
    rw [List.length_cons, List.length_cons] at h
    rw [flat_cons, ih (by omega)]
  | case2 items hitems =>
    rcases items with _ | ⟨k, _ | ⟨v, rest⟩⟩
    · rfl
    · simp at h
    · exact (hitems k v rest rfl).elim

/-! ### Sets and maps of data -/

namespace Form

/-- The values are what the forms are as data, one by one. -/
def ReadAs (forms : List Form) (values : List Value) : Prop :=
  List.Forall₂ (fun form value => form.toValue = .ok value) forms values

/-- The pairs are what the entries of a map are as data. -/
def EntriesReadAs (forms : List (Form × Form)) (pairs : List (Value × Value)) : Prop :=
  List.Forall₂ (fun f p => f.1.toValue = .ok p.1 ∧ f.2.toValue = .ok p.2) forms pairs

theorem toValues_eq_ok_iff {forms : List Form} {values : List Value} :
    toValues forms = .ok values ↔ ReadAs forms values := by
  unfold ReadAs
  induction forms generalizing values with
  | nil => rw [List.forall₂_nil_left_iff, toValues, pure_eq_ok_iff, eq_comm]
  | cons form rest ih =>
    simp only [List.forall₂_cons_left_iff, toValues, bind_eq_ok_iff, pure_eq_ok_iff, ih]
    constructor
    · rintro ⟨value, hvalue, values, hvalues, rfl⟩
      exact ⟨value, values, hvalue, hvalues, rfl⟩
    · rintro ⟨value, values, hvalue, hvalues, rfl⟩
      exact ⟨value, hvalue, values, hvalues, rfl⟩

theorem toEntries_eq_ok_iff {forms : List (Form × Form)} {given : List (Key × Value)} :
    toEntries forms = .ok given ↔ EntriesReadAs forms (given.map fun e => (e.1.toValue, e.2)) := by
  unfold EntriesReadAs
  rw [List.forall₂_map_right_iff]
  induction forms generalizing given with
  | nil => rw [List.forall₂_nil_left_iff, toEntries, pure_eq_ok_iff, eq_comm]
  | cons f rest ih =>
    simp only [List.forall₂_cons_left_iff, toEntries, bind_eq_ok_iff, pure_eq_ok_iff, mapError_eq_ok_iff, ih]
    constructor
    · rintro ⟨k, hk, key, hkey, value, hvalue, given, hgiven, rfl⟩
      exact ⟨(key, value), given, ⟨Key.eq_toValue_of_ofValue hkey ▸ hk, hvalue⟩, hgiven, rfl⟩
    · rintro ⟨e, given, ⟨hk, hvalue⟩, hgiven, rfl⟩
      exact ⟨e.1.toValue, hk, e.1, Key.ofValue_toValue e.1, e.2, hvalue, given, hgiven, rfl⟩

theorem toValue_set_eq_ok_iff {items : List Form} {span : Span} {v : Value} :
    (Form.set items span).toValue = .ok v ↔ ∃ values, ReadAs items values ∧ v = .set (Value.setOf values) := by
  simp only [toValue, bind_eq_ok_iff, pure_eq_ok_iff, toValues_eq_ok_iff, eq_comm (a := v)]

theorem toValue_map_eq_ok_iff {forms : List (Form × Form)} {span : Span} {v : Value} :
    (Form.map forms span).toValue = .ok v ↔
      ∃ given, EntriesReadAs forms (given.map fun e => (e.1.toValue, e.2)) ∧ v = .map (Table.ofList given) := by
  simp only [toValue, bind_eq_ok_iff, pure_eq_ok_iff, toEntries_eq_ok_iff, eq_comm (a := v)]

mutual

/-- What is taken as data is proper. -/
theorem proper_toValue : ∀ (form : Form) {v : Value}, form.toValue = .ok v → v.Proper
  | .nil _, _, h | .bool _ _, _, h | .int _ _, _, h | .float _ _, _, h | .string _ _, _, h | .keyword _ _, _, h
  | .symbol _ _, _, h => by
    cases h
    exact .atom rfl
  | .list items _, v, h => by
    simp only [toValue, bind_eq_ok_iff, pure_eq_ok_iff] at h
    obtain ⟨values, hvalues, rfl⟩ := h
    exact .list (proper_toValues items hvalues)
  | .vector items _, v, h => by
    simp only [toValue, bind_eq_ok_iff, pure_eq_ok_iff] at h
    obtain ⟨values, hvalues, rfl⟩ := h
    exact .vector (proper_toValues items hvalues)
  | .set items span, v, h => by
    obtain ⟨values, hvalues, rfl⟩ := toValue_set_eq_ok_iff.mp h
    exact Value.proper_setOf (proper_toValues items (toValues_eq_ok_iff.mpr hvalues))
  | .map entries span, v, h => by
    obtain ⟨given, hgiven, rfl⟩ := toValue_map_eq_ok_iff.mp h
    exact Value.proper_mapOf (proper_toEntries entries (toEntries_eq_ok_iff.mpr hgiven))

theorem proper_toValues : ∀ (forms : List Form) {values : List Value}, toValues forms = .ok values →
    ∀ a ∈ values, a.Proper
  | [], _, h => by
    cases h
    simp
  | form :: rest, values, h => by
    obtain ⟨value, others, hvalue, hothers, rfl⟩ := List.forall₂_cons_left_iff.mp (toValues_eq_ok_iff.mp h)
    have hrest : toValues rest = .ok others := toValues_eq_ok_iff.mpr hothers
    exact List.forall_mem_cons.mpr ⟨proper_toValue form hvalue, proper_toValues rest hrest⟩

theorem proper_toEntries : ∀ (forms : List (Form × Form)) {given : List (Key × Value)}, toEntries forms = .ok given →
    ∀ e ∈ given, e.2.Proper
  | [], _, h => by
    cases h
    simp
  | (k, form) :: rest, given, h => by
    have hentries := List.forall₂_map_right_iff.mp (toEntries_eq_ok_iff.mp h)
    obtain ⟨e, others, ⟨-, hvalue⟩, hothers, rfl⟩ := List.forall₂_cons_left_iff.mp hentries
    have hrest : toEntries rest = .ok others := toEntries_eq_ok_iff.mpr (List.forall₂_map_right_iff.mpr hothers)
    exact List.forall_mem_cons.mpr ⟨proper_toValue form hvalue, proper_toEntries rest hrest⟩

end

theorem toValue_set_defined_iff {items : List Form} {span : Span} :
    (∃ v, (Form.set items span).toValue = .ok v) ↔ ∃ values, ReadAs items values := by
  constructor
  · rintro ⟨v, h⟩
    obtain ⟨values, hvalues, -⟩ := toValue_set_eq_ok_iff.mp h
    exact ⟨values, hvalues⟩
  · rintro ⟨values, hvalues⟩
    exact ⟨_, toValue_set_eq_ok_iff.mpr ⟨values, hvalues, rfl⟩⟩

theorem isSetOf_of_readAs {items : List Form} {span : Span} {values : List Value} {v : Value}
    (hvalues : ReadAs items values) (h : (Form.set items span).toValue = .ok v) : v.IsSetOf values := by
  obtain ⟨values', hvalues', rfl⟩ := toValue_set_eq_ok_iff.mp h
  rw [← toValues_eq_ok_iff] at hvalues hvalues'
  cases hvalues.symm.trans hvalues'
  exact Value.isSetOf_setOf (proper_toValues items hvalues)

/-- There is a map just when every key is one that can be. -/
theorem toValue_map_defined_iff {forms : List (Form × Form)} {span : Span} :
    (∃ v, (Form.map forms span).toValue = .ok v) ↔ ∃ pairs, EntriesReadAs forms pairs ∧ ∀ p ∈ pairs, p.1.IsKey := by
  constructor
  · rintro ⟨v, h⟩
    obtain ⟨given, hgiven, -⟩ := toValue_map_eq_ok_iff.mp h
    exact ⟨_, hgiven, Value.mapOf_defined_iff.mp ⟨_, Value.mapOf_tags given⟩⟩
  · rintro ⟨pairs, hpairs, hkeys⟩
    obtain ⟨given, rfl⟩ := Value.exists_keys hkeys
    exact ⟨_, toValue_map_eq_ok_iff.mpr ⟨given, hpairs, rfl⟩⟩

theorem isMapOf_of_entriesReadAs {forms : List (Form × Form)} {span : Span} {pairs : List (Value × Value)} {v : Value}
    (hpairs : EntriesReadAs forms pairs) (h : (Form.map forms span).toValue = .ok v) : v.IsMapOf pairs := by
  obtain ⟨given, hgiven, rfl⟩ := toValue_map_eq_ok_iff.mp h
  -- what an entry is as data is fixed
  have hunique : Relator.RightUnique fun (f : Form × Form) (p : Value × Value) =>
      f.1.toValue = .ok p.1 ∧ f.2.toValue = .ok p.2 := by
    rintro f p p' ⟨hk, hvalue⟩ ⟨hk', hvalue'⟩
    exact Prod.ext (Except.ok.inj (hk.symm.trans hk')) (Except.ok.inj (hvalue.symm.trans hvalue'))
  rw [List.right_unique_forall₂' hunique hpairs hgiven]
  exact Value.isMapOf_ofList given

end Form

end LispCore
