import Mathlib.Data.Set.Insert
import LispCore.Proofs.Inert
import LispCore.Proofs.Openings

/-! # The grammar of forms

Which forms analysis accepts, said without it. Whether a name is in scope depends on what stands before it, so the
judgment `World.Accepts` takes the names that are mapped before a form to those that are mapped after it. A
definition maps its name before its metadata and its initial value are read. All else is fixed by the world in which
analysis starts: what qualifiers denote, and the names of other namespaces. -/

namespace LispCore

/-! ### Data -/

mutual

/-- The form can be quoted: all map keys in it can be keys. -/
def Form.isData : Form → Bool
  | .list items _ | .vector items _ | .set items _ => Form.areData items
  | .map entries _ => Form.areDataEntries entries
  | _ => true

def Form.areData : List Form → Bool
  | [] => true
  | form :: rest => Form.isData form && Form.areData rest

def Form.areDataEntries : List (Form × Form) → Bool
  | [] => true
  | (k, form) :: rest => Form.isKeyData k && (Form.isData form && Form.areDataEntries rest)

end

theorem Form.isOk_key (k : Form) (f : Fault → Failure) :
    (k.toValue >>= fun value => (Key.ofValue value).mapError f).isOk = k.isKeyData := by
  cases k with
  | list items _ | vector items _ | set items _ =>
    simp only [Form.toValue]
    cases Form.toValues items <;> rfl
  | map entries _ =>
    simp only [Form.toValue]
    cases Form.toEntries entries <;> rfl
  | _ => rfl

mutual

/-- What can be quoted has a value. -/
theorem Form.isOk_toValue : ∀ form : Form, form.toValue.isOk = form.isData
  | .nil _ | .bool _ _ | .int _ _ | .float _ _ | .string _ _ | .keyword _ _ | .symbol _ _ => by
    simp only [Form.toValue, Form.isData]
    rfl
  | .list items _ | .vector items _ | .set items _ => by
    simp only [Form.toValue, Form.isData, ← Form.isOk_toValues items]
    cases Form.toValues items <;> rfl
  | .map entries _ => by
    simp only [Form.toValue, Form.isData, ← Form.isOk_toEntries entries]
    cases Form.toEntries entries <;> rfl

theorem Form.isOk_toValues : ∀ forms : List Form, (Form.toValues forms).isOk = Form.areData forms
  | [] => by
    simp only [Form.toValues, Form.areData]
    rfl
  | form :: rest => by
    simp only [Form.toValues, Form.areData, ← Form.isOk_toValue form, ← Form.isOk_toValues rest]
    cases form.toValue with
    | error => rfl
    | ok value => cases Form.toValues rest <;> rfl

theorem Form.isOk_toEntries : ∀ entries : List (Form × Form),
    (Form.toEntries entries).isOk = Form.areDataEntries entries
  | [] => by
    simp only [Form.toEntries, Form.areDataEntries]
    rfl
  | (k, form) :: rest => by
    have hkey := Form.isOk_key k fun fault => { fault, span := some k.span }
    simp only [Form.toEntries, Form.areDataEntries, ← hkey, ← Form.isOk_toValue form, ← Form.isOk_toEntries rest]
    rw [← bind_assoc]
    cases (k.toValue >>= fun value => (Key.ofValue value).mapError fun fault => { fault, span := some k.span }) with
    | error => rfl
    | ok key =>
      cases form.toValue with
      | error => rfl
      | ok value => cases Form.toEntries rest <;> rfl

end

/-! ### Heads -/

/-- The symbol of a special form, without a namespace. Its metadata does not matter. -/
def SpecialForm.Heads (special : SpecialForm) (head : Form) : Prop :=
  ∃ metadata span, head = .symbol ⟨none, special.name, metadata⟩ span

theorem SpecialForm.ofName?_eq_some_iff {name : String} {special : SpecialForm} :
    ofName? name = some special ↔ name = special.name := by
  constructor
  · intro h
    have hname := List.find?_some h
    exact (beq_iff_eq.mp hname).symm
  · rintro rfl
    cases special <;> rfl

theorem SpecialForm.ofHead?_eq_some_iff {head : Form} {special : SpecialForm} :
    ofHead? head = some special ↔ special.Heads head := by
  unfold Heads
  cases head with
  | symbol sym span =>
    obtain ⟨ns, name, metadata⟩ := sym
    cases ns with
    | none => simp [ofHead?, Symbol.isQualified, ofName?_eq_some_iff]
    | some ns => simp [ofHead?, Symbol.isQualified]
  | _ => simp [ofHead?]

theorem SpecialForm.ofHead?_eq_none_iff {head : Form} :
    ofHead? head = none ↔ ∀ special : SpecialForm, ¬special.Heads head := by
  simp only [← ofHead?_eq_some_iff, Option.eq_none_iff_forall_ne_some, ne_eq]

theorem SpecialForm.Heads.unique {special special' : SpecialForm} {head : Form} (h : special.Heads head)
    (h' : special'.Heads head) : special = special' := by
  rw [← ofHead?_eq_some_iff] at h h'
  exact Option.some.inj (h.symm.trans h')

/-! ### The judgment -/

/-- Forms that stand for themselves. -/
def Form.isAtom : Form → Bool
  | .nil _ | .bool _ _ | .int _ _ | .float _ _ | .string _ _ | .keyword _ _ => true
  | _ => false

namespace World

/-- The names that a namespace maps. -/
def names (w : World) (ns : String) : Set String :=
  {name | (w.lookup ns name).isSome}

/-- A symbol in `ns` is looked up in `home`: in `ns` itself without a qualifier, else in what the qualifier is short
for, or in the namespace of that name. -/
inductive Denotes (w : World) (ns : String) (sym : Symbol) : String → Prop where
  | unqualified : sym.ns = none → w.Denotes ns sym ns
  | short {qualifier home} : sym.ns = some qualifier →
      Table.get? (w.namespaceAt ns).aliases qualifier = some home → w.Denotes ns sym home
  | full {qualifier} : sym.ns = some qualifier → Table.get? (w.namespaceAt ns).aliases qualifier = none →
      w.hasNs qualifier = true → w.Denotes ns sym qualifier

/-- A symbol in `ns` names a var, if `ns` maps the names `M`. -/
inductive InScope (w : World) (ns : String) (M : Set String) (sym : Symbol) : Prop where
  | here : w.Denotes ns sym ns → sym.name ∈ M → w.InScope ns M sym
  | abroad {home} : w.Denotes ns sym home → home ≠ ns → sym.name ∈ w.names home → w.InScope ns M sym

/-- A definition of the symbol is possible in `ns`, and `ns` then maps the last names. -/
inductive Defines (w : World) (ns : String) (M : Set String) (sym : Symbol) : Set String → Prop where
  | here : w.Denotes ns sym ns → w.Defines ns M sym (insert sym.name M)
  | abroad {home v} : w.Denotes ns sym home → home ≠ ns → w.lookup home sym.name = some v → v.ns = ns →
      w.Defines ns M sym M

section Accepts
variable (w : World) (ns : String)

mutual

/-- The form is accepted in `ns` where it maps the first names, and `ns` maps the last names after it. -/
inductive Accepts : Set String → Form → Set String → Prop where
  | atom {M form} : form.isAtom = true → Accepts M form M
  | symbol {M sym span} : w.InScope ns M sym → Accepts M (.symbol sym span) M
  | empty {M span} : Accepts M (.list [] span) M
  | quote {M head data span} : SpecialForm.quote.Heads head → data.isData = true → Accepts M (.list [head, data] span) M
  | body {M M' head forms span} : SpecialForm.body.Heads head → AcceptsAll M forms M' →
      Accepts M (.list (head :: forms) span) M'
  | enter {M M' head target span} : SpecialForm.enter.Heads head → Accepts M target M' →
      Accepts M (.list [head, target] span) M'
  | declare {M M' head target span} : SpecialForm.define.Heads head → AcceptsTarget false M target M' →
      Accepts M (.list [head, target] span) M'
  | define {M M₁ M' head target init span} : SpecialForm.define.Heads head → AcceptsTarget false M target M₁ →
      Accepts M₁ init M' → Accepts M (.list [head, target, init] span) M'
  | document {M M₁ M' head target doc docSpan init span} : SpecialForm.define.Heads head →
      AcceptsTarget true M target M₁ → Accepts M₁ init M' →
      Accepts M (.list [head, target, .string doc docSpan, init] span) M'
  | call {M M' head args span} : (∀ special : SpecialForm, ¬special.Heads head) → AcceptsAll M (head :: args) M' →
      Accepts M (.list (head :: args) span) M'
  | vector {M M' items span} : AcceptsAll M items M' → Accepts M (.vector items span) M'
  | set {M M' items span} : AcceptsAll M items M' → Accepts M (.set items span) M'
  | map {M M' entries span} : AcceptsEntries M entries M' → Accepts M (.map entries span) M'

/-- The target of a definition, with a docstring or without. -/
inductive AcceptsTarget : Bool → Set String → Form → Set String → Prop where
  | symbol {documented M M₁ M' sym span} : w.Defines ns M sym M₁ → (∀ form ∈ sym.arglists?, form.isData = true) →
      AcceptsTags documented M₁ (sym.metadata.getD []) M' → AcceptsTarget documented M (.symbol sym span) M'

/-- The metadata of a target. What a definition puts in its place is not read. -/
inductive AcceptsTags : Bool → Set String → List (Key × Form) → Set String → Prop where
  | nil {documented M} : AcceptsTags documented M [] M
  | own {documented M M' k form rest} : (ownKeys documented).contains k = true → AcceptsTags documented M rest M' →
      AcceptsTags documented M ((k, form) :: rest) M'
  | cons {documented M M₁ M' k form rest} : (ownKeys documented).contains k = false → Accepts M form M₁ →
      AcceptsTags documented M₁ rest M' → AcceptsTags documented M ((k, form) :: rest) M'

inductive AcceptsAll : Set String → List Form → Set String → Prop where
  | nil {M} : AcceptsAll M [] M
  | cons {M M₁ M' form rest} : Accepts M form M₁ → AcceptsAll M₁ rest M' → AcceptsAll M (form :: rest) M'

inductive AcceptsEntries : Set String → List (Form × Form) → Set String → Prop where
  | nil {M} : AcceptsEntries M [] M
  | cons {M M₁ M₂ M' k form rest} : Accepts M k M₁ → Accepts M₁ form M₂ → AcceptsEntries M₂ rest M' →
      AcceptsEntries M ((k, form) :: rest) M'

end

end Accepts

/-! ### Inversion -/

section Inversion
variable {w : World} {ns : String} {M M' : Set String}

/-- What may stand after the head of a special form. -/
def AcceptsArgs (w : World) (ns : String) : SpecialForm → Set String → List Form → Set String → Prop
  | .quote, M, args, M' => ∃ data, args = [data] ∧ data.isData = true ∧ M' = M
  | .body, M, args, M' => w.AcceptsAll ns M args M'
  | .enter, M, args, M' => ∃ target, args = [target] ∧ w.Accepts ns M target M'
  | .define, M, args, M' => (∃ target, args = [target] ∧ w.AcceptsTarget ns false M target M') ∨
    (∃ target init, args = [target, init] ∧ ∃ M₁, w.AcceptsTarget ns false M target M₁ ∧ w.Accepts ns M₁ init M') ∨
    ∃ target doc span init, args = [target, .string doc span, init] ∧
      ∃ M₁, w.AcceptsTarget ns true M target M₁ ∧ w.Accepts ns M₁ init M'

theorem accepts_special_iff {special : SpecialForm} {head : Form} (hhead : special.Heads head) {args : List Form}
    {span : Span} : w.Accepts ns M (.list (head :: args) span) M' ↔ w.AcceptsArgs ns special M args M' := by
  constructor
  · intro h
    cases h with
    | atom hatom => cases hatom
    | call hnone => exact (hnone special hhead).elim
    | quote h hdata =>
      cases hhead.unique h
      exact ⟨_, rfl, hdata, rfl⟩
    | body h hforms =>
      cases hhead.unique h
      exact hforms
    | enter h htarget =>
      cases hhead.unique h
      exact ⟨_, rfl, htarget⟩
    | declare h htarget =>
      cases hhead.unique h
      exact .inl ⟨_, rfl, htarget⟩
    | define h htarget hinit =>
      cases hhead.unique h
      exact .inr (.inl ⟨_, _, rfl, _, htarget, hinit⟩)
    | document h htarget hinit =>
      cases hhead.unique h
      exact .inr (.inr ⟨_, _, _, _, rfl, _, htarget, hinit⟩)
  · intro h
    cases special with
    | quote =>
      obtain ⟨data, rfl, hdata, rfl⟩ := h
      exact .quote hhead hdata
    | body => exact .body hhead h
    | enter =>
      obtain ⟨target, rfl, htarget⟩ := h
      exact .enter hhead htarget
    | define =>
      rcases h with ⟨target, rfl, htarget⟩ | ⟨target, init, rfl, M₁, htarget, hinit⟩ |
        ⟨target, doc, docSpan, init, rfl, M₁, htarget, hinit⟩
      · exact .declare hhead htarget
      · exact .define hhead htarget hinit
      · exact .document hhead htarget hinit

theorem accepts_call_iff {head : Form} (hhead : ∀ special : SpecialForm, ¬special.Heads head) {args : List Form}
    {span : Span} : w.Accepts ns M (.list (head :: args) span) M' ↔
      ∃ M₁, w.Accepts ns M head M₁ ∧ w.AcceptsAll ns M₁ args M' := by
  constructor
  · intro h
    cases h with
    | atom hatom => cases hatom
    | quote h | body h | enter h | declare h | define h | document h => exact (hhead _ h).elim
    | call _ hall =>
      obtain ⟨⟩ | ⟨hfirst, hargs⟩ := hall
      exact ⟨_, hfirst, hargs⟩
  · rintro ⟨M₁, hfirst, hargs⟩
    exact .call hhead (.cons hfirst hargs)

theorem accepts_atom_iff {form : Form} (hatom : form.isAtom = true) : w.Accepts ns M form M' ↔ M' = M := by
  constructor
  · intro h
    cases h with
    | atom => rfl
    | _ => cases hatom
  · rintro rfl
    exact .atom hatom

theorem accepts_symbol_iff {sym : Symbol} {span : Span} :
    w.Accepts ns M (.symbol sym span) M' ↔ w.InScope ns M sym ∧ M' = M := by
  constructor
  · intro h
    cases h with
    | atom hatom => cases hatom
    | symbol h => exact ⟨h, rfl⟩
  · rintro ⟨h, rfl⟩
    exact .symbol h

theorem accepts_empty_iff {span : Span} : w.Accepts ns M (.list [] span) M' ↔ M' = M := by
  constructor
  · intro h
    cases h with
    | atom hatom => cases hatom
    | empty => rfl
  · rintro rfl
    exact .empty

theorem accepts_vector_iff {items : List Form} {span : Span} :
    w.Accepts ns M (.vector items span) M' ↔ w.AcceptsAll ns M items M' := by
  constructor
  · intro h
    cases h with
    | atom hatom => cases hatom
    | vector h => exact h
  · exact .vector

theorem accepts_set_iff {items : List Form} {span : Span} :
    w.Accepts ns M (.set items span) M' ↔ w.AcceptsAll ns M items M' := by
  constructor
  · intro h
    cases h with
    | atom hatom => cases hatom
    | set h => exact h
  · exact .set

theorem accepts_map_iff {entries : List (Form × Form)} {span : Span} :
    w.Accepts ns M (.map entries span) M' ↔ w.AcceptsEntries ns M entries M' := by
  constructor
  · intro h
    cases h with
    | atom hatom => cases hatom
    | map h => exact h
  · exact .map

theorem acceptsAll_nil_iff : w.AcceptsAll ns M [] M' ↔ M' = M := by
  constructor
  · rintro ⟨⟩
    rfl
  · rintro rfl
    exact .nil

theorem acceptsAll_cons_iff {form : Form} {rest : List Form} :
    w.AcceptsAll ns M (form :: rest) M' ↔ ∃ M₁, w.Accepts ns M form M₁ ∧ w.AcceptsAll ns M₁ rest M' := by
  constructor
  · rintro (_ | ⟨hform, hrest⟩)
    exact ⟨_, hform, hrest⟩
  · rintro ⟨M₁, hform, hrest⟩
    exact .cons hform hrest

theorem acceptsEntries_nil_iff : w.AcceptsEntries ns M [] M' ↔ M' = M := by
  constructor
  · rintro ⟨⟩
    rfl
  · rintro rfl
    exact .nil

theorem acceptsEntries_cons_iff {k form : Form} {rest : List (Form × Form)} :
    w.AcceptsEntries ns M ((k, form) :: rest) M' ↔
      ∃ M₁, w.Accepts ns M k M₁ ∧ ∃ M₂, w.Accepts ns M₁ form M₂ ∧ w.AcceptsEntries ns M₂ rest M' := by
  constructor
  · rintro (_ | ⟨hk, hform, hrest⟩)
    exact ⟨_, hk, _, hform, hrest⟩
  · rintro ⟨M₁, hk, M₂, hform, hrest⟩
    exact .cons hk hform hrest

theorem acceptsTags_nil_iff {documented : Bool} : w.AcceptsTags ns documented M [] M' ↔ M' = M := by
  constructor
  · rintro ⟨⟩
    rfl
  · rintro rfl
    exact .nil

theorem acceptsTags_own_iff {documented : Bool} {k : Key} (hk : (ownKeys documented).contains k = true) {form : Form}
    {rest : List (Key × Form)} :
    w.AcceptsTags ns documented M ((k, form) :: rest) M' ↔ w.AcceptsTags ns documented M rest M' := by
  constructor
  · rintro (_ | ⟨-, hrest⟩ | ⟨hk', -, -⟩)
    · exact hrest
    · rw [hk] at hk'
      cases hk'
  · exact .own hk

theorem acceptsTags_cons_iff {documented : Bool} {k : Key} (hk : (ownKeys documented).contains k = false) {form : Form}
    {rest : List (Key × Form)} : w.AcceptsTags ns documented M ((k, form) :: rest) M' ↔
      ∃ M₁, w.Accepts ns M form M₁ ∧ w.AcceptsTags ns documented M₁ rest M' := by
  constructor
  · rintro (_ | ⟨hk', -⟩ | ⟨-, hform, hrest⟩)
    · rw [hk] at hk'
      cases hk'
    · exact ⟨_, hform, hrest⟩
  · rintro ⟨M₁, hform, hrest⟩
    exact .cons hk hform hrest

end Inversion

end World

end LispCore
