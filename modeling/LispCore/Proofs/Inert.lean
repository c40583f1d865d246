import LispCore.Proofs.Analysis

/-! # Plain data

A form is plain data if nothing in it is looked up or called: an atom, an empty collection, quoted data, or a
vector, set or map of plain data in which every map key can be one. The node of plain data is a constant: in every
world and in either order of definitions it has one value, does nothing and never fails. -/

namespace LispCore

/-! ### Forms -/

/-- Quoted, the form is a map key. -/
def Form.isKeyData : Form → Bool
  | .bool _ _ | .int _ _ | .string _ _ | .keyword _ _ | .symbol _ _ => true
  | _ => false

/-- Plain data that is a map key. -/
def Form.isKey : Form → Bool
  | .bool _ _ | .int _ _ | .string _ _ | .keyword _ _ => true
  | .list [head, data] _ => SpecialForm.ofHead? head == some .quote && data.isKeyData
  | _ => false

mutual

/-- Plain data. -/
def Form.isInert : Form → Bool
  | .nil _ | .bool _ _ | .int _ _ | .float _ _ | .string _ _ | .keyword _ _ | .list [] _ => true
  | .list [head, _] _ => SpecialForm.ofHead? head == some .quote
  | .vector items _ | .set items _ => Form.areInert items
  | .map entries _ => Form.areInertEntries entries
  | _ => false

def Form.areInert : List Form → Bool
  | [] => true
  | form :: rest => Form.isInert form && Form.areInert rest

def Form.areInertEntries : List (Form × Form) → Bool
  | [] => true
  | (k, form) :: rest => Form.isKey k && Form.isInert form && Form.areInertEntries rest

end

/-! ### Nodes -/

namespace Expr

/-- The node has one value, whatever the world, and nothing else happens. -/
def Constant (e : Expr) : Prop :=
  ∃ value, ∀ blame order, e.evalWith blame order = pure value

/-- The node has one value, which is a map key. -/
def ConstantKey (e : Expr) : Prop :=
  ∃ key : Key, ∀ blame order, e.evalWith blame order = pure key.toValue

theorem constant_const (value : Value) : (Expr.const value).Constant :=
  ⟨value, fun _ _ => by simp only [evalWith]⟩

theorem constant_empty (kind : CollKind) : (Expr.empty kind).Constant :=
  ⟨kind.empty, fun _ _ => by simp only [evalWith]⟩

theorem constant_ofLiteral (value : Value) : (Expr.ofLiteral value).Constant := by
  unfold ofLiteral
  split
  · exact constant_empty _
  · exact constant_const value

theorem evalAll_constant {items : List Expr} (h : ∀ e ∈ items, e.Constant) :
    ∃ values, ∀ blame order, evalAll blame order items = pure values := by
  induction items with
  | nil => exact ⟨[], fun _ _ => rfl⟩
  | cons e rest ih =>
    obtain ⟨⟨value, hvalue⟩, hrest⟩ := List.forall_mem_cons.mp h
    obtain ⟨values, hvalues⟩ := ih hrest
    exact ⟨value :: values, fun blame order => by simp only [evalAll, hvalue, hvalues, pure_bind]⟩

theorem evalTags_constant {tags : List (Key × Expr)} (h : ∀ t ∈ tags, t.2.Constant) :
    ∃ values, ∀ blame order, evalTags blame order tags = pure values := by
  induction tags with
  | nil => exact ⟨[], fun _ _ => rfl⟩
  | cons t rest ih =>
    obtain ⟨⟨value, hvalue⟩, hrest⟩ := List.forall_mem_cons.mp h
    obtain ⟨values, hvalues⟩ := ih hrest
    exact ⟨(t.1, value) :: values, fun blame order => by simp only [evalTags, hvalue, hvalues, pure_bind]⟩

theorem evalEntries_constant {entries : List (Expr × Expr)} (h : ∀ p ∈ entries, p.1.ConstantKey ∧ p.2.Constant) :
    ∃ tags : List (Key × Value), ∀ blame order,
      evalEntries blame order entries = pure (tags.map fun t => (t.1.toValue, t.2)) := by
  induction entries with
  | nil => exact ⟨[], fun _ _ => rfl⟩
  | cons p rest ih =>
    obtain ⟨⟨⟨key, hkey⟩, value, hvalue⟩, hrest⟩ := List.forall_mem_cons.mp h
    obtain ⟨tags, htags⟩ := ih hrest
    refine ⟨(key, value) :: tags, fun blame order => ?_⟩
    simp only [evalEntries, hkey, hvalue, htags, pure_bind, List.map_cons]

theorem constant_vector {items : List Expr} (h : ∀ e ∈ items, e.Constant) : (Expr.vector items).Constant := by
  obtain ⟨values, hvalues⟩ := evalAll_constant h
  exact ⟨.vector values, fun blame order => by simp only [evalWith, hvalues, pure_bind]⟩

theorem constant_set {items : List Expr} (h : ∀ e ∈ items, e.Constant) : (Expr.set items).Constant := by
  obtain ⟨values, hvalues⟩ := evalAll_constant h
  exact ⟨.set (Value.setOf values), fun blame order => by simp only [evalWith, hvalues, pure_bind]⟩

theorem constant_map {entries : List (Expr × Expr)} (h : ∀ p ∈ entries, p.1.ConstantKey ∧ p.2.Constant) :
    (Expr.map entries).Constant := by
  obtain ⟨tags, htags⟩ := evalEntries_constant h
  refine ⟨.map (Table.ofList tags), fun blame order => ?_⟩
  simp only [evalWith, htags, pure_bind, Exec.ofExcept_bind_apply_ok (Value.mapOf_tags tags)]

end Expr

/-! ### Analysis of plain data -/

variable {ctx : Context}

theorem analyzeQuote_eq_ok {span : Span} {data : Form} {e : Expr} {w w' : World}
    (h : analyzeQuote ctx span [data] w = .ok e w') : ∃ value, data.toValue = .ok value ∧ e = .ofLiteral value := by
  obtain ⟨value, w₁, hvalue, h⟩ := Exec.bind_eq_ok h
  cases h
  cases hdata : data.toValue with
  | ok value' =>
    rw [hdata] at hvalue
    cases hvalue
    exact ⟨value, rfl, rfl⟩
  | error failure =>
    rw [hdata] at hvalue
    cases hvalue

/-- A list of two forms that is plain data is quoted data. -/
theorem analyze_quoted {head data : Form} {span : Span} (h : (SpecialForm.ofHead? head == some .quote) = true) :
    analyze ctx (.list [head, data] span) = analyzeQuote ctx span [data] := by
  have hhead : SpecialForm.ofHead? head = some .quote := by simpa using h
  simp only [analyze, hhead]

theorem key_of_isKeyData {data : Form} {value : Value} (hdata : data.isKeyData = true)
    (h : data.toValue = .ok value) : ∃ key : Key, value = key.toValue := by
  cases data with
  | bool b _ =>
    cases h
    exact ⟨.bool b, rfl⟩
  | int n _ =>
    cases h
    exact ⟨.int n, rfl⟩
  | string text _ =>
    cases h
    exact ⟨.string text, rfl⟩
  | keyword name _ =>
    cases h
    exact ⟨.keyword name, rfl⟩
  | symbol sym _ =>
    cases h
    exact ⟨.symbol sym, rfl⟩
  | _ => cases hdata

theorem ofLiteral_toValue (key : Key) : Expr.ofLiteral key.toValue = .const key.toValue := by
  cases key <;> rfl

theorem constantKey_const (key : Key) : (Expr.const key.toValue).ConstantKey :=
  ⟨key, fun _ _ => by simp only [Expr.evalWith]⟩

theorem constantKey_of_isKey {form : Form} {e : Expr} {w w' : World} (hform : form.isKey = true)
    (h : analyze ctx form w = .ok e w') : e.ConstantKey := by
  unfold Form.isKey at hform
  split at hform
  · next b _ =>
    simp only [analyze] at h
    cases h
    exact constantKey_const (.bool b)
  · next n _ =>
    simp only [analyze] at h
    cases h
    exact constantKey_const (.int n)
  · next text _ =>
    simp only [analyze] at h
    cases h
    exact constantKey_const (.string text)
  · next name _ =>
    simp only [analyze] at h
    cases h
    exact constantKey_const (.keyword name)
  · obtain ⟨hquote, hdata⟩ := Bool.and_eq_true_iff.mp hform
    rw [analyze_quoted hquote] at h
    obtain ⟨value, hvalue, rfl⟩ := analyzeQuote_eq_ok h
    obtain ⟨key, rfl⟩ := key_of_isKeyData hdata hvalue
    rw [ofLiteral_toValue]
    exact constantKey_const key
  · cases hform

mutual

/-- The node of plain data is a constant. -/
theorem constant_of_isInert : ∀ {form : Form} {e : Expr} {w w' : World}, form.isInert = true →
    analyze ctx form w = .ok e w' → e.Constant
  | .nil _, _, _, _, _, h | .bool _ _, _, _, _, _, h | .int _ _, _, _, _, _, h | .float _ _, _, _, _, _, h
  | .string _ _, _, _, _, _, h | .keyword _ _, _, _, _, _, h => by
    simp only [analyze] at h
    cases h
    exact Expr.constant_const _
  | .list [] _, _, _, _, _, h | .vector [] _, _, _, _, _, h | .set [] _, _, _, _, _, h
  | .map [] _, _, _, _, _, h => by
    simp only [analyze] at h
    cases h
    exact Expr.constant_empty _
  | .list [head, data] span, _, _, _, hform, h => by
    simp only [Form.isInert] at hform
    rw [analyze_quoted hform] at h
    obtain ⟨value, -, rfl⟩ := analyzeQuote_eq_ok h
    exact Expr.constant_ofLiteral value
  | .vector (item :: items) _, _, _, _, hform, h => by
    simp only [analyze] at h
    obtain ⟨first, w₁, hfirst, h⟩ := Exec.bind_eq_ok h
    obtain ⟨rest, w₂, hrest, h⟩ := Exec.bind_eq_ok h
    cases h
    obtain ⟨hitem, hitems⟩ := Bool.and_eq_true_iff.mp hform
    exact Expr.constant_vector (List.forall_mem_cons.mpr
      ⟨constant_of_isInert hitem hfirst, constant_of_areInert hitems hrest⟩)
  | .set (item :: items) _, _, _, _, hform, h => by
    simp only [analyze] at h
    obtain ⟨first, w₁, hfirst, h⟩ := Exec.bind_eq_ok h
    obtain ⟨rest, w₂, hrest, h⟩ := Exec.bind_eq_ok h
    cases h
    obtain ⟨hitem, hitems⟩ := Bool.and_eq_true_iff.mp hform
    exact Expr.constant_set (List.forall_mem_cons.mpr
      ⟨constant_of_isInert hitem hfirst, constant_of_areInert hitems hrest⟩)
  | .map ((k, form) :: entries) _, _, _, _, hform, h => by
    simp only [analyze] at h
    obtain ⟨key, w₁, hkey, h⟩ := Exec.bind_eq_ok h
    obtain ⟨value, w₂, hvalue, h⟩ := Exec.bind_eq_ok h
    obtain ⟨rest, w₃, hrest, h⟩ := Exec.bind_eq_ok h
    cases h
    obtain ⟨hform, hentries⟩ := Bool.and_eq_true_iff.mp hform
    obtain ⟨hk, hform⟩ := Bool.and_eq_true_iff.mp hform
    exact Expr.constant_map (List.forall_mem_cons.mpr
      ⟨⟨constantKey_of_isKey hk hkey, constant_of_isInert hform hvalue⟩, constant_of_areInertEntries hentries hrest⟩)
  | .symbol _ _, _, _, _, hform, _ | .list [_] _, _, _, _, hform, _
  | .list (_ :: _ :: _ :: _) _, _, _, _, hform, _ => by
    simp only [Form.isInert, Bool.false_eq_true] at hform

theorem constant_of_areInert : ∀ {forms : List Form} {es : List Expr} {w w' : World}, Form.areInert forms = true →
    analyzeAll ctx forms w = .ok es w' → ∀ e ∈ es, e.Constant
  | [], _, _, _, _, h => by
    simp only [analyzeAll] at h
    cases h
    simp
  | form :: rest, _, _, _, hforms, h => by
    simp only [analyzeAll] at h
    obtain ⟨e, w₁, he, h⟩ := Exec.bind_eq_ok h
    obtain ⟨es, w₂, hes, h⟩ := Exec.bind_eq_ok h
    cases h
    obtain ⟨hform, hrest⟩ := Bool.and_eq_true_iff.mp hforms
    exact List.forall_mem_cons.mpr ⟨constant_of_isInert hform he, constant_of_areInert hrest hes⟩

theorem constant_of_areInertEntries : ∀ {entries : List (Form × Form)} {ps : List (Expr × Expr)} {w w' : World},
    Form.areInertEntries entries = true → analyzeEntries ctx entries w = .ok ps w' →
      ∀ p ∈ ps, p.1.ConstantKey ∧ p.2.Constant
  | [], _, _, _, _, h => by
    simp only [analyzeEntries] at h
    cases h
    simp
  | (k, form) :: rest, _, _, _, hentries, h => by
    simp only [analyzeEntries] at h
    obtain ⟨key, w₁, hkey, h⟩ := Exec.bind_eq_ok h
    obtain ⟨value, w₂, hvalue, h⟩ := Exec.bind_eq_ok h
    obtain ⟨ps, w₃, hps, h⟩ := Exec.bind_eq_ok h
    cases h
    obtain ⟨hform, hrest⟩ := Bool.and_eq_true_iff.mp hentries
    obtain ⟨hk, hform⟩ := Bool.and_eq_true_iff.mp hform
    exact List.forall_mem_cons.mpr
      ⟨⟨constantKey_of_isKey hk hkey, constant_of_isInert hform hvalue⟩, constant_of_areInertEntries hrest hps⟩

end

end LispCore
