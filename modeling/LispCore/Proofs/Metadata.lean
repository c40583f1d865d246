import LispCore.Proofs.Definitions
import LispCore.Proofs.Equality
import LispCore.Proofs.Kinds
import LispCore.Proofs.Literals
import LispCore.Proofs.Residue
import Mathlib.Algebra.Group.Nat.Defs

/-! # The metadata that a definition leaves

A definition replaces the metadata of its var. What it leaves has the keys of the symbol's own metadata and those that
every definition adds, and each entry is made by this definition: line, file and docstring are the context's and the
form's, and what stands under another key is the value of the symbol's form there. For literal and for quoted forms
that is the data itself, whatever the world and the engine. -/

namespace LispCore

/-! ### Tables with related values -/

namespace Table
variable {κ α β γ : Type} {R : α → β → Prop} {S : β → γ → Prop}

/-- The same keys in the same order, with related values. -/
def Related (R : α → β → Prop) (t : Table κ α) (t' : Table κ β) : Prop :=
  List.Forall₂ (fun e e' => e.1 = e'.1 ∧ R e.2 e'.2) t t'

theorem Related.comp {t : Table κ α} {t' : Table κ β} {t'' : Table κ γ} (h : Related R t t') (h' : Related S t' t'') :
    Related (fun a c => ∃ b, R a b ∧ S b c) t t'' := by
  induction h generalizing t'' with
  | nil =>
    cases h'
    exact .nil
  | cons hfirst _ ih =>
    cases h' with
    | cons hfirst' hrest' => exact .cons ⟨hfirst.1.trans hfirst'.1, _, hfirst.2, hfirst'.2⟩ (ih hrest')

variable [BEq κ]

theorem Related.get? {t : Table κ α} {t' : Table κ β} (h : Related R t t') (k : κ) :
    (Table.get? t k = none ∧ Table.get? t' k = none) ∨
      ∃ a b, Table.get? t k = some a ∧ Table.get? t' k = some b ∧ R a b := by
  induction h with
  | nil => exact .inl ⟨rfl, rfl⟩
  | @cons e e' _ _ hfirst _ ih =>
    rw [get?_cons, get?_cons, ← hfirst.1]
    split
    · exact .inr ⟨e.2, e'.2, rfl, rfl, hfirst.2⟩
    · exact ih

/-- Entries under other keys do not matter to a lookup. -/
theorem get?_filter {t : Table κ α} {p : κ × α → Bool} {k : κ} (h : ∀ e ∈ t, (k == e.1) = true → p e = true) :
    get? (t.filter p) k = get? t k := by
  induction t with
  | nil => rfl
  | cons e rest ih =>
    obtain ⟨he, hrest⟩ := List.forall_mem_cons.mp h
    rw [get?_cons]
    by_cases hk : (k == e.1) = true
    · rw [List.filter_cons_of_pos (he hk), get?_cons, if_pos hk, if_pos hk]
    · rw [if_neg hk, ← ih hrest]
      cases hp : p e with
      | true => rw [List.filter_cons_of_pos hp, get?_cons, if_neg hk]
      | false => rw [List.filter_cons_of_neg (by simp [hp])]

theorem contains_reverse (t : Table κ α) (k : κ) : contains t.reverse k = contains t k := by
  induction t with
  | nil => rfl
  | cons e rest ih =>
    unfold contains at ih ⊢
    rw [List.reverse_cons, get?_append, Option.isSome_or, ih, get?_cons, get?_cons]
    cases k == e.1 <;> simp [get?]

end Table

/-! ### Analysis and evaluation of metadata -/

/-- There are states in which the form is analysed and its node then has the value. -/
def Form.HasValue (ctx : Context) (order : DefOrder) (form : Form) (value : Value) : Prop :=
  ∃ e u u' w w', analyze ctx form u = .ok e u' ∧ e.bareIn order w = .ok value w'

/-- Data has no other value than its own. -/
theorem Form.Means.eq_of_hasValue {source data : Form} (h : source.Means data) {ctx : Context} {order : DefOrder}
    {value : Value} (hvalue : source.HasValue ctx order value) : data.toValue = .ok value := by
  obtain ⟨e, u, u', w, w', hanalyze, hrun⟩ := hvalue
  rcases h ctx u with ⟨e', hok, hdata⟩ | ⟨err, herr, -⟩
  · rw [hanalyze] at hok
    cases hok
    exact ((hdata.gives _ order w).1 value).mp ⟨w', hrun⟩
  · rw [hanalyze] at herr
    cases herr

theorem analyzeTarget_symbol (ctx : Context) (own : Table Key Value) (sym : Symbol) (span : Span) :
    analyzeTarget ctx own (.symbol sym span) = analyzeTags ctx own (sym.metadata.getD []) := by
  obtain ⟨ns, name, metadata⟩ := sym
  cases metadata <;> simp only [analyzeTarget, analyzeTags, Option.getD_none, Option.getD_some]

theorem related_of_analyzeTags {ctx : Context} {own : Table Key Value} {entries : List (Key × Form)}
    {tags : List (Key × Expr)} {w w' : World} (h : analyzeTags ctx own entries w = .ok tags w') :
    Table.Related (fun form e => ∃ u u', analyze ctx form u = .ok e u')
      (entries.filter fun e => !Table.contains own e.1) tags := by
  induction entries generalizing tags w with
  | nil =>
    simp only [analyzeTags] at h
    cases h
    exact .nil
  | cons entry rest ih =>
    obtain ⟨k, form⟩ := entry
    rw [analyzeTags] at h
    split at h
    · next hown =>
      rw [List.filter_cons_of_neg (by simp [hown])]
      exact ih h
    · next hown =>
      obtain ⟨e, w₁, he, h⟩ := Exec.bind_eq_ok h
      obtain ⟨others, w₂, hothers, h⟩ := Exec.bind_eq_ok h
      cases h
      rw [List.filter_cons_of_pos (by simp [hown])]
      exact .cons ⟨rfl, w, w₁, he⟩ (ih hothers)

namespace Expr
variable {blame : SourcePos → Error → Error} {order : DefOrder}

theorem related_of_evalTags {tags : List (Key × Expr)} {values : List (Key × Value)} {w w' : World}
    (h : evalTags blame order tags w = .ok values w') :
    Table.Related (fun e value => ∃ u u', e.evalWith blame order u = .ok value u') tags values := by
  induction tags generalizing values w with
  | nil =>
    simp only [evalTags] at h
    cases h
    exact .nil
  | cons tag rest ih =>
    simp only [evalTags] at h
    obtain ⟨value, w₁, hvalue, h⟩ := Exec.bind_eq_ok h
    obtain ⟨others, w₂, hothers, h⟩ := Exec.bind_eq_ok h
    cases h
    exact .cons ⟨rfl, w, w₁, hvalue⟩ (ih hothers)

theorem evalTags_append (tags tags' : List (Key × Expr)) : evalTags blame order (tags ++ tags') = (do
    let values ← evalTags blame order tags
    let values' ← evalTags blame order tags'
    return values ++ values') := by
  induction tags with
  | nil => simp only [List.nil_append, evalTags, pure_bind, bind_pure]
  | cons tag rest ih => simp only [List.cons_append, evalTags, ih, bind_assoc, pure_bind]

theorem evalTags_const (own : Table Key Value) :
    evalTags blame order (own.map fun t => (t.1, Expr.const t.2)) = pure own := by
  induction own with
  | nil => simp only [List.map_nil, evalTags]
  | cons t rest ih => simp only [List.map_cons, evalTags, evalWith, ih, pure_bind]

/-- The metadata of a definition: the values of the expressions, and what the definition adds. -/
theorem related_of_metadataIn {tags : List (Key × Expr)} {own metadata : Table Key Value} {w w' : World}
    (h : metadataIn order (tags ++ own.map fun t => (t.1, .const t.2)) w = .ok metadata w') : ∃ values,
      metadata = Table.ofList (values ++ own) ∧
        Table.Related (fun e value => ∃ u u', e.bareIn order u = .ok value u') tags values := by
  obtain ⟨all, hall, rfl⟩ := Exec.map_eq_ok h
  rw [evalTags_append, evalTags_const] at hall
  obtain ⟨values, w₁, hvalues, hall⟩ := Exec.bind_eq_ok hall
  cases hall
  exact ⟨values, rfl, related_of_evalTags hvalues⟩

/-- A definition leaves the metadata that it has computed, if it is not defined again after that. -/
theorem metadata_of_define {target : Var} {dynamic : Bool} {tags : List (Key × Expr)} {init : Option Expr}
    {pos : SourcePos} {w w' : World} {value : Value}
    (h : (Expr.define target dynamic tags init pos).bareIn order w = .ok value w')
    (honce : order = .tagsFirst → ∀ e ∈ init, e.Avoids target) : value = .var target ∧
      ∃ u u', metadataIn order tags u = .ok (w'.cell target).metadata u' := by
  rw [bareIn_define] at h
  refine ⟨returns_runDefinition target dynamic _ _ w value w' h, ?_⟩
  cases order with
  | initFirst => exact metadata_of_initFirst h
  | tagsFirst => exact metadata_of_tagsFirst (evalInit_keeps_metadata (honce rfl) _) h

/-- However a node is run, it succeeds as it does with errors as they are raised, but for the log. -/
theorem runNode_eq_ok_iff (options : Options) (engine : Engine) (span : Span) (e : Expr) (w : World) : ∃ log,
    ∀ value w', runNode options engine span e w = .ok value w' ↔
      e.bareIn engine.order { w with log } = .ok value w' := by
  cases engine with
  | direct => exact ⟨w.log, fun value w' => evalWith_eq_ok_iff Error.rootCause_locate⟩
  | machine =>
    simp only [runNode, compileTopLevel, bind_assoc, pure_bind, run_toChunk]
    exact ⟨_, fun value w' => Iff.trans ⟨Exec.adapt_eq_ok, Exec.adapt_of_ok _⟩
      (evalWith_eq_ok_iff (rootCause_blameIn options.sourcePath))⟩

end Expr

/-! ### Earlier metadata -/

namespace World.AlikeBut
variable {X D : Var → Prop} {w w' : World}

/-- Metadata stored on both sides is the same from then on. -/
theorem setMetadata (h : w.AlikeBut X D w') (v : Var) (metadata : Table Key Value) :
    (w.setMetadata v metadata).AlikeBut (fun u => X u ∧ u ≠ v) D (w'.setMetadata v metadata) := by
  refine ⟨h.frame, fun u => ?_, fun u => ?_, fun u hu => ?_, fun u hu => ?_⟩
  · rw [root_setMetadata, root_setMetadata, h.root]
  · rw [dynamic_setMetadata, dynamic_setMetadata, h.dynamic]
  · rw [metadata_setMetadata, metadata_setMetadata]
    split
    · rfl
    · next huv => exact h.metadata u fun hX => hu ⟨hX, huv⟩
  · rw [dynamic_setMetadata, h.flagged u hu]

theorem markDynamic (h : w.AlikeBut X D w') (v : Var) (dynamic : Bool) :
    (w.markDynamic v dynamic).AlikeBut X D (w'.markDynamic v dynamic) := by
  refine ⟨?_, fun u => ?_, fun u => ?_, fun u hu => ?_, fun u hu => ?_⟩
  · cases dynamic <;> exact h.frame
  · rw [root_markDynamic, root_markDynamic, h.root]
  · rw [dynamic_markDynamic, dynamic_markDynamic, h.dynamic]
  · rw [metadata_markDynamic, metadata_markDynamic, h.metadata u hu]
  · rw [dynamic_markDynamic, h.flagged u hu, Bool.or_true]

theorem mono {Y : Var → Prop} (h : w.AlikeBut X D w') (hXY : ∀ v, X v → Y v) : w.AlikeBut Y D w' :=
  { h with metadata := fun v hv => h.metadata v fun hX => hv (hXY v hX) }

end World.AlikeBut

section Earlier
variable (X D : Var → Prop) (order : DefOrder)

theorem couples_self : Expr.Respects fun _ x y =>
    Exec.Couples (World.AlikeBut X D) (World.AlikeBut X D) FailAlike x y where
  toCongruence := Exec.Couples.congruence _ _
  deref := couples_deref X D
  apply := couples_apply X D
  enter := couples_enterMonitor X D
  mapOf _ := couples_ofExcept X D _

/-- A node runs alike in worlds that differ in metadata only. -/
theorem couples_bareIn_self (e : Expr) :
    Exec.Couples (World.AlikeBut X D) (World.AlikeBut X D) FailAlike (e.bareIn order) (e.bareIn order) := by
  have hC := couples_self X D
  refine (Expr.every_of_forall (P := fun _ => True) (fun _ => trivial) e).evalWith_congr hC ?_ ?_
  · rintro - - pos - x y hxy
    rwa [Exec.adapt_id, Exec.adapt_id]
  · intro target dynamic tags init pos _ htags hinit
    refine Expr.runDefinition_congr hC.toCongruence (fun value => ?_) (fun metadata => ?_) ?_
      (hC.toCongruence.map _ htags) hinit
    · exact .update fun w w' h => h.bindRoot target value
    · exact .update fun w w' h => (h.setMetadata target metadata).mono fun v hv => hv.1
    · exact .update fun w w' h => h.markDynamic target dynamic

/-- A definition takes away what differs in the metadata of its var. -/
theorem couples_define_self (target : Var) (dynamic : Bool) (tags : List (Key × Expr)) (init : Option Expr)
    (pos : SourcePos) : Exec.Couples (World.AlikeBut X D) (World.AlikeBut (fun v => X v ∧ v ≠ target) D) FailAlike
      ((Expr.define target dynamic tags init pos).bareIn order)
      ((Expr.define target dynamic tags init pos).bareIn order) := by
  have htags : Exec.Couples (World.AlikeBut X D) (World.AlikeBut X D) FailAlike (Expr.metadataIn order tags)
      (Expr.metadataIn order tags) := by
    have hC := (couples_self X D).toCongruence
    exact hC.map _ (Expr.evalTags_congr hC fun t _ => couples_bareIn_self X D order t.2)
  have hinit : ∀ Y, Exec.Couples (World.AlikeBut Y D) (World.AlikeBut Y D) FailAlike (Expr.initialIn order init)
      (Expr.initialIn order init) :=
    fun Y => Expr.evalInit_congr (couples_self Y D).toCongruence fun e _ => couples_bareIn_self Y D order e
  have hbind : ∀ Y (value : Option Value), Exec.Couples (World.AlikeBut Y D) (World.AlikeBut Y D) FailAlike
      (modify fun w => value.elim w (w.bindRoot target)) (modify fun w => value.elim w (w.bindRoot target)) := by
    refine fun Y value => .update fun w w' h => ?_
    cases value with
    | none => exact h
    | some value => exact h.bindRoot target value
  rw [Expr.bareIn_define]
  cases order with
  | initFirst =>
    rw [Expr.runDefinition_initFirst]
    refine (hinit X).bind fun value => (hbind X value).bind fun _ => htags.bind fun metadata => ?_
    refine Exec.Couples.bind (.update fun w w' h => h.setMetadata target metadata) fun _ => ?_
    exact Exec.Couples.bind (.update fun w w' h => h.markDynamic target dynamic) fun _ => .pure _ fun _ _ h => h
  | tagsFirst =>
    rw [Expr.runDefinition_tagsFirst]
    refine Exec.Couples.bind (.update fun w w' h => h.markDynamic target dynamic) fun _ => htags.bind fun metadata => ?_
    refine Exec.Couples.bind (.update fun w w' h => h.setMetadata target metadata) fun _ => ?_
    exact (hinit _).bind fun value => (hbind _ value).bind fun _ => .pure _ fun _ _ h => h

/-- A definition that succeeds leaves the same metadata whatever its var had before. -/
theorem metadata_of_earlier {options : Options} {engine : Engine} {span : Span} {target : Var} {dynamic : Bool}
    {tags : List (Key × Expr)} {init : Option Expr} {pos : SourcePos} {w w' : World} {value : Value}
    (h : runNode options engine span (.define target dynamic tags init pos) w = .ok value w')
    (earlier : Table Key Value) : ∃ w'',
      runNode options engine span (.define target dynamic tags init pos) (w.setMetadata target earlier) =
        .ok value w'' ∧ (w''.cell target).metadata = (w'.cell target).metadata := by
  obtain ⟨log, hok⟩ := Expr.runNode_eq_ok_iff options engine span (.define target dynamic tags init pos) w
  obtain ⟨log', hok'⟩ := Expr.runNode_eq_ok_iff options engine span (.define target dynamic tags init pos)
    (w.setMetadata target earlier)
  have halike : World.AlikeBut (· = target) (fun _ => False) { w with log }
      { w.setMetadata target earlier with log := log' } :=
    ⟨rfl, fun u => (w.root_setMetadata target earlier u).symm, fun u => (w.dynamic_setMetadata target earlier u).symm,
      fun u hu => ((w.metadata_setMetadata target earlier u).trans (if_neg hu)).symm, fun _ hu => hu.elim⟩
  have hends := couples_define_self _ _ engine.order target dynamic tags init pos _ _ halike
  rw [(hok value w').mp h] at hends
  obtain ⟨w'', hbare, halike'⟩ := hends.of_ok
  exact ⟨w'', (hok' value w'').mpr hbare, (halike'.metadata target fun hv => hv.2 rfl).symm⟩

end Earlier

/-! ### What a definition leaves -/

/-- The metadata of the symbol as a table: of entries under equal keys the last counts. -/
def Symbol.tags (sym : Symbol) : Table Key Form :=
  Table.ofList (sym.metadata.getD [])

/-- The entries of the symbol's metadata that a definition reads: all but those that it has itself. -/
def Symbol.readTags (ctx : Context) (sym : Symbol) (doc : Option String) : List (Key × Form) :=
  (sym.metadata.getD []).filter fun e => !Table.contains (ctx.ownTags doc) e.1

/-- The metadata that a definition of the symbol leaves. -/
structure Context.Describes (ctx : Context) (sym : Symbol) (doc : Option String) (metadata : Table Key Value) :
    Prop where
  apart : metadata.Pairwise fun e e' => (e.1 == e'.1) = false
  keys : ∀ k, Table.contains metadata k = (Table.contains sym.tags k || (ownKeys doc.isSome).contains k)
  line : ∃ n : Int64, Table.get? metadata (.keyword "line") = some (.int n) ∧ n.toUInt64 = UInt64.ofNat ctx.line ∧
    (ctx.line < 2 ^ 63 → n.toInt = ctx.line)
  file : Table.get? metadata (.keyword "file") = some (.string (ctx.source.getD "NO_SOURCE_FILE"))
  docstring : ∀ text ∈ doc, Table.get? metadata (.keyword "doc") = some (.string text)
  literal : ∀ k form, Table.get? sym.tags k = some form → (ownKeys doc.isSome).contains k = false →
    form.isLiteral = true → ∃ value, form.toValue = .ok value ∧ Table.get? metadata k = some value
  quoted : ∀ k head data span, Table.get? sym.tags k = some (.list [head, data] span) →
    (ownKeys doc.isSome).contains k = false → SpecialForm.quote.Heads head →
    ∃ value, data.toValue = .ok value ∧ Table.get? metadata k = some value

section Describes
variable {ctx : Context} {order : DefOrder} {sym : Symbol} {doc : Option String} {values : Table Key Value}

/-- The definition's own entries come before those of the symbol. -/
theorem get?_own_metadata (ctx : Context) (doc : Option String) (values : Table Key Value) (k : Key) :
    Table.get? (Table.ofList (values ++ ctx.ownTags doc)) k =
      (Table.get? (ctx.ownTags doc).reverse k).or (Table.get? values.reverse k) := by
  rw [Key.beqOn.get?_ofList (fun _ _ => trivial) trivial, List.reverse_append, Table.get?_append]

/-- Under other keys stands the value of the symbol's form. -/
theorem get?_other_metadata
    (h : Table.Related (Form.HasValue ctx order) (sym.readTags ctx doc) values) {k : Key}
    (hk : (ownKeys doc.isSome).contains k = false) :
    let metadata := Table.ofList (values ++ ctx.ownTags doc)
    (Table.get? sym.tags k = none ∧ Table.get? metadata k = none) ∨ ∃ form value,
      Table.get? sym.tags k = some form ∧ Table.get? metadata k = some value ∧ form.HasValue ctx order value := by
  intro metadata
  rw [← contains_ownTags ctx] at hk
  have hown : Table.get? (ctx.ownTags doc).reverse k = none := by
    rwa [← Table.contains_reverse, Table.contains, Option.isSome_eq_false_iff, Option.isNone_iff_eq_none] at hk
  have hmetadata : Table.get? metadata k = Table.get? values.reverse k := by
    rw [get?_own_metadata, hown, Option.none_or]
  have htags : Table.get? sym.tags k = Table.get? (sym.readTags ctx doc).reverse k := by
    rw [Symbol.tags, Symbol.readTags, Key.beqOn.get?_ofList (fun _ _ => trivial) trivial, ← List.filter_reverse,
      Table.get?_filter]
    intro e _ hke
    rw [Bool.not_eq_true', ← hk, Table.contains, Table.contains,
      Key.beqOn.get?_congr (fun _ _ => trivial) trivial trivial hke]
  rw [hmetadata, htags]
  exact Table.Related.get? (List.rel_reverse h) k

theorem Context.describes_of_related
    (h : Table.Related (Form.HasValue ctx order) (sym.readTags ctx doc) values) :
    ctx.Describes sym doc (Table.ofList (values ++ ctx.ownTags doc)) := by
  have hdata : ∀ {k source data}, Table.get? sym.tags k = some source → (ownKeys doc.isSome).contains k = false →
      source.Means data → ∃ value, data.toValue = .ok value ∧
        Table.get? (Table.ofList (values ++ ctx.ownTags doc)) k = some value := by
    intro k source data hsource hk hmeans
    rcases get?_other_metadata h hk with ⟨hnone, -⟩ | ⟨form, value, hform, hvalue, hhas⟩
    · rw [hnone] at hsource
      cases hsource
    · rw [hform] at hsource
      cases hsource
      exact ⟨value, hmeans.eq_of_hasValue hhas, hvalue⟩
  refine {
    apart := Key.beqOn.pairwise_ofList fun _ _ => trivial
    keys := fun k => ?_
    line := ?_
    file := ?_
    docstring := ?_
    literal := fun k form hform hk hliteral => hdata hform hk (Form.means_self hliteral)
    quoted := fun k head data span hform hk hhead => hdata hform hk (Form.means_quoted hhead data span) }
  · cases hk : (ownKeys doc.isSome).contains k with
    | true =>
      rw [← contains_ownTags ctx, ← Table.contains_reverse, Table.contains] at hk
      rw [Table.contains, get?_own_metadata, Option.isSome_or, hk, Bool.true_or, Bool.or_true]
    | false =>
      rw [Bool.or_false, Table.contains, Table.contains]
      rcases get?_other_metadata h hk with ⟨hform, hvalue⟩ | ⟨form, value, hform, hvalue, -⟩ <;> rw [hform, hvalue] <;>
        rfl
  · refine ⟨Int64.ofNat ctx.line, ?_, Int64.toUInt64_ofNat', Int64.toInt_ofNat_of_lt⟩
    rw [get?_own_metadata]
    cases doc <;> rfl
  · rw [get?_own_metadata]
    cases doc <;> rfl
  · rintro text ⟨⟩
    rw [get?_own_metadata]
    rfl

/-- The data that a form writes: a literal writes itself, and a quote what it quotes. -/
def Form.written? (form : Form) : Option Form :=
  if form.isLiteral then some form
  else match form with
    | .list [head, data] _ => if SpecialForm.ofHead? head = some .quote then some data else none
    | _ => none

theorem Form.means_of_written? {form data : Form} (h : form.written? = some data) : form.Means data := by
  unfold written? at h
  split at h
  · next hliteral =>
    cases h
    exact means_self hliteral
  · split at h
    · split at h
      · next hhead =>
        cases h
        exact means_quoted (SpecialForm.ofHead?_eq_some_iff.mp hhead) _ _
      · cases h
    · cases h

/-- What a definition of the symbol leaves if all that the symbol brings is written data: it depends on the symbol, the
docstring and the context alone. -/
def Symbol.writtenTags (ctx : Context) (sym : Symbol) (doc : Option String) : Table Key Value :=
  Table.ofList (((sym.readTags ctx doc).filterMap fun e =>
    (e.2.written?.bind fun data => data.toValue.toOption).map fun value => (e.1, value)) ++ ctx.ownTags doc)

theorem eq_of_related_of_written {entries : List (Key × Form)}
    (h : Table.Related (Form.HasValue ctx order) entries values) (hwritten : ∀ e ∈ entries, e.2.written? ≠ none) :
    values = entries.filterMap fun e =>
      (e.2.written?.bind fun data => data.toValue.toOption).map fun value => (e.1, value) := by
  induction h with
  | nil => rfl
  | @cons e e' _ _ hfirst _ ih =>
    obtain ⟨hk, hvalue⟩ := hfirst
    obtain ⟨he, hrest⟩ := List.forall_mem_cons.mp hwritten
    obtain ⟨data, hdata⟩ := Option.ne_none_iff_exists'.mp he
    have hvalue := (Form.means_of_written? hdata).eq_of_hasValue hvalue
    rw [List.filterMap_cons, hdata, Option.bind_some, hvalue, ← ih hrest, hk]
    rfl

end Describes

/-! ### Argument lists -/

theorem Symbol.attachment?_of_quoted {sym : Symbol} {head data : Form} {span : Span}
    (h : sym.tag? "arglists" = some (.list [head, data] span)) (hhead : SpecialForm.quote.Heads head) :
    sym.attachment? = data.toValue.toOption := by
  obtain ⟨metadata, headSpan, rfl⟩ := hhead
  rw [attachment?, arglists?, h]
  rfl

/-- Opening a definition puts its argument lists into the metadata of the var. -/
theorem get?_arglists_of_openDefinition {ctx : Context} {sym : Symbol} {span : Span} {v : Var} {w w' : World}
    (h : openDefinition ctx sym span w = .ok v w') {value : Value} (hvalue : sym.attachment? = some value) :
    Table.get? (w'.cell v).metadata (.keyword "arglists") = some value := by
  obtain ⟨opened, hsyms, hvars, hopens⟩ := (opens_openDefinition ctx sym span).of_ok h
  cases hopens with
  | nil => cases hsyms
  | @cons _ w₁ _ first _ u _ hresolve hrest =>
    cases hrest with
    | cons _ _ => cases hsyms
    | nil =>
      obtain rfl : first = sym := (List.cons.inj hsyms).1
      obtain rfl : u = v := (List.cons.inj hvars).1
      rw [Context.metadata_declared, if_pos rfl, hvalue, Option.elim_some,
        Key.beqOn.get?_insert (fun _ _ => trivial) trivial _ trivial]
      rfl

/-! ### Forms that define a symbol -/

/-- The form defines the symbol, with a docstring or without: `(def sym)`, `(def sym init)` or `(def sym doc init)`. -/
inductive Form.Defines (sym : Symbol) : Option String → Form → Prop where
  | declare {head symSpan span} : SpecialForm.define.Heads head →
      Defines sym none (.list [head, .symbol sym symSpan] span)
  | define {head symSpan init span} : SpecialForm.define.Heads head →
      Defines sym none (.list [head, .symbol sym symSpan, init] span)
  | document {head symSpan doc docSpan init span} : SpecialForm.define.Heads head →
      Defines sym (some doc) (.list [head, .symbol sym symSpan, .string doc docSpan, init] span)

theorem Form.Defines.node_eq {sym : Symbol} {doc : Option String} {form : Form} (h : form.Defines sym doc)
    {ctx : Context} {e : Expr} {w w' : World} (hnode : analyze ctx form w = .ok e w') : ∃ span v w₁ tags w₂ init,
      openDefinition ctx sym span w = .ok v w₁ ∧
      analyzeTags ctx (ctx.ownTags doc) (sym.metadata.getD []) w₁ = .ok tags w₂ ∧
      e = .define v sym.declaresDynamic (tags ++ (ctx.ownTags doc).map fun t => (t.1, .const t.2)) init ctx.pos := by
  have hdefinition : ∀ {span init}, analyzeDefinition ctx (ctx.ownTags doc) (.symbol sym span)
      (analyzeTarget ctx (ctx.ownTags doc) (.symbol sym span)) init w = .ok e w' → ∃ span v w₁ tags w₂ init,
      openDefinition ctx sym span w = .ok v w₁ ∧
      analyzeTags ctx (ctx.ownTags doc) (sym.metadata.getD []) w₁ = .ok tags w₂ ∧
      e = .define v sym.declaresDynamic (tags ++ (ctx.ownTags doc).map fun t => (t.1, .const t.2)) init ctx.pos := by
    intro span init hok
    obtain ⟨v, w₁, tags, w₂, initial, hopen, htags, -, rfl⟩ := analyzeDefinition_eq_ok hok
    rw [analyzeTarget_symbol] at htags
    exact ⟨span, v, w₁, tags, w₂, initial, hopen, htags, rfl⟩
  cases h with
  | declare hhead | define hhead | document hhead =>
    simp only [analyze, SpecialForm.ofHead?_eq_some_iff.mpr hhead, analyzeDef] at hnode
    exact hdefinition hnode

/-! ### Main result -/

/-- A definition that succeeds, in whatever state and with either engine, has replaced the metadata of the var that it
returns; compiled code at least if its initial value does not define the var again. What is left has just the keys
of the symbol's metadata and those of line, file and docstring, which come before the symbol's own, and nothing in it
is older than the definition. Literal and quoted entries are left as data, and quoted argument lists, unless the symbol
has two of them, as analysis had attached them. If there are no others, it depends on the symbol, the docstring and the
context alone. The native functions that are called on the way are given their arguments and the host only: none of them
reads or writes metadata. -/
theorem definition_leaves_metadata {ctx : Context} {form : Form} {sym : Symbol} {doc : Option String}
    (hform : form.Defines sym doc) {e : Expr} {w₀ w₁ : World} (h : analyze ctx form w₀ = .ok e w₁)
    {options : Options} {engine : Engine} {span : Span} {w w' : World} {value : Value}
    (hrun : runNode options engine span e w = .ok value w') (honce : engine = .machine → e.DefinesOnce) :
    ∃ v, value = .var v ∧ ctx.Describes sym doc (w'.cell v).metadata ∧
      (∀ earlier, ∃ w'', runNode options engine span e (w.setMetadata v earlier) = .ok value w'' ∧
        (w''.cell v).metadata = (w'.cell v).metadata) ∧
      (∀ head data quoteSpan, SpecialForm.quote.Heads head →
        sym.tag? "arglists" = some (.list [head, data] quoteSpan) →
        Table.get? sym.tags (.keyword "arglists") = sym.tag? "arglists" → ∃ arglists symSpan w₂,
          data.toValue = .ok arglists ∧ Table.get? (w'.cell v).metadata (.keyword "arglists") = some arglists ∧
          openDefinition ctx sym symSpan w₀ = .ok v w₂ ∧
          Table.get? (w₂.cell v).metadata (.keyword "arglists") = some arglists) ∧
      ((∀ t ∈ sym.metadata.getD [], (ownKeys doc.isSome).contains t.1 = false → t.2.written? ≠ none) →
        (w'.cell v).metadata = sym.writtenTags ctx doc) := by
  obtain ⟨symSpan, v, w₂, tags, w₃, init, hopen, htags, rfl⟩ := hform.node_eq h
  obtain ⟨log, hok⟩ := Expr.runNode_eq_ok_iff options engine span _ w
  have hbare := (hok value w').mp hrun
  have honce : engine.order = .tagsFirst → ∀ i ∈ init, i.Avoids v := by
    cases engine with
    | direct => rintro ⟨⟩
    | machine => exact fun _ => honce rfl
  obtain ⟨hvalue, u, u', hmetadata⟩ := Expr.metadata_of_define hbare honce
  obtain ⟨values, hleft, hvalues⟩ := Expr.related_of_metadataIn hmetadata
  have hrelated : Table.Related (Form.HasValue ctx engine.order) (sym.readTags ctx doc) values := by
    refine ((related_of_analyzeTags htags).comp hvalues).imp ?_
    rintro e e' ⟨hk, node, ⟨t, t', hnode⟩, s, s', hvalue⟩
    exact ⟨hk, node, t, t', s, s', hnode, hvalue⟩
  have hdescribes := Context.describes_of_related hrelated
  rw [← hleft] at hdescribes
  refine ⟨v, hvalue, hdescribes, metadata_of_earlier hrun, fun head data quoteSpan hhead harglists htag => ?_,
    fun hwritten => ?_⟩
  · have hother : (ownKeys doc.isSome).contains (.keyword "arglists") = false := by cases doc <;> rfl
    obtain ⟨arglists, hdata, hget⟩ := hdescribes.quoted _ head data quoteSpan (htag.trans harglists) hother hhead
    have hattached : sym.attachment? = some arglists := by
      rw [Symbol.attachment?_of_quoted harglists hhead, hdata]
      rfl
    exact ⟨arglists, symSpan, w₂, hdata, hget, hopen, get?_arglists_of_openDefinition hopen hattached⟩
  · rw [hleft, Symbol.writtenTags, ← eq_of_related_of_written hrelated]
    intro t ht
    obtain ⟨ht, hother⟩ := List.mem_filter.mp ht
    refine hwritten t ht ?_
    rwa [Bool.not_eq_true', contains_ownTags] at hother

/-- A definition with a line of the symbol's own, which is not taken, a vector and quoted argument lists. -/
theorem definition_leaves_metadata_written :
    let arglists : Form := .list [.vector [.symbol (.unqualified "x")]]
    let sym : Symbol := ⟨none, "s", some [(.keyword "k", .vector [.int 1]), (.keyword "line", .nil),
      (.keyword "arglists", arglists.quote)]⟩
    let form : Form := .list [.symbol (.unqualified "def"), .symbol sym, .string "text", .int 5]
    let ctx : Context := { ns := "user", source := some "a.lsp", line := 7 }
    ∃ e w₁ v w', analyze ctx form (World.start {} .watching) = .ok e w₁ ∧
      runNode {} .machine {} e w₁ = .ok (.var v) w' ∧
      (w'.cell v).metadata = [(.keyword "k", .vector [.int 1]),
        (.keyword "arglists", .list [.vector [.symbol (.unqualified "x")]]), (.keyword "line", .int 7),
        (.keyword "file", .string "a.lsp"), (.keyword "doc", .string "text")] := by
  intro arglists sym form ctx
  have hform : form.Defines sym (some "text") := .document ⟨none, {}, rfl⟩
  have hwritten : ∀ t ∈ sym.metadata.getD [], t.2.written?.isSome = true := by
    simp only [sym, Option.getD_some, List.forall_mem_cons, List.not_mem_nil, false_imp_iff, implies_true, and_true]
    exact ⟨rfl, rfl, rfl⟩
  obtain ⟨u, dynamic, tags, pos, w₁, h⟩ : ∃ u dynamic tags pos w₁, analyze ctx form (World.start {} .watching) =
      .ok (.define u dynamic tags (some (.const (.int 5))) pos) w₁ := by
    dsimp only [form, sym, arglists, ctx]
    exact ⟨_, _, _, _, _, rfl⟩
  have hok : Exec.okWith (fun _ _ => true)
      ((analyze ctx form >>= runNode {} .machine {}) (World.start {} .watching)) = true := by
    decide +kernel
  rw [Exec.bind_of_ok h] at hok
  obtain ⟨value, w', hrun, -⟩ := Exec.exists_of_okWith hok
  have honce : ∀ e ∈ some (Expr.const (.int 5)), e.Avoids u := by
    rintro _ ⟨⟩
    exact .const nofun
  obtain ⟨v, rfl, -, -, -, hleft⟩ := definition_leaves_metadata hform h hrun fun _ => honce
  refine ⟨_, w₁, v, w', h, hrun, (hleft fun t ht _ => Option.isSome_iff_ne_none.mp (hwritten t ht)).trans ?_⟩
  rfl

end LispCore
