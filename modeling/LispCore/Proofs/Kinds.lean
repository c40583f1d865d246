import LispCore.Session
import LispCore.Proofs.Emission
import LispCore.Proofs.Inert

/-! # Kinds known in advance

The shape of a form often shows of what kind its value will be (`Form.knownKind?`), and analysis keeps just that in
the node (`staticKind?_analyze`). What a node knows is right: whichever engine runs it, in whatever world, every value
that it yields is of that kind (`Expr.returns_staticKind?`). -/

namespace LispCore

/-! ### The values of computations -/

namespace Exec
variable {α β : Type} {P : α → Prop} {Q : β → Prop}

/-- Every value that the run ends with satisfies `P`. -/
def Returns (P : α → Prop) (x : Exec α) : Prop :=
  ∀ w a w', x w = .ok a w' → P a

theorem Returns.pure {a : α} (h : P a) : Returns P (Pure.pure a) := by
  rintro w _ _ ⟨⟩
  exact h

theorem Returns.bind {x : Exec α} {f : α → Exec β} (hx : Returns P x) (hf : ∀ a, P a → Returns Q (f a)) :
    Returns Q (x >>= f) := by
  intro w b w' h
  obtain ⟨a, w₁, ha, hb⟩ := bind_eq_ok h
  exact hf a (hx w a w₁ ha) w₁ b w' hb

/-- The value is that of the last part. -/
theorem Returns.last {x : Exec α} {f : α → Exec β} (hf : ∀ a, Returns Q (f a)) : Returns Q (x >>= f) :=
  Returns.bind (P := fun _ => True) (fun _ _ _ _ => trivial) fun a _ => hf a

theorem Returns.adapt {x : Exec α} (h : Returns P x) (f : Error → Error) : Returns P (Exec.adapt f x) :=
  fun w a w' ha => h w a w' (adapt_eq_ok ha)

theorem returns_fail (ctx : Context) (span : Span) (fault : Fault) : Returns P (ctx.fail span fault) := by
  rintro w a w' ⟨⟩

end Exec

/-! ### What a form shows -/

/-- The kind of the value that the form is as data. -/
def Form.dataKind : Form → ValueKind
  | .nil _ => .nil
  | .bool _ _ => .bool
  | .int _ _ => .int
  | .float _ _ => .float
  | .string _ _ => .string
  | .keyword _ _ => .keyword
  | .symbol _ _ => .symbol
  | .list _ _ => .list
  | .vector _ _ => .vector
  | .map _ _ => .map
  | .set _ _ => .set

theorem Form.kind_toValue {form : Form} {value : Value} (h : form.toValue = .ok value) :
    value.kind = form.dataKind := by
  cases form with
  | list items _ | vector items _ | set items _ =>
    simp only [toValue] at h
    cases hitems : toValues items with
    | error failure => rw [hitems] at h; cases h
    | ok values => rw [hitems] at h; cases h; rfl
  | map entries _ =>
    simp only [toValue] at h
    cases hentries : toEntries entries with
    | error failure => rw [hentries] at h; cases h
    | ok values => rw [hentries] at h; cases h; rfl
  | _ => cases h; rfl

mutual

/-- The kind of the form's value, where its shape shows it: neither names nor calls do, nor does entering a
monitor. -/
def Form.knownKind? : Form → Option ValueKind
  | .symbol _ _ => none
  | .list (head :: args) _ =>
    match SpecialForm.ofHead? head with
    | some .define => some .var
    | some .quote => args.head?.map Form.dataKind
    | some .body => Form.lastKnownKind? args
    | some .enter | none => none
  | form => some form.dataKind

def Form.lastKnownKind? : List Form → Option ValueKind
  | [] => some .nil
  | [form] => form.knownKind?
  | _ :: form :: rest => Form.lastKnownKind? (form :: rest)

end

/-! ### What a node knows -/

theorem Expr.staticKind?_ofLiteral (value : Value) : (Expr.ofLiteral value).staticKind? = some value.kind := by
  unfold ofLiteral
  split
  · next kind hkind _ => cases value <;> cases hkind <;> rfl
  · rfl

theorem Expr.lastKind?_cons (e : Expr) {es : List Expr} (h : es ≠ []) :
    Expr.lastKind? (e :: es) = Expr.lastKind? es := by
  obtain ⟨d, rest, rfl⟩ := List.exists_cons_of_ne_nil h
  rfl

section Analysis
variable {ctx : Context}

theorem staticKind?_analyzeDefinition (own : Table Key Value) (target : Form) (tags : Exec (List (Key × Expr)))
    (init : Exec (Option Expr)) :
    Exec.Returns (fun e => e.staticKind? = some .var) (analyzeDefinition ctx own target tags init) := by
  cases target with
  | symbol sym span =>
    intro w e w' h
    obtain ⟨v, _, _, _, _, -, -, -, rfl⟩ := analyzeDefinition_eq_ok h
    rfl
  | _ => exact Exec.returns_fail _ _ _

theorem staticKind?_analyzeDef (span : Span) (args : List Form) :
    Exec.Returns (fun e => e.staticKind? = some .var) (analyzeDef ctx span args) := by
  unfold analyzeDef
  split
  · exact staticKind?_analyzeDefinition _ _ _ _
  · exact staticKind?_analyzeDefinition _ _ _ _
  · exact staticKind?_analyzeDefinition _ _ _ _
  · exact Exec.returns_fail _ _ _
  · exact Exec.returns_fail _ _ _

theorem staticKind?_analyzeEnter (span : Span) (args : List Form) :
    Exec.Returns (fun e => e.staticKind? = none) (analyzeEnter ctx span args) := by
  unfold analyzeEnter
  split
  · exact .last fun target => .pure rfl
  · exact Exec.returns_fail _ _ _

theorem staticKind?_analyzeQuote (span : Span) (args : List Form) :
    Exec.Returns (fun e => e.staticKind? = args.head?.map Form.dataKind) (analyzeQuote ctx span args) := by
  intro w e w' h
  match args with
  | [data] =>
    obtain ⟨value, hvalue, rfl⟩ := analyzeQuote_eq_ok h
    rw [Expr.staticKind?_ofLiteral, Form.kind_toValue hvalue]
    rfl
  | [] | _ :: _ :: _ => cases h

theorem staticKind?_analyzeSymbol (sym : Symbol) (span : Span) :
    Exec.Returns (fun e => e.staticKind? = none) (analyzeSymbol ctx sym span) := by
  refine .last fun found => ?_
  cases found with
  | none => exact Exec.returns_fail _ _ _
  | some v => exact .pure rfl

mutual

/-- Analysis knows of a node just what the form shows. -/
theorem staticKind?_analyze : ∀ form : Form,
    Exec.Returns (fun e => e.staticKind? = form.knownKind?) (analyze ctx form)
  | .nil _ | .bool _ _ | .int _ _ | .float _ _ | .string _ _ | .keyword _ _ | .list [] _ | .vector [] _ | .set [] _
  | .map [] _ => by
    simp only [analyze]
    exact .pure rfl
  | .symbol sym span => by
    simp only [analyze, Form.knownKind?]
    exact staticKind?_analyzeSymbol sym span
  | .list (head :: args) span => by
    cases hhead : SpecialForm.ofHead? head with
    | none =>
      simp only [analyze, Form.knownKind?, hhead]
      exact .last fun callee => .last fun es => .pure (by rfl)
    | some special =>
      cases special <;> simp only [analyze, Form.knownKind?, hhead]
      · exact staticKind?_analyzeDef span args
      · exact staticKind?_analyzeEnter span args
      · exact staticKind?_analyzeQuote span args
      · refine (staticKind?_analyzeAll args).bind fun es hes => .pure ?_
        exact hes.2
  | .vector (_ :: _) _ | .set (_ :: _) _ => by
    simp only [analyze, Form.knownKind?]
    exact .last fun first => .last fun rest => .pure rfl
  | .map ((_, _) :: _) _ => by
    simp only [analyze, Form.knownKind?]
    exact .last fun key => .last fun value => .last fun rest => .pure rfl

theorem staticKind?_analyzeAll : ∀ forms : List Form,
    Exec.Returns (fun es => (es = [] ↔ forms = []) ∧ Expr.lastKind? es = Form.lastKnownKind? forms)
      (analyzeAll ctx forms)
  | [] => by
    rw [analyzeAll]
    exact .pure ⟨by simp, rfl⟩
  | [form] => by
    simp only [analyzeAll, pure_bind]
    exact (staticKind?_analyze form).bind fun e he => .pure ⟨by simp, he⟩
  | form :: form' :: rest => by
    rw [analyzeAll]
    refine .last fun e => (staticKind?_analyzeAll (form' :: rest)).bind fun es hes => .pure ⟨by simp, ?_⟩
    obtain ⟨hnil, hlast⟩ := hes
    rw [Expr.lastKind?_cons e (by simpa using hnil.not), hlast]
    rfl

end

end Analysis

/-! ### What a node yields -/

namespace Expr
variable {blame : SourcePos → Error → Error} {order : DefOrder}

theorem returns_runDefinition (target : Var) (dynamic : Bool) (tags : Exec (Table Key Value))
    (init : Exec (Option Value)) : Exec.Returns (fun value => value = .var target)
      (runDefinition order target dynamic tags init) := by
  cases order with
  | initFirst =>
    rw [runDefinition_initFirst]
    exact .last fun _ => .last fun _ => .last fun _ => .last fun _ => .last fun _ => .pure rfl
  | tagsFirst =>
    rw [runDefinition_tagsFirst]
    exact .last fun _ => .last fun _ => .last fun _ => .last fun _ => .last fun _ => .pure rfl

theorem returns_evalBody {kind : ValueKind} : ∀ {exprs : List Expr}, lastKind? exprs = some kind →
    (∀ e ∈ exprs, e.staticKind? = some kind → Exec.Returns (·.kind = kind) (e.evalWith blame order)) →
    Exec.Returns (·.kind = kind) (evalBody blame order exprs)
  | [], hkind, _ => by
    cases hkind
    exact .pure rfl
  | [e], hkind, h => by
    simp only [evalBody]
    exact h e List.mem_cons_self hkind
  | e :: e' :: rest, hkind, h => by
    simp only [evalBody]
    exact .last fun _ => returns_evalBody hkind fun d hd => h d (List.mem_cons_of_mem e hd)

/-- However a node is run, a value that it yields is of the kind that the node knows. -/
theorem returns_staticKind? {e : Expr} {kind : ValueKind} (h : e.staticKind? = some kind) :
    Exec.Returns (·.kind = kind) (e.evalWith blame order) := by
  induction e using nodeInduction with
  | define target dynamic tags init pos =>
    cases h
    rw [evalWith_define]
    refine Exec.Returns.adapt (fun w value w' hvalue => ?_) _
    rw [returns_runDefinition target dynamic _ _ w value w' hvalue]
    rfl
  | empty kind =>
    cases h
    simp only [evalWith]
    refine .pure ?_
    cases kind <;> rfl
  | const value =>
    cases h
    simp only [evalWith]
    exact .pure rfl
  | vector items =>
    cases h
    simp only [evalWith]
    exact .last fun values => .pure rfl
  | set items =>
    cases h
    simp only [evalWith]
    exact .last fun values => .pure rfl
  | map entries =>
    cases h
    simp only [evalWith]
    exact .last fun values => .last fun table => .pure rfl
  | body exprs ih =>
    simp only [evalWith]
    exact returns_evalBody h ih
  -- of these nothing is known
  | enter target | ref v | invoke callee args pos => cases h

theorem returns_run_toChunk {P : Value → Prop} {e : Expr}
    (h : ∀ blame order, Exec.Returns P (e.evalWith blame order)) (source : String) (span : Span) :
    Exec.Returns P (e.toChunk source span).run := by
  rw [run_toChunk]
  exact .last fun _ => (h _ _).adapt _

end Expr

/-! ### Main result -/

/-- The node of a form knows the kind that the form shows, and it is right, as is every node in it: whenever a node
that knows a kind yields a value, run directly or compiled, the value is of that kind. -/
theorem static_kinds_sound {ctx : Context} {form : Form} {e : Expr} {w₀ w₁ : World}
    (h : analyze ctx form w₀ = .ok e w₁) :
    e.staticKind? = form.knownKind? ∧
    e.Every fun d => ∀ kind, d.staticKind? = some kind →
      (∀ w value w', d.eval w = .ok value w' → value.kind = kind) ∧
      ∀ source span w value w', (d.toChunk source span).run w = .ok value w' → value.kind = kind := by
  refine ⟨staticKind?_analyze form w₀ e w₁ h, Expr.every_of_forall (fun d kind hkind => ?_) e⟩
  have hreturns : ∀ blame order, Exec.Returns (·.kind = kind) (d.evalWith blame order) :=
    fun blame order => Expr.returns_staticKind? hkind
  exact ⟨hreturns _ _, fun source span => Expr.returns_run_toChunk hreturns source span⟩

/-- The kind of a body is that of its last form, here a vector with the value of a name that the body defines. -/
theorem static_kinds_sound_body :
    let x : Form := .symbol (.unqualified "x")
    let form : Form := .list [.symbol (.unqualified "do"), .list [.symbol (.unqualified "def"), x, .int 1], .vector [x]]
    ∃ e w₁, analyze { ns := "user" } form (World.start {} .watching) = .ok e w₁ ∧ e.staticKind? = some .vector ∧
      (∃ value w', e.eval w₁ = .ok value w' ∧ value.kind = .vector) ∧
      ∃ value w', (e.toChunk "a.lsp" {}).run w₁ = .ok value w' ∧ value.kind = .vector := by
  intro x form
  obtain ⟨e, w₁, h⟩ : ∃ e w₁, analyze { ns := "user" } form (World.start {} .watching) = .ok e w₁ := ⟨_, _, rfl⟩
  have hruns : ∀ run : Expr → Exec Value,
      Exec.okWith (fun _ _ => true) ((analyze { ns := "user" } form >>= run) (World.start {} .watching)) = true →
        ∃ value w', run e w₁ = .ok value w' := by
    intro run hok
    rw [Exec.bind_of_ok h] at hok
    obtain ⟨value, w', hvalue, -⟩ := Exec.exists_of_okWith hok
    exact ⟨value, w', hvalue⟩
  obtain ⟨hkind, hevery⟩ := static_kinds_sound h
  obtain ⟨hdirect, hcompiled⟩ := hevery.self .vector hkind
  obtain ⟨value, w', hvalue⟩ := hruns Expr.eval (by decide +kernel)
  obtain ⟨value', w'', hvalue'⟩ := hruns (fun e => (e.toChunk "a.lsp" {}).run) (by decide +kernel)
  exact ⟨e, w₁, h, hkind, ⟨value, w', hvalue, hdirect w₁ value w' hvalue⟩,
    ⟨value', w'', hvalue', hcompiled _ _ w₁ value' w'' hvalue'⟩⟩

end LispCore
