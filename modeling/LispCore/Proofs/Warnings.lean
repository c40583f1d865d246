import LispCore.Proofs.Residue
import Mathlib.Data.String.Basic

/-! # Warnings

Whether analysis warns makes no other difference to it: two analyses of a form, one of which warns, make the same node
or fail with the same error, and leave worlds that are the same once the warnings are taken out (`World.unwarned`). The
one gives no warning. The other gives one for each definition that it came to and could resolve, in the order in which
it came to them, if the name is written like that of a dynamic var and the symbol does not declare it so. -/

namespace LispCore

/-! ### Names between stars -/

theorem Symbol.wearsEarmuffs_iff (text : String) : Symbol.wearsEarmuffs text = true ↔
    1 < text.utf8ByteSize ∧ text.toList.head? = some '*' ∧ text.toList.getLast? = some '*' := by
  rw [← String.utf8Len_toList, wearsEarmuffs]
  cases text.toList with
  | nil => simp
  | cons c rest =>
    by_cases hc : c = '*'
    · subst hc
      cases rest with
      | nil => simp [Char.utf8Size]
      | cons d rest =>
        have hsize : 1 < String.utf8Len rest + d.utf8Size + '*'.utf8Size := by
          have hstar : '*'.utf8Size = 1 := rfl
          have hd := d.utf8Size_pos
          omega
        simp [List.getLast?_cons_cons, hsize]
    · simp [hc]

/-- The name is longer than a byte and stands between stars, and the symbol's own metadata has nothing truthy under
`:dynamic`. -/
def Symbol.Misleading (sym : Symbol) : Prop :=
  1 < sym.name.utf8ByteSize ∧ sym.name.toList.head? = some '*' ∧ sym.name.toList.getLast? = some '*' ∧
    ∀ form ∈ sym.tag? "dynamic", form.isTruthy = false

instance (sym : Symbol) : Decidable sym.Misleading :=
  inferInstanceAs (Decidable (_ ∧ _ ∧ _ ∧ ∀ form ∈ sym.tag? "dynamic", form.isTruthy = false))

theorem Symbol.misleading_iff (sym : Symbol) :
    sym.Misleading ↔ sym.declaresDynamic = false ∧ sym.isEarmuffed = true := by
  have hdynamic : sym.declaresDynamic = false ↔ ∀ form ∈ sym.tag? "dynamic", form.isTruthy = false := by
    rw [declaresDynamic]
    cases sym.tag? "dynamic" <;> simp
  rw [hdynamic, isEarmuffed, wearsEarmuffs_iff, Misleading]
  constructor
  · rintro ⟨hsize, hfirst, hlast, htag⟩
    exact ⟨htag, hsize, hfirst, hlast⟩
  · rintro ⟨htag, hsize, hfirst, hlast⟩
    exact ⟨hsize, hfirst, hlast, htag⟩

/-! ### The world without warnings -/

namespace World

/-- The world as if nobody had been warned. -/
def unwarned (w : World) : World :=
  { w with warnings := [], log := w.log.filter fun r => r.source != .diagnostics }

theorem unwarned_warn (w : World) (warning : Warning) : (w.warn warning).unwarned = w.unwarned := by
  unfold warn
  split <;> simp [unwarned, note, LogRecord.source]

theorem unwarned_intern (w : World) (ns name : String) :
    (w.intern ns name).2.unwarned = (w.unwarned.intern ns name).2 := by
  obtain ⟨notes, hlog, hnotes⟩ := w.log_intern ns name
  obtain ⟨namespaces, nextId, log, heq⟩ := w.intern_eq ns name
  have hkept : notes.filter (fun r => r.source != .diagnostics) = notes := by
    rw [List.filter_eq_self]
    intro r hr
    rw [hnotes r hr]
    rfl
  rw [intern_following (w := w) (u := w.unwarned) ⟨rfl, rfl⟩]
  rw [heq] at hlog ⊢
  dsimp only at hlog
  subst hlog
  simp [unwarned, following, hkept]

/-- The worlds are the same, warnings apart. -/
def SameButWarnings (w u : World) : Prop :=
  w.unwarned = u.unwarned

theorem coupling_sameButWarnings : AnalysisCoupling SameButWarnings where
  names h := ⟨(congrArg World.namespaces h).symm, (congrArg World.nextId h).symm⟩
  intern ns name h := by rw [SameButWarnings, unwarned_intern, unwarned_intern, h]
  flag v h := congrArg (fun w : World => w.setDynamic v) h
  warn warning h := by rw [SameButWarnings, unwarned_warn, unwarned_warn, h]
  addTag v k value h := congrArg (fun w : World => w.addTag v k value) h

end World

/-- Warnings apart, a var is declared dynamic or not as its symbol says. -/
theorem Context.unwarned_announced (ctx : Context) (sym : Symbol) (v : Var) (w : World) :
    (ctx.announced sym v w).unwarned = w.unwarned.markDynamic v sym.declaresDynamic := by
  unfold announced World.markDynamic
  split
  · rfl
  · split
    · exact w.unwarned_warn _
    · rfl

/-- Whether it warns makes no other difference to analysis. -/
theorem analyze_sameButWarnings (ctx : Context) (form : Form) :
    Exec.Couples World.SameButWarnings World.SameButWarnings
      (fun err err' w u => err = err' ∧ World.SameButWarnings w u)
      (analyze (ctx.warning true) form) (analyze (ctx.warning false) form) := by
  have hE := World.coupling_sameButWarnings.effects (F := fun err err' w u => err = err' ∧ w.SameButWarnings u)
    (fun _ _ _ h => ⟨rfl, h⟩) (ctx.warning true)
  have L : AnalysisLogic (ctx.warning true) false (fun _ => True) (fun _ => True) (fun _ => True) (fun _ => True)
      fun _ _ x y _ => Exec.Couples World.SameButWarnings World.SameButWarnings
        (fun err err' w u => err = err' ∧ World.SameButWarnings w u) x y := {
    pure := fun _ => hE.pure _
    bind := fun hx hf => hx.bind hf
    reject := fun span fault _ => hE.fail span (.parse fault)
    take := fun data => hE.data data.toValue
    symbol := fun sym span => hE.analyzeSymbol sym span
    opening := fun sym span => by
      refine (hE.resolveTarget sym span).bind fun v => Exec.Couples.bind (fun w u h => ?_) fun _ =>
        (hE.attachArglists sym v).bind fun _ => hE.pure v
      rw [declareDynamic_apply, declareDynamic_apply]
      exact ⟨rfl, by rw [World.SameButWarnings, Context.unwarned_announced, Context.unwarned_announced, h]⟩
    tag := fun _ h => h
    const := fun _ => trivial
    atom := fun _ _ => trivial }
  exact L.analyze (Form.everyTag_of_forall (fun _ => trivial) form)

/-! ### The warnings that are given -/

def LogRecord.warning? : LogRecord → Option Warning
  | .warned warning => some warning
  | _ => none

/-- The warnings given so far: those that are kept for an audience, or those in the log without one. -/
def World.issued (w : World) : List Warning :=
  match w.audience with
  | .watching => w.warnings
  | .absent => w.log.filterMap LogRecord.warning?

/-- What the context has to say about definitions of these symbols. -/
def Context.warningsAbout (ctx : Context) (syms : List Symbol) : List Warning :=
  (syms.filter fun sym => ctx.warnOnEarmuffs && decide sym.Misleading).map fun sym =>
    { symbol := sym.text, pos := { file := ctx.sourcePath, line := ctx.line } }

theorem Context.warningsAbout_append (ctx : Context) (syms syms' : List Symbol) :
    ctx.warningsAbout (syms ++ syms') = ctx.warningsAbout syms ++ ctx.warningsAbout syms' := by
  rw [warningsAbout, List.filter_append, List.map_append]
  rfl

namespace World

theorem issued_warn (w : World) (warning : Warning) : (w.warn warning).issued = w.issued ++ [warning] := by
  unfold warn issued
  cases haudience : w.audience <;> simp [note, haudience, LogRecord.warning?]

theorem issued_intern (w : World) (ns name : String) : (w.intern ns name).2.issued = w.issued := by
  obtain ⟨notes, hlog, hnotes⟩ := w.log_intern ns name
  obtain ⟨namespaces, nextId, log, heq⟩ := w.intern_eq ns name
  have hnone : notes.filterMap LogRecord.warning? = [] := by
    rw [List.filterMap_eq_nil_iff]
    intro r hr
    have hsource := hnotes r hr
    cases r with
    | warned => cases hsource
    | _ => rfl
  rw [heq] at hlog ⊢
  dsimp only at hlog
  subst hlog
  simp [issued, hnone]

end World

/-- Declaring a var warns if it should and if the context warns at all. -/
theorem Context.issued_declared (ctx : Context) (sym : Symbol) (v : Var) (w : World) :
    (ctx.declared sym v w).issued = w.issued ++ ctx.warningsAbout [sym] := by
  have hattached : (ctx.declared sym v w).issued = (ctx.announced sym v w).issued := by
    unfold declared
    cases sym.attachment? <;> rfl
  have hmisleading := sym.misleading_iff
  rw [hattached, announced, warningsAbout]
  cases hdynamic : sym.declaresDynamic with
  | true =>
    have hset : (w.setDynamic v).issued = w.issued := rfl
    simp [hmisleading, hdynamic, hset]
  | false =>
    have hwarn : (ctx.warnOnEarmuffs && decide sym.Misleading) = (ctx.warnOnEarmuffs && sym.isEarmuffed) := by
      simp [hmisleading, hdynamic]
    simp only [Bool.false_eq_true, if_false, List.filter_cons, hwarn, List.filter_nil]
    split
    · exact w.issued_warn _
    · exact (List.append_nil _).symm

theorem issued_resolveTarget {ctx : Context} {sym : Symbol} {span : Span} {w w' : World} {v : Var}
    (h : resolveTarget ctx sym span w = .ok v w') : w'.issued = w.issued := by
  rcases resolveTarget_cases ctx sym span w with
    ⟨-, heq⟩ | ⟨home, u, -, -, -, -, heq⟩ | ⟨-, err, heq⟩ <;> rw [heq] at h <;> cases h
  · exact w.issued_intern ctx.ns sym.name
  · rfl

section Steps
variable (ctx : Context)

/-- The symbol of the definition that a step opens, if its target can be resolved. -/
def AnalysisStep.resolved (w : World) : AnalysisStep → List Symbol
  | .define sym span =>
    match resolveTarget ctx sym span w with
    | .ok _ _ => [sym]
    | .error _ _ => []
  | _ => []

/-- The symbols of the definitions whose target is resolved on the way, in order. The last may be one whose argument
lists cannot be attached; what comes after a failure is not resolved. -/
def Context.resolved : List AnalysisStep → World → List Symbol
  | [], _ => []
  | step :: rest, w =>
    step.resolved ctx w ++ match step.perform ctx w with
      | .ok _ w' => Context.resolved rest w'
      | .error _ _ => []

/-- The step: it gives the warnings about the definition that it resolves. -/
theorem issued_perform (step : AnalysisStep) (w : World) :
    (Exec.finalWorld (step.perform ctx) w).issued = w.issued ++ ctx.warningsAbout (step.resolved ctx w) := by
  cases step with
  | define sym span =>
    rw [AnalysisStep.perform, AnalysisStep.resolved, Exec.finalWorld_map]
    cases hresolve : resolveTarget ctx sym span w with
    | error err w₁ =>
      have hfails : openDefinition ctx sym span w = .error err w₁ := Exec.bind_of_error hresolve
      rw [Exec.finalWorld_of_error hfails, resolveTarget_of_error hresolve]
      exact (List.append_nil _).symm
    | ok v w₁ =>
      have hfinal : Exec.finalWorld (openDefinition ctx sym span) w = ctx.declared sym v w₁ := by
        rcases openDefinition_cases ctx sym with h | ⟨err, h⟩
        · exact Exec.finalWorld_of_ok (h span w v w₁ hresolve)
        · exact Exec.finalWorld_of_error (h span w v w₁ hresolve)
      rw [hfinal, Context.issued_declared, issued_resolveTarget hresolve]
  | refer sym span =>
    rw [AnalysisStep.perform, Exec.finalWorld_map, finalWorld_analyzeSymbol]
    exact (List.append_nil _).symm
  | take data =>
    have hsame : Exec.finalWorld (Exec.ofResult data.toValue) w = w := by cases data.toValue <;> rfl
    rw [AnalysisStep.perform, Exec.finalWorld_map, hsame]
    exact (List.append_nil _).symm
  | reject span fault => exact (List.append_nil _).symm

/-- The run: steps one after the other give their warnings one after the other, up to the one that fails. -/
theorem issued_walk (steps : List AnalysisStep) (w : World) :
    (Exec.finalWorld (walk ctx steps) w).issued = w.issued ++ ctx.warningsAbout (ctx.resolved steps w) := by
  induction steps generalizing w with
  | nil => exact (List.append_nil _).symm
  | cons step rest ih =>
    have hstep := issued_perform ctx step w
    rw [Context.resolved, Context.warningsAbout_append, ← List.append_assoc, ← hstep]
    cases h : step.perform ctx w with
    | ok _ w' =>
      rw [Exec.finalWorld_of_ok h, Exec.finalWorld_congr (walk_cons_of_ok h rest)]
      exact ih w'
    | error err w' =>
      rw [Exec.finalWorld_of_error h, Exec.finalWorld_of_error (walk_cons_of_error h rest)]
      exact (List.append_nil _).symm

/-! ### Which definitions are resolved -/

def AnalysisStep.target? : AnalysisStep → Option Symbol
  | .define sym _ => some sym
  | _ => none

theorem resolved_isPrefix_target (step : AnalysisStep) (w : World) : step.resolved ctx w <+: step.target?.toList := by
  cases step with
  | define sym span =>
    rw [AnalysisStep.resolved]
    cases resolveTarget ctx sym span w with
    | ok v w' => exact List.prefix_rfl
    | error err w' => exact List.nil_prefix
  | _ => exact List.nil_prefix

/-- A step that succeeds has resolved its target. -/
theorem resolved_of_ok {step : AnalysisStep} {w w' : World} (h : step.perform ctx w = .ok () w') :
    step.resolved ctx w = step.target?.toList := by
  cases step with
  | define sym span =>
    obtain ⟨v, hopen, -⟩ := Exec.map_eq_ok h
    obtain ⟨_, _, hresolve, -⟩ := Exec.bind_eq_ok hopen
    simp only [AnalysisStep.resolved, hresolve]
    rfl
  | _ => rfl

/-- The definitions that are resolved are the first ones that the steps come to, and all of them if no step fails. -/
theorem resolved_walk (steps : List AnalysisStep) (w : World) :
    ctx.resolved steps w <+: steps.filterMap AnalysisStep.target? ∧
      ∀ w', walk ctx steps w = .ok () w' → ctx.resolved steps w = steps.filterMap AnalysisStep.target? := by
  induction steps generalizing w with
  | nil => exact ⟨List.prefix_rfl, fun _ _ => rfl⟩
  | cons step rest ih =>
    have hcons : (step :: rest).filterMap AnalysisStep.target? =
        step.target?.toList ++ rest.filterMap AnalysisStep.target? := by
      cases h : step.target? <;> simp [h]
    rw [Context.resolved, hcons]
    cases h : step.perform ctx w with
    | ok _ w' =>
      obtain ⟨hresolved, hall⟩ := ih w'
      rw [resolved_of_ok ctx h, walk_cons_of_ok h]
      exact ⟨(List.prefix_append_right_inj _).mpr hresolved,
        fun w'' hwalk => congrArg (step.target?.toList ++ ·) (hall w'' hwalk)⟩
    | error err w' =>
      rw [walk_cons_of_error h, List.append_nil]
      exact ⟨(resolved_isPrefix_target ctx step w).trans (List.prefix_append _ _), by simp⟩

end Steps

/-! ### Main result -/

theorem issued_analyze (ctx : Context) (form : Form) (w : World) :
    (Exec.finalWorld (analyze ctx form) w).issued = w.issued ++ ctx.warningsAbout (ctx.resolved form.steps w) := by
  rw [← issued_walk, ← analyze_eq_walk, Exec.finalWorld_map]

/-- Analyses of a form that differ in whether they warn give the same node or the same error and leave the same world,
warnings apart. The one that does not warn gives no warning. However the other ends, it gives one warning for each
definition whose target it resolved and whose name misleads, in order, with the symbol's text and the place of the
context. It resolves the definitions of the form from the first on, and all of them if it succeeds. -/
theorem warnings_never_alter_analysis (ctx : Context) (form : Form) (w : World) :
    let loud := ctx.warning true
    let quiet := ctx.warning false
    let resolved := loud.resolved form.steps w
    Exec.Corresponds World.SameButWarnings (fun err err' u u' => err = err' ∧ u.SameButWarnings u')
        (analyze loud form w) (analyze quiet form w) ∧
      (Exec.finalWorld (analyze quiet form) w).issued = w.issued ∧
      (Exec.finalWorld (analyze loud form) w).issued = w.issued ++
        (resolved.filter fun sym => decide sym.Misleading).map (fun sym =>
          { symbol := sym.text, pos := { file := ctx.sourcePath, line := ctx.line } }) ∧
      resolved <+: form.steps.filterMap AnalysisStep.target? ∧
      ∀ e w', analyze loud form w = .ok e w' → resolved = form.steps.filterMap AnalysisStep.target? := by
  intro loud quiet resolved
  obtain ⟨hresolved, hall⟩ := resolved_walk loud form.steps w
  refine ⟨analyze_sameButWarnings ctx form w w rfl, ?_, ?_, hresolved, fun e w' h => hall w' (walk_of_ok h)⟩
  · rw [issued_analyze, Context.warningsAbout]
    simp [quiet, Context.warning]
  · rw [issued_analyze, Context.warningsAbout]
    simp [loud, resolved, Context.warning, Context.sourcePath]

/-- The analysis of `(do (def *a*) (def ^:dynamic *b*) '(def *c*) (def *d* y) (def *e*))` fails at `y`: the warnings are
those about `*a*` and `*d*`. -/
theorem warnings_never_alter_analysis_unresolved :
    let w := World.start {} .watching
    let ctx : Context := { ns := "user", source := some "a.clj", line := 7 }
    let name (text : String) : Form := .symbol (.unqualified text)
    let b : Symbol := ⟨none, "*b*", some [(.keyword "dynamic", .bool true)]⟩
    let form : Form := .list [name "do", .list [name "def", name "*a*"], .list [name "def", .symbol b],
      .list [name "quote", .list [name "def", name "*c*"]], .list [name "def", name "*d*", name "y"],
      .list [name "def", name "*e*"]]
    let warning (text : String) : Warning := { symbol := text, pos := { file := "a.clj", line := 7 } }
    (∃ err u, analyze ctx form w = .error err u ∧ u.issued = [warning "*a*", warning "*d*"]) ∧
      (Exec.finalWorld (analyze { ctx with warnOnEarmuffs := false } form) w).issued = [] := by
  intro w ctx name b form warning
  obtain ⟨-, hquiet, hloud, -⟩ := warnings_never_alter_analysis ctx form w
  have hwarned : ((ctx.resolved form.steps w).filter fun sym => decide sym.Misleading).map
      (fun sym => ({ symbol := sym.text, pos := { file := ctx.sourcePath, line := ctx.line } } : Warning)) =
        [warning "*a*", warning "*d*"] := by
    decide +kernel
  have hfails : Exec.errorWith (fun _ _ => true) (analyze ctx form w) = true := by decide +kernel
  obtain ⟨err, u, herr, -⟩ := Exec.exists_of_errorWith hfails
  refine ⟨⟨err, u, herr, ?_⟩, hquiet⟩
  rw [← Exec.finalWorld_of_error herr, ← hwarned]
  exact hloud

end LispCore
