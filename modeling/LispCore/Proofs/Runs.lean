import LispCore.Session
import LispCore.Proofs.Analysis
import LispCore.Proofs.Emission

/-! # Running a top-level form

Either engine analyses a form and then runs its node, one with definitions initial value first and the other
metadata first. All positions in the node are the position of the form, so errors can be taken as they are
raised and located once at the end (`evalFormWith_of_analyze`). -/

namespace LispCore

/-- The order in which an engine runs the parts of a definition. -/
def Engine.order : Engine → DefOrder
  | .direct => .initFirst
  | .machine => .tagsFirst

/-- The position of a top-level form. -/
def Options.position (options : Options) (form : Form) : SourcePos :=
  { file := options.sourcePath, line := form.span.line }

theorem Expr.Every.at_of_analyzed {ctx : Context} {D : Var → Prop} {K : Expr → Prop} {e : Expr}
    (h : e.Every (Expr.Analyzed ctx D K)) : e.At ctx.pos := by
  refine h.mono fun d hd => ?_
  cases d with
  | define target dynamic tags init pos =>
    rintro _ ⟨⟩
    exact hd.1
  | invoke callee args pos =>
    rintro _ ⟨⟩
    exact hd
  | _ => rintro _ ⟨⟩

/-- The node of a form has the position of its context everywhere. -/
theorem at_of_analyze {ctx : Context} {form : Form} {e : Expr} {w w' : World} (h : analyze ctx form w = .ok e w') :
    e.At ctx.pos :=
  (analyzed_of_analyze (M := fun _ => True) (K := fun _ => True) (fun _ => trivial) (fun _ _ => trivial)
    (Form.everyTag_of_forall (fun _ => trivial) form) h).at_of_analyzed

theorem at_of_analyzeTopLevel {options : Options} {form : Form} {e : Expr} {w w' : World}
    (h : analyzeTopLevel options form w = .ok e w') : e.At (options.position form) :=
  at_of_analyze h

theorem locating_runNode {options : Options} {form : Form} {e : Expr} (h : e.At (options.position form))
    (engine : Engine) (w : World) : ∃ log,
      Exec.locating (options.position form) (runNode options engine form.span e) w =
        Exec.locating (options.position form) (e.bareIn engine.order) { w with log } := by
  cases engine with
  | direct =>
    exact ⟨w.log, congrFun (h.locating_evalWith Error.locate rfl .initFirst) w⟩
  | machine =>
    simp only [runNode, compileTopLevel, bind_assoc, pure_bind, Expr.run_toChunk, Exec.locating_eq_adapt,
      Exec.adapt_bind, Exec.adapt_modify, Exec.adapt_locate_locate]
    exact ⟨_, congrFun (h.locating_evalWith (Expr.blameIn options.sourcePath) rfl .tagsFirst) ((w.note _).note _)⟩

/-- After analysis, a form runs as its node does with errors as they are raised, and an error without a position
gets that of the form. -/
theorem evalFormWith_of_analyze {options : Options} {form : Form} {e : Expr} {w w₁ : World}
    (h : analyzeTopLevel options form w = .ok e w₁) (engine : Engine) : ∃ log,
      evalFormWith options engine form w =
        Exec.locating (options.position form) (e.bareIn engine.order) { w₁ with log } := by
  rw [evalFormWith, Exec.bind_of_ok h]
  exact locating_runNode (at_of_analyzeTopLevel h) engine _

/-! ### Errors as they are raised -/

/-- A native function was called and returned this error, and the world is as it left it. -/
def NativeRaised (err : Error) (w : World) : Prop :=
  ∃ f args body host, f.arity.accepts args.length = true ∧ Table.get? w.natives f.id = some body ∧
    body args (HostState.record host (.called f args)) = .error err w.host

/-- An error without a position, or one that a native function returned. -/
def Raised (err : Error) (w : World) : Prop :=
  (∃ failure, err = .plain failure) ∨ NativeRaised err w

theorem raises_ofExcept {α : Type} (r : Except Fault α) : Exec.Raises Raised (Exec.ofExcept r) := by
  intro w err w' h
  cases r with
  | ok => cases h
  | error fault =>
    cases h
    exact .inl ⟨_, rfl⟩

theorem raises_callNative (f : Native) (args : List Value) : Exec.Raises Raised (callNative f args) := by
  intro w err w' h
  rcases callNative_spec f args w with
    ⟨fault, -, hcall⟩ | ⟨body, haccepts, hbody, ⟨value, host, -, hcall⟩ | ⟨err', host, hraised, hcall⟩⟩ <;>
    rw [hcall] at h <;> cases h
  · exact .inl ⟨_, rfl⟩
  · exact .inr ⟨f, args, body, w.host, haccepts, hbody, hraised⟩

theorem raises_apply (callee : Value) (args : List Value) : Exec.Raises Raised (apply callee args) := by
  intro w
  exact (raises_ofExcept (w.callee (w.cells.length + 1) callee)).bind (fun f => raises_callNative f args) w

theorem raises_enterMonitor (target : Value) : Exec.Raises Raised (enterMonitor target) := by
  intro w err w' h
  rcases enterMonitor_spec target w with ⟨fault, henter⟩ | ⟨monitors, host, henter⟩ <;>
    rw [henter] at h <;> cases h
  exact .inl ⟨_, rfl⟩

theorem Expr.raises_bareIn (order : DefOrder) (e : Expr) : Exec.Raises Raised (e.bareIn order) := by
  have hmodify : ∀ f : World → World, Exec.Raises Raised (modify f : Exec Unit) := fun f w err w' h => by cases h
  have hC : Respects fun _ x _ => Exec.Raises Raised x := {
    Exec.raises_congruence Raised with
    deref := fun v w => raises_ofExcept (w.deref v) w
    apply := raises_apply
    enter := raises_enterMonitor
    mapOf := fun entries => raises_ofExcept _ }
  exact (every_of_forall (P := fun _ => True) (fun _ => trivial) e).bareIn_holds hC (fun _ _ _ _ _ => hmodify _)
    (fun _ _ _ _ _ => hmodify _) (fun _ _ _ _ _ => hmodify _) order

/-! ### Main result -/

theorem silent_analyzeTopLevel {options : Options} {form : Form} {w w' : World} {err : Error}
    (h : analyzeTopLevel options form w = .error err w') : w.Silent w' := by
  have hsilent := World.silent_of_steps ((silent_analysis (topLevelContext options w form.span.line)).analyze form) w
  have hanalyze : analyze (topLevelContext options w form.span.line) form w = .error err w' := h
  rwa [Exec.finalWorld_of_error hanalyze] at hsilent

theorem evalFormWith_of_analyze_error {options : Options} {form : Form} {w w' : World} {err : Error}
    (h : analyzeTopLevel options form w = .error err w') (engine : Engine) :
    evalFormWith options engine form w = .error err w' :=
  Exec.bind_of_error h

/-- What a run that failed was: its error as it was raised, in the world that is left, and where it was located. -/
theorem raised_of_evalFormWith {options : Options} {engine : Engine} {form : Form} {e : Expr} {w w₁ w' : World}
    {err : Error} (h : analyzeTopLevel options form w = .ok e w₁)
    (hrun : evalFormWith options engine form w = .error err w') : ∃ log raised,
      e.bareIn engine.order { w₁ with log } = .error raised w' ∧ err = raised.locate (options.position form) ∧
        Raised raised w' := by
  obtain ⟨log, heq⟩ := evalFormWith_of_analyze h engine
  rw [heq] at hrun
  obtain ⟨raised, hraised, rfl⟩ := Exec.adapt_eq_error hrun
  exact ⟨log, raised, hraised, rfl, e.raises_bareIn engine.order _ raised w' hraised⟩

/-- An analysis error is reported as it is, without a position, and nothing has run. After analysis every error has
a position: that of the top-level form, with the error that was raised as its cause, unless a native function
returned an error that had one. So errors without a position are those of analysis. -/
theorem errors_located_once (options : Options) (engine : Engine) (form : Form) (w : World) :
    (∀ err w', analyzeTopLevel options form w = .error err w' →
      evalFormWith options engine form w = .error err w' ∧ (∃ failure, err = .plain failure) ∧ w.Silent w') ∧
    (∀ e w₁, analyzeTopLevel options form w = .ok e w₁ →
      ∀ err w', evalFormWith options engine form w = .error err w' → ∃ log,
        (∃ failure, e.bareIn engine.order { w₁ with log } = .error (.plain failure) w' ∧
          err = .located { file := options.source.getD "NO_SOURCE_FILE", line := form.span.line } failure) ∨
        (∃ pos cause, err = .located pos cause ∧ e.bareIn engine.order { w₁ with log } = .error err w' ∧
          NativeRaised err w')) ∧
    ∀ failure w', evalFormWith options engine form w = .error (.plain failure) w' →
      analyzeTopLevel options form w = .error (.plain failure) w' := by
  refine ⟨fun err w' h => ⟨evalFormWith_of_analyze_error h engine, ?_, silent_analyzeTopLevel h⟩, ?_, ?_⟩
  · exact (plain_analysis (topLevelContext options w form.span.line)).analyze form w err w' h
  · intro e w₁ h err w' hrun
    obtain ⟨log, raised, hbare, rfl, hraised⟩ := raised_of_evalFormWith h hrun
    refine ⟨log, ?_⟩
    cases raised with
    | plain failure => exact .inl ⟨failure, hbare, rfl⟩
    | located pos cause =>
      rcases hraised with ⟨_, hplain⟩ | hnative
      · cases hplain
      · exact .inr ⟨pos, cause, rfl, hbare, hnative⟩
  · intro failure w' hrun
    -- had analysis succeeded, the error would have a position
    cases h : analyzeTopLevel options form w with
    | error err w₁ =>
      rw [evalFormWith_of_analyze_error h] at hrun
      cases hrun
      rfl
    | ok e w₁ =>
      obtain ⟨_, raised, -, hlocated, -⟩ := raised_of_evalFormWith h hrun
      cases raised <;> cases hlocated

/-- A failure inside a call, inside a definition, inside a vector, inside a body: one position, the form's. -/
theorem errors_located_once_nested :
    let w := World.start {} .watching
    let failing : Form := .list [.symbol (.unqualified "def"), .symbol (.unqualified "x"),
      .list [.symbol (.unqualified "x")]]
    let form : Form := .list [.symbol (.unqualified "do"), .vector [failing]] { line := 7 }
    let failure : Failure := { fault := .runtime (.unbound { id := 0, ns := "user", name := "x" }) }
    ∃ e w₁ err w' log, analyzeTopLevel {} form w = .ok e w₁ ∧ evalFormWith {} .machine form w = .error err w' ∧
      e.bareIn .tagsFirst { w₁ with log } = .error (.plain failure) w' ∧
      err = .located { file := "NO_SOURCE_FILE", line := 7 } failure := by
  intro w failing form failure
  obtain ⟨e, w₁, h⟩ : ∃ e w₁, analyzeTopLevel {} form w = .ok e w₁ := ⟨_, _, rfl⟩
  have hfails : Exec.errorWith
      (fun err w' => err = .located { file := "NO_SOURCE_FILE", line := 7 } failure && w'.natives.isEmpty)
      (evalFormWith {} .machine form w) = true := by
    decide +kernel
  obtain ⟨err, w', hrun, htest⟩ := Exec.exists_of_errorWith hfails
  obtain ⟨rfl, hnatives⟩ : err = .located { file := "NO_SOURCE_FILE", line := 7 } failure ∧ w'.natives = [] := by
    simpa using htest
  obtain ⟨log, ⟨_, hbare, herr⟩ | ⟨_, _, -, -, f, args, body, host, -, hbody, -⟩⟩ :=
    (errors_located_once {} .machine form w).2.1 e w₁ h _ w' hrun
  · cases herr
    exact ⟨e, w₁, _, w', log, h, hrun, hbare, rfl⟩
  · rw [hnatives] at hbody
    cases hbody

end LispCore
