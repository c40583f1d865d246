import LispCore.Analysis
import LispCore.Code.Emit
import LispCore.Code.Machine
import LispCore.Eval
import LispCore.Native.Standard

/-!
# Sessions

A session analyses top-level forms in the current namespace and runs them with one of the two engines. An
analysis failure is reported as it is; a failure of the run that has no position gets the position of the
top-level form.
-/

namespace LispCore

/-- The world in which a session starts. -/
def World.start (options : Options) (audience : Audience) : World :=
  ({ current := options.ns, audience } : World).ensureNs options.ns

/-- Forgets what was recorded, so that the next records are those of the next step. -/
def World.clearRecords (w : World) : World :=
  { w with host := { w.host with events := [] }, warnings := [], log := [] }

/-- The context of a top-level form at a line. -/
def topLevelContext (options : Options) (w : World) (line : Nat) : Context :=
  { ns := w.current, source := options.source, line, warnOnEarmuffs := options.warnOnEarmuffs }

/-- The node of a top-level form. -/
def analyzeTopLevel (options : Options) (form : Form) : Exec Expr := do
  analyze (topLevelContext options (← get) form.span.line) form

/-- The code of a top-level form. -/
def compileForm (options : Options) (form : Form) : Exec Chunk := do
  let e ← analyzeTopLevel options form
  compileTopLevel e options.sourcePath form.span

/-- Runs the node of a top-level form at the given span. -/
def runNode (options : Options) (engine : Engine) (span : Span) (e : Expr) : Exec Value := do
  match engine with
  | .direct => e.eval
  | .machine =>
    let c ← compileTopLevel e options.sourcePath span
    c.run

/-- Analyses and runs a top-level form with the given engine. -/
def evalFormWith (options : Options) (engine : Engine) (form : Form) : Exec Value := do
  let e ← analyzeTopLevel options form
  modify (·.note (.evaluating e.kindName form.span.line engine))
  Exec.locating { file := options.sourcePath, line := form.span.line } (runNode options engine form.span e)

/-- Analyses and runs a top-level form. -/
def evalForm (options : Options) (form : Form) : Exec Value :=
  evalFormWith options options.engine form

/-- Runs forms up to the first failure; the value is that of the last, or nil. -/
def evalForms (options : Options) : List Form → Exec Value
  | [] => pure .nil
  | [form] => evalForm options form
  | form :: rest => do
    let _ ← evalForm options form
    evalForms options rest

end LispCore
