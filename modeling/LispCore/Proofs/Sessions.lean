import LispCore.Proofs.Growth
import LispCore.Proofs.Isolation

/-! # Whole sessions

A session keeps its numbers in order (`World.Numbered`), as long as it is given no var that was not made: of all that
it can do, only a definition and a native definition write to vars, and these have names. -/

namespace LispCore

/-! ### Writes -/

/-- However the run ends, it wrote to no var outside `D`. -/
def Exec.Writes {α : Type} (D : Var → Prop) (x : Exec α) : Prop :=
  ∀ w v, ¬D v → (Exec.finalWorld x w).cell v = w.cell v

namespace Exec.Writes
variable {α β : Type} {D : Var → Prop} {x : Exec α}

theorem of_steps (h : Exec.Steps (Expr.RunStep D) x) : Writes D x :=
  fun w => (World.runSteps_keep (h w)).2

theorem bind {f : α → Exec β} (hx : Writes D x) (hf : ∀ a, Writes D (f a)) : Writes D (x >>= f) := by
  intro w v hv
  have hfirst := hx w v hv
  cases h : x w with
  | error err w₁ =>
    rw [finalWorld_of_error h] at hfirst
    rw [finalWorld_of_error (bind_of_error h), hfirst]
  | ok a w₁ =>
    rw [finalWorld_of_ok h] at hfirst
    rw [finalWorld_congr (bind_of_ok h), hf a w₁ v hv, hfirst]

theorem note (r : LogRecord) : Writes D (modify (·.note r) : Exec Unit) :=
  fun _ _ _ => rfl

end Exec.Writes

/-- The code of a node writes to the vars that the node defines. -/
theorem Expr.writes_run_toChunk {D : Var → Prop} {e : Expr} (h : ∀ v ∈ e.targets, D v) (source : String) (span : Span) :
    Exec.Writes D (e.toChunk source span).run := by
  rw [Expr.run_toChunk]
  have hsteps := Expr.steps_evalWith h (Expr.rootCause_blameIn source) .tagsFirst
  exact (Exec.Writes.note _).bind fun _ => .of_steps (Exec.steps_adapt _ hsteps)

theorem writes_runNode {D : Var → Prop} {e : Expr} (h : ∀ v ∈ e.targets, D v) (options : Options) (engine : Engine)
    (span : Span) : Exec.Writes D (runNode options engine span e) := by
  cases engine with
  | direct => exact .of_steps (Expr.steps_eval h)
  | machine =>
    simp only [runNode, compileTopLevel, bind_assoc, pure_bind]
    exact (Exec.Writes.note _).bind fun _ => Expr.writes_run_toChunk h options.sourcePath span

/-! ### Numbers -/

namespace World

/-- Numbers stay in order if the vars that names are referred to have numbers, and what is written to has. -/
theorem Numbered.of_grows {referred : List (String × String × Var)} {made : List Var} {w w' : World} (hw : w.Numbered)
    (h : w.Grows referred made w') (hreferred : ∀ r ∈ referred, r.2.2.id < w'.nextId)
    (hcells : (∀ ns name v, w'.lookup ns name = some v → v.id < w'.nextId) →
      ∀ v, w'.nextId ≤ v.id → w'.cell v = w.cell v) : w'.Numbered := by
  have hmapped : ∀ ns name v, w'.lookup ns name = some v → v.id < w'.nextId := by
    intro ns name v hlookup
    rcases h.origin ns name v hlookup with hbefore | hmade | hrefer
    · exact Nat.lt_of_lt_of_le (hw.mapped ns name v hbefore) h.numbers
    · exact (h.fresh v hmade).2
    · exact hreferred _ hrefer
  exact ⟨hmapped, fun v hv => (hcells hmapped v hv).trans (hw.cells v (Nat.le_trans h.numbers hv))⟩

theorem Confined.cell_eq {ns : String} {opened : List (Symbol × Var)} {w w' : World} (h : w.Confined ns opened w')
    (hmapped : ∀ ns name v, w'.lookup ns name = some v → v.id < w'.nextId) {v : Var} (hv : w'.nextId ≤ v.id) :
    w'.cell v = w.cell v := by
  refine h.cells v fun d hd => ?_
  rintro rfl
  obtain ⟨-, hnames⟩ := h.targets d hd
  obtain ⟨home, -, hlookup⟩ := names_iff.mp hnames
  exact Nat.not_lt.mpr hv (hmapped home _ _ hlookup)

theorem cells_intern (w : World) (ns name : String) : (w.intern ns name).2.cells = w.cells := by
  obtain ⟨namespaces, nextId, log, h⟩ := w.intern_eq ns name
  rw [h]

/-- Only definitions and what is run write to vars. -/
theorem sameCells_arranges : ArrangesBy (fun _ => True) (Same cells) where
  ensureNs w ns := by rcases w.ensureNs_eq ns with h | h <;> rw [h] <;> rfl
  current _ _ := rfl
  intern := cells_intern
  refer _ _ _ _ _ := rfl
  addAlias _ _ _ _ _ := rfl
  rebind _ _ _ _ _ := rfl

end World

namespace Action

/-- The vars that the action comes with were made before: a var to refer to, and the vars that a node or its code
defines. -/
def Known (w : World) : Action → Prop
  | .refer _ _ v => v.id < w.nextId
  | .runNode _ _ _ e => ∀ v ∈ e.targets, v.id < w.nextId
  | .runCode c => ∃ (e : Expr) (source : String) (span : Span), c = e.toChunk source span ∧
    ∀ v ∈ e.targets, v.id < w.nextId
  | _ => True

/-- Each action of the run comes with vars that were made before it. -/
def KnownRun : World → List Action → Prop
  | _, [] => True
  | w, action :: rest => action.Known w ∧ KnownRun (perform w action) rest

/-- What an action writes to has a number, if the vars that have names do. -/
theorem cell_perform {w : World} {action : Action} (hknown : action.Known w)
    (hmapped : ∀ ns name v, (perform w action).lookup ns name = some v → v.id < (perform w action).nextId)
    (hnumbers : w.nextId ≤ (perform w action).nextId) {v : Var} (hv : (perform w action).nextId ≤ v.id) :
    (perform w action).cell v = w.cell v := by
  have hcells : (perform w action).cells = w.cells → (perform w action).cell v = w.cell v := fun h => by
    rw [World.cell, World.cell, h]
  have hnew : ¬v.id < w.nextId := Nat.not_lt.mpr (Nat.le_trans hnumbers hv)
  cases action with
  | defineNative name arity body =>
    -- the var is the one that the name is mapped to
    have hvar := hmapped w.current name _ (w.lookup_intern w.current name)
    have hne : v ≠ (w.intern w.current name).1 := by
      rintro rfl
      exact Nat.not_lt.mpr hv hvar
    refine ((World.cell_setCell _ _ _ v).trans (if_neg hne)).trans ?_
    have hsame : (w.intern w.current name).2.cell v = w.cell v := by rw [World.cell, World.cell, World.cells_intern]
    exact hsame
  | analyze ctx form =>
    obtain ⟨opened, -, hconfined, -⟩ := confined_of_analyze ctx form w
    exact hconfined.cell_eq hmapped hv
  | eval options engine form =>
    obtain ⟨opened, -, hconfined⟩ := confined_of_evalFormWith options engine form w
    exact hconfined.cell_eq hmapped hv
  | runNode options engine span e => exact writes_runNode hknown options engine span w v hnew
  | runCode c =>
    obtain ⟨e, source, span, rfl, htargets⟩ := hknown
    exact Expr.writes_run_toChunk htargets source span w v hnew
  | _ => exact hcells (World.Same.of_steps (World.sameCells_arranges.steps rfl trivial w))

theorem numbered_perform {w : World} {action : Action} (hw : w.Numbered) (hknown : action.Known w) :
    (perform w action).Numbered := by
  obtain ⟨made, hgrows⟩ := grows w action
  refine hw.of_grows hgrows (fun r hr => ?_) fun hmapped v => cell_perform hknown hmapped hgrows.numbers
  cases action with
  | refer ns name u =>
    rw [List.mem_singleton.mp hr]
    exact Nat.lt_of_lt_of_le hknown hgrows.numbers
  | _ => cases hr

theorem numbered_run {w : World} {actions : List Action} (hw : w.Numbered) (hknown : KnownRun w actions) :
    (run w actions).Numbered := by
  induction actions generalizing w with
  | nil => exact hw
  | cons action rest ih =>
    obtain ⟨hfirst, hrest⟩ := hknown
    exact ih (numbered_perform hw hfirst) hrest

end Action

/-! ### Main result -/

/-- In a run of any length, whatever fails in it, namespaces, names, root values and dynamic flags stay, and vars are
made with numbers that no var had before. A var that a namespace owns is what looking its name up and interning it
give, as long as no action refers just this name to a var. -/
theorem session_grows (w : World) (actions : List Action) :
    let w' := Action.run w actions
    (∃ made, w.Grows (actions.filterMap Action.referral?) made w' ∧
      (w.Numbered → ∀ v ∈ made, (∀ ns name, w.lookup ns name ≠ some v) ∧ w.cell v = {})) ∧
    (∀ ns name v, w.lookup ns name = some v → v.ns = ns → (∀ u, Action.refer ns name u ∉ actions) →
      w'.lookup ns name = some v ∧ w'.intern ns name = (v, w')) ∧
    (w.Numbered → Action.KnownRun w actions → w'.Numbered) := by
  intro w'
  obtain ⟨made, hgrows⟩ := Action.run_grows w actions
  refine ⟨⟨made, hgrows, fun hw v hv => ?_⟩, fun ns name v hlookup hv hactions => ?_, Action.numbered_run⟩
  · obtain ⟨hlow, -⟩ := hgrows.fresh v hv
    exact ⟨fun ns name hlookup => Nat.not_lt.mpr hlow (hw.mapped ns name v hlookup), hw.cells v hlow⟩
  · have hkept : w'.lookup ns name = some v := by
      refine hgrows.owned ns name v hlookup hv fun u hu => ?_
      obtain ⟨action, haction, hreferral⟩ := List.mem_filterMap.mp hu
      cases action with
      | refer ns' name' v' =>
        cases hreferral
        exact hactions u haction
      | _ => cases hreferral
    refine ⟨hkept, ?_⟩
    rcases w'.intern_cases ns name with ⟨u, hu, -, hintern⟩ | ⟨hforeign, -⟩
    · rw [hkept] at hu
      cases hu
      exact hintern
    · exact (hforeign v hkept hv).elim

/-- A var keeps its name through definitions, a failure, and a referral of the same name elsewhere. -/
theorem session_grows_keeping_var :
    let start := World.start {} .watching
    let x : Var := { id := 0, ns := "user", name := "x" }
    let name (text : String) : Form := .symbol (.unqualified text)
    let actions : List Action := [.eval {} .machine (.list [name "def", name "x", .int 1]), .refer "other" "x" x,
      .eval {} .direct (.list [name "def", name "x", name "y"]), .dropGuard ⟨[x]⟩]
    let w := Action.run start [.intern "user" "x"]
    let w' := Action.run w actions
    w.lookup "user" "x" = some x ∧ w.Numbered ∧ w'.lookup "user" "x" = some x ∧ w'.intern "user" "x" = (x, w') ∧
      w'.Numbered := by
  intro start x name actions w w'
  have hlookup : w.lookup "user" "x" = some x := by decide +kernel
  have hw : w.Numbered :=
    (session_grows start [.intern "user" "x"]).2.2 (World.numbered_start {} .watching) ⟨trivial, trivial⟩
  have hknown : Action.KnownRun w actions := by
    refine ⟨trivial, ?_, trivial, trivial, trivial⟩
    exact Nat.lt_of_lt_of_le Nat.zero_lt_one (by decide +kernel)
  obtain ⟨-, howned, hnumbered⟩ := session_grows w actions
  obtain ⟨hkept, hintern⟩ := howned "user" "x" x hlookup rfl (by simp [actions])
  exact ⟨hlookup, hw, hkept, hintern, hnumbered hw hknown⟩

end LispCore
