import LispCore.Proofs.Calls
import LispCore.Proofs.Inert
import LispCore.Proofs.Runs

/-! # The two engines agree

Nothing that a program can do depends on the metadata of vars. So two worlds that differ in metadata only
(`World.AlikeBut`) stay so along any run, and the two engines, which run the parts of a definition in different
orders, end alike as long as the metadata of definitions is plain data: whole sessions give the same answers and
the same worlds up to metadata. -/

namespace LispCore

/-! ### Worlds that differ in metadata -/

/-- The world apart from the cells of vars and the log. -/
def World.frame (w : World) : World :=
  { w with cells := [], log := [] }

/-- The worlds differ at most in their logs, in the metadata of vars of `X`, and in how their cells are kept; and
the vars of `D` are flagged as dynamic. -/
structure World.AlikeBut (X D : Var → Prop) (w w' : World) : Prop where
  frame : w.frame = w'.frame
  root : ∀ v, (w.cell v).root = (w'.cell v).root
  dynamic : ∀ v, (w.cell v).dynamic = (w'.cell v).dynamic
  metadata : ∀ v, ¬X v → (w.cell v).metadata = (w'.cell v).metadata
  flagged : ∀ v, D v → (w.cell v).dynamic = true

namespace World.AlikeBut
variable {X D : Var → Prop} {w w' : World}

theorem refl (X : Var → Prop) (w : World) : w.AlikeBut X (fun _ => False) w :=
  ⟨rfl, fun _ => rfl, fun _ => rfl, fun _ _ => rfl, fun _ h => h.elim⟩

theorem symm (h : w.AlikeBut X D w') : w'.AlikeBut X D w :=
  ⟨h.frame.symm, fun v => (h.root v).symm, fun v => (h.dynamic v).symm, fun v hv => (h.metadata v hv).symm,
    fun v hv => (h.dynamic v).symm.trans (h.flagged v hv)⟩

/-- An update of both worlds that leaves the cells alone and does not look at them. -/
theorem update (h : w.AlikeBut X D w') {f : World → World} (hcells : ∀ w, (f w).cells = w.cells)
    (hframe : ∀ w, (f w).frame = (f w.frame).frame) : (f w).AlikeBut X D (f w') := by
  have hcell : ∀ w v, (f w).cell v = w.cell v := fun w v => by rw [cell, cell, hcells]
  refine ⟨by rw [hframe w, hframe w', h.frame], ?_, ?_, ?_, ?_⟩
  all_goals simp only [hcell]
  · exact h.root
  · exact h.dynamic
  · exact h.metadata
  · exact h.flagged

/-- What is read from neither cells nor log is the same. -/
theorem same {β : Type} (h : w.AlikeBut X D w') (f : World → β) (hf : ∀ w, f w.frame = f w) : f w = f w' := by
  rw [← hf w, ← hf w', h.frame]

/-- The second world, written as a change of the first. -/
theorem exists_eq (h : w.AlikeBut X D w') : ∃ cells log, w' = { w with cells, log } := by
  refine ⟨w'.cells, w'.log, ?_⟩
  have hframe := h.frame
  cases w
  cases w'
  simp only [World.frame, World.mk.injEq] at hframe ⊢
  simp only [hframe, and_self]

theorem deref (h : w.AlikeBut X D w') (v : Var) : w.deref v = w'.deref v := by
  have hbindings := h.same World.bindings fun _ => rfl
  simp only [World.deref, World.binding?, h.dynamic v, h.root v, hbindings]

theorem callee (h : w.AlikeBut X D w') (steps : Nat) (x : Value) : w.callee steps x = w'.callee steps x := by
  induction steps generalizing x with
  | zero => cases x <;> rfl
  | succ steps ih =>
    cases x with
    | var v =>
      simp only [World.callee, h.deref v]
      congr 1
      funext y
      exact ih y
    | _ => rfl

/-- A call leads to the same function, although the searches have different bounds. -/
theorem callee_cells (h : w.AlikeBut X D w') (x : Value) :
    w.callee (w.cells.length + 1) x = w'.callee (w'.cells.length + 1) x := by
  let bound := w.cells.length + w'.cells.length + 1
  calc w.callee (w.cells.length + 1) x
      = w.callee bound x := World.callee_eq_of_cells_lt (by omega) (by omega) x
    _ = w'.callee bound x := h.callee bound x
    _ = w'.callee (w'.cells.length + 1) x := World.callee_eq_of_cells_lt (by omega) (by omega) x

end World.AlikeBut

/-- Failures with equal errors, in worlds that may differ in metadata. -/
def FailAlike (err err' : Error) (w w' : World) : Prop :=
  err = err' ∧ w.AlikeBut (fun _ => True) (fun _ => False) w'

theorem World.AlikeBut.failAlike {X D : Var → Prop} {w w' : World} (h : w.AlikeBut X D w') (err : Error) :
    FailAlike err err w w' :=
  ⟨rfl, h.frame, h.root, h.dynamic, fun _ hv => (hv trivial).elim, fun _ h => h.elim⟩

section Effects
variable (X D : Var → Prop)

theorem couples_ofExcept {α : Type} (r : Except Fault α) :
    Exec.Couples (World.AlikeBut X D) (World.AlikeBut X D) FailAlike (Exec.ofExcept r) (Exec.ofExcept r) :=
  .ofExcept r (fun _ _ h => h) fun _ _ _ h => h.failAlike _

theorem couples_deref (v : Var) :
    Exec.Couples (World.AlikeBut X D) (World.AlikeBut X D) FailAlike (deref v) (deref v) := by
  intro w w' h
  have hsame : deref v w' = Exec.ofExcept (w.deref v) w' := by rw [h.deref v]; rfl
  rw [hsame]
  exact couples_ofExcept X D (w.deref v) w w' h

theorem couples_callNative (f : Native) (args : List Value) :
    Exec.Couples (World.AlikeBut X D) (World.AlikeBut X D) FailAlike (callNative f args) (callNative f args) := by
  intro w w' h
  have hhost : ∀ host, World.AlikeBut X D { w with host } { w' with host } :=
    fun host => h.update (f := fun w => { w with host }) (fun _ => rfl) fun _ => rfl
  obtain ⟨cells, log, rfl⟩ := h.exists_eq
  simp only [callNative]
  split
  · split
    · exact h.failAlike _
    · split
      · exact ⟨rfl, hhost _⟩
      · exact (hhost _).failAlike _
  · exact h.failAlike _

theorem couples_apply (callee : Value) (args : List Value) :
    Exec.Couples (World.AlikeBut X D) (World.AlikeBut X D) FailAlike (apply callee args) (apply callee args) := by
  intro w w' h
  rw [apply, Exec.get_bind_apply, Exec.get_bind_apply, h.callee_cells]
  exact (couples_ofExcept X D _).bind (fun f => couples_callNative X D f args) w w' h

theorem couples_enterMonitor (target : Value) :
    Exec.Couples (World.AlikeBut X D) (World.AlikeBut X D) FailAlike (enterMonitor target) (enterMonitor target) := by
  intro w w' h
  have hmonitors : ∀ monitors, World.AlikeBut X D { w with monitors } { w' with monitors } :=
    fun monitors => h.update (f := fun w => { w with monitors }) (fun _ => rfl) fun _ => rfl
  obtain ⟨cells, log, rfl⟩ := h.exists_eq
  simp only [enterMonitor]
  split
  · split
    · exact ⟨rfl, (hmonitors _).update (f := fun w => w.record (.entered target)) (fun _ => rfl) fun _ => rfl⟩
    · exact ⟨rfl, hmonitors _⟩
  · exact h.failAlike _
  · exact h.failAlike _

end Effects

/-! ### Definitions in two orders -/

namespace World.AlikeBut
variable {X D : Var → Prop} {w w' : World}

theorem bindRoot (h : w.AlikeBut X D w') (v : Var) (value : Value) :
    (w.bindRoot v value).AlikeBut X D (w'.bindRoot v value) := by
  refine ⟨h.frame, fun u => ?_, fun u => ?_, fun u hu => ?_, fun u hu => ?_⟩
  · rw [root_bindRoot, root_bindRoot, h.root]
  · rw [dynamic_bindRoot, dynamic_bindRoot, h.dynamic]
  · rw [metadata_bindRoot, metadata_bindRoot, h.metadata u hu]
  · rw [dynamic_bindRoot, h.flagged u hu]

/-- A flag that is set already may be set on one side only. -/
theorem markDynamic_right (h : w.AlikeBut X D w') {v : Var} {dynamic : Bool} (hv : dynamic = true → D v) :
    w.AlikeBut X D (w'.markDynamic v dynamic) := by
  refine ⟨?_, fun u => ?_, fun u => ?_, fun u hu => ?_, h.flagged⟩
  · rw [h.frame]
    cases dynamic <;> rfl
  · rw [root_markDynamic, h.root]
  · rw [dynamic_markDynamic, h.dynamic]
    by_cases hu : u = v ∧ dynamic = true
    · rw [← h.dynamic, hu.1, h.flagged v (hv hu.2), Bool.or_true]
    · have : (decide (u = v) && dynamic) = false := by simpa using hu
      rw [this, Bool.false_or]
  · rw [metadata_markDynamic, h.metadata u hu]

theorem markDynamic_left (h : w.AlikeBut X D w') {v : Var} {dynamic : Bool} (hv : dynamic = true → D v) :
    (w.markDynamic v dynamic).AlikeBut X D w' :=
  (h.symm.markDynamic_right hv).symm

/-- Metadata stored on one side only. -/
theorem setMetadata_right (h : w.AlikeBut X D w') (v : Var) (metadata : Table Key Value) :
    w.AlikeBut (fun u => X u ∨ u = v) D (w'.setMetadata v metadata) := by
  refine ⟨h.frame, fun u => ?_, fun u => ?_, fun u hu => ?_, h.flagged⟩
  · rw [root_setMetadata, h.root]
  · rw [dynamic_setMetadata, h.dynamic]
  · obtain ⟨hX, hv⟩ := not_or.mp hu
    rw [metadata_setMetadata, if_neg hv, h.metadata u hX]

/-- The other side catches up. -/
theorem setMetadata_left {v : Var} (h : w.AlikeBut (fun u => X u ∨ u = v) D w') {metadata : Table Key Value}
    (hv : X v ∨ (w'.cell v).metadata = metadata) : (w.setMetadata v metadata).AlikeBut X D w' := by
  refine ⟨h.frame, fun u => ?_, fun u => ?_, fun u hu => ?_, fun u hu => ?_⟩
  · rw [root_setMetadata, h.root]
  · rw [dynamic_setMetadata, h.dynamic]
  · rw [metadata_setMetadata]
    split
    · next huv =>
      subst huv
      exact (hv.resolve_left hu).symm
    · next huv => exact h.metadata u (not_or.mpr ⟨hu, huv⟩)
  · rw [dynamic_setMetadata, h.flagged u hu]

end World.AlikeBut

/-- A definition in the two orders, with metadata that is known. In between, one side has stored the metadata and
the other has not; `X` has the var, or the initial value leaves its metadata alone. -/
theorem couples_runDefinition {X D : Var → Prop} {v : Var} {dynamic : Bool} {metadata : Table Key Value}
    {init init' : Exec (Option Value)} (hdynamic : dynamic = true → D v)
    (hinit : Exec.Couples (World.AlikeBut (fun u => X u ∨ u = v) D) (World.AlikeBut (fun u => X u ∨ u = v) D) FailAlike
      init init')
    (hkeep : X v ∨ ∀ w value w', init' w = .ok value w' → (w'.cell v).metadata = (w.cell v).metadata) :
    Exec.Couples (World.AlikeBut X D) (World.AlikeBut X D) FailAlike
      (runDefinition .initFirst v dynamic (pure metadata) init)
      (runDefinition .tagsFirst v dynamic (pure metadata) init') := by
  -- between the two stores: alike but for `v` too, where the second side is ahead
  let J : World → World → Prop := fun w w' =>
    w.AlikeBut (fun u => X u ∨ u = v) D w' ∧ (X v ∨ (w'.cell v).metadata = metadata)
  have hinit' : Exec.Couples J J FailAlike init init' := by
    refine hinit.and_right fun w value w' hvalue hw => ?_
    rcases hkeep with hX | hkeep
    · exact .inl hX
    · rwa [hkeep w value w' hvalue]
  have hbind : ∀ value : Option Value, Exec.Couples J J FailAlike
      (modify fun w => value.elim w (w.bindRoot v)) (modify fun w => value.elim w (w.bindRoot v)) := by
    refine fun value => .update fun w w' h => ?_
    cases value with
    | none => exact h
    | some value =>
      exact ⟨h.1.bindRoot v value, h.2.imp_right fun hw => (World.metadata_bindRoot w' v value v).trans hw⟩
  rw [Expr.runDefinition_initFirst, Expr.runDefinition_tagsFirst]
  simp only [pure_bind]
  refine .update_right (fun w w' h => h.markDynamic_right hdynamic) ?_
  refine .update_right (Q := J) (fun w w' h => ⟨h.setMetadata_right v metadata, .inr (by simp)⟩) ?_
  refine hinit'.bind fun value => (hbind value).bind fun _ => ?_
  refine .update_left (fun w w' h => h.1.setMetadata_left h.2) ?_
  exact .update_left (fun w w' h => h.markDynamic_left hdynamic) (.pure _ fun w w' h => h)

/-! ### Nodes in two orders -/

namespace Expr

theorem RunStep.keeps_metadata {v : Var} {w w' : World} (h : RunStep (· ≠ v) w w') :
    (w'.cell v).metadata = (w.cell v).metadata := by
  cases h with
  | host | enter => rfl
  | bind value hne => exact World.metadata_bindRoot w _ value v
  | store metadata hne => rw [World.metadata_setMetadata, if_neg hne.symm]
  | flag hne => exact World.metadata_setDynamic w _ v

/-- A node that does not define `v` leaves its metadata alone. -/
theorem Avoids.keeps_metadata {v : Var} {e : Expr} (h : e.Avoids v) (order : DefOrder) {w w' : World} {value : Value}
    (hvalue : e.bareIn order w = .ok value w') : (w'.cell v).metadata = (w.cell v).metadata := by
  have htargets : e.Every fun d => ∀ u ∈ d.target?, u ≠ v := by
    refine h.mono fun d hd u hu huv => hd ?_
    rw [← huv]
    exact hu
  have hsteps := htargets.steps_bareIn order w
  rw [Exec.finalWorld_of_ok hvalue] at hsteps
  clear hvalue
  induction hsteps with
  | refl => rfl
  | tail _ hstep ih => exact hstep.keeps_metadata.trans ih

/-- An initial value that does not define `v` leaves its metadata alone. -/
theorem evalInit_keeps_metadata {v : Var} {init : Option Expr} (h : ∀ e ∈ init, e.Avoids v) (order : DefOrder)
    (w : World) (found : Option Value) (w' : World)
    (hfound : evalInit (fun _ error => error) order init w = .ok found w') :
    (w'.cell v).metadata = (w.cell v).metadata := by
  cases init with
  | none =>
    cases hfound
    rfl
  | some e =>
    obtain ⟨initial, hinitial, -⟩ := Exec.map_eq_ok hfound
    exact (h e rfl).keeps_metadata order hinitial

/-- The initial value of a definition has no definition of the same var in it. -/
def DefinesOnce : Expr → Prop
  | .define target _ _ init _ => ∀ e ∈ init, e.Avoids target
  | _ => True

/-- The metadata of the definition's var is no matter, or its initial value does not define it again. -/
def Settled (X : Var → Prop) (e : Expr) : Prop :=
  (∀ v ∈ e.target?, X v) ∨ e.DefinesOnce

/-- The node runs alike in both orders, in worlds that differ in the metadata of vars of `X` at most. -/
theorem couples_bareIn {ctx : Context} {X D : Var → Prop} {e : Expr} (h : e.Every (Analyzed ctx D Constant))
    (hX : e.Every (Settled X)) :
    Exec.Couples (World.AlikeBut X D) (World.AlikeBut X D) FailAlike (e.bareIn .initFirst) (e.bareIn .tagsFirst) := by
  -- stated for every larger `Y`, since a definition runs its initial value with its own var added
  let C : (α : Type) → Exec α → Exec α → Prop := fun α x y => ∀ Y : Var → Prop, (∀ v, X v → Y v) →
    Exec.Couples (World.AlikeBut Y D) (World.AlikeBut Y D) FailAlike x y
  have hC : Respects C := {
    pure := fun a Y _ => .pure a fun _ _ h => h
    bind := fun hx hf Y hY => (hx Y hY).bind fun a => hf a Y hY
    deref := fun v Y _ => couples_deref Y D v
    apply := fun callee args Y _ => couples_apply Y D callee args
    enter := fun target Y _ => couples_enterMonitor Y D target
    mapOf := fun entries Y _ => couples_ofExcept Y D _ }
  suffices hall : C Value (e.bareIn .initFirst) (e.bareIn .tagsFirst) from hall X fun _ h => h
  refine (h.and hX).evalWith_congr hC ?_ ?_
  · intro d _ pos _ x y hxy Y hY
    rw [Exec.adapt_id, Exec.adapt_id]
    exact hxy Y hY
  · rintro target dynamic tags init pos ⟨⟨-, hdynamic, htags⟩, hsettled⟩ - hinit Y hY
    obtain ⟨values, hvalues⟩ := evalTags_constant htags
    rw [hvalues, hvalues, map_pure]
    refine couples_runDefinition hdynamic (hinit _ fun v hv => .inl (hY v hv)) ?_
    exact hsettled.imp (fun h => hY target (h target rfl)) fun havoids => evalInit_keeps_metadata havoids .tagsFirst

end Expr

/-! ### Analysis -/

namespace World

namespace AlikeBut
variable {X D : Var → Prop} {w w' u : World}

/-- A change of both worlds that leaves the cells alone, with any log. -/
theorem carry {cells : Table Var Cell} {log : List LogRecord} (h : w.AlikeBut X D { w with cells, log })
    (hu : u.cells = w.cells) (log' : List LogRecord) : u.AlikeBut X D { u with cells, log := log' } := by
  have hcell : ∀ v, u.cell v = w.cell v := fun v => by rw [cell, cell, hu]
  refine ⟨rfl, fun v => ?_, fun v => ?_, fun v hv => ?_, fun v hv => ?_⟩
  · rw [hcell]
    exact h.root v
  · rw [hcell]
    exact h.dynamic v
  · rw [hcell]
    exact h.metadata v hv
  · rw [hcell]
    exact h.flagged v hv

theorem setDynamic (h : w.AlikeBut X D w') (v : Var) : (w.setDynamic v).AlikeBut X D (w'.setDynamic v) := by
  refine ⟨h.frame, fun u => ?_, fun u => ?_, fun u hu => ?_, fun u hu => ?_⟩
  · rw [root_setDynamic, root_setDynamic, h.root]
  · rw [dynamic_setDynamic, dynamic_setDynamic, h.dynamic]
  · rw [metadata_setDynamic, metadata_setDynamic, h.metadata u hu]
  · rw [dynamic_setDynamic, h.flagged u hu, ite_self]

theorem addTag (h : w.AlikeBut X D w') (v : Var) (k : Key) (value : Value) :
    (w.addTag v k value).AlikeBut X D (w'.addTag v k value) := by
  unfold World.addTag
  refine ⟨h.frame, fun u => ?_, fun u => ?_, fun u hu => ?_, fun u hu => ?_⟩
  · rw [root_setMetadata, root_setMetadata, h.root]
  · rw [dynamic_setMetadata, dynamic_setMetadata, h.dynamic]
  · rw [metadata_setMetadata, metadata_setMetadata]
    split
    · next huv => rw [← huv, h.metadata u hu]
    · exact h.metadata u hu
  · rw [dynamic_setMetadata, h.flagged u hu]

theorem warn (h : w.AlikeBut X D w') (warning : Warning) : (w.warn warning).AlikeBut X D (w'.warn warning) := by
  refine h.update (f := fun w => w.warn warning) (fun w => ?_) fun w => ?_
  · simp only [World.warn]
    split <;> rfl
  · simp only [World.warn, World.frame]
    split <;> rfl

end AlikeBut

end World

/-- Analysis does the same in worlds that differ in metadata. -/
theorem alike_analysis (X D : Var → Prop) (ctx : Context) :
    AnalysisEffects ctx fun _ x y => Exec.Couples (World.AlikeBut X D) (World.AlikeBut X D) FailAlike x y := by
  have hcoupling : AnalysisCoupling (World.AlikeBut X D) := {
    names := fun h => by
      obtain ⟨cells, log, rfl⟩ := h.exists_eq
      exact ⟨rfl, rfl⟩
    intern := fun {w u} ns name h => by
      obtain ⟨cells, log, rfl⟩ := h.exists_eq
      obtain ⟨namespaces, nextId, log', hintern⟩ := w.intern_eq ns name
      have hfollowing := World.intern_following (w := w) (u := { w with cells, log }) ⟨rfl, rfl⟩ ns name
      rw [hfollowing, hintern]
      exact h.carry (by rfl) _
    flag := fun v h => h.setDynamic v
    warn := fun warning h => h.warn warning
    addTag := fun v k value h => h.addTag v k value }
  exact hcoupling.effects (fun err _ _ h => h.failAlike err) ctx

/-! ### Sessions -/

/-- The answers of a session that goes on after failures, each with the world that it leaves. -/
def transcript (options : Options) (engine : Engine) : List Form → World → List (EStateM.Result Error World Value)
  | [], _ => []
  | form :: rest, w =>
    evalFormWith options engine form w ::
      transcript options engine rest (Exec.finalWorld (evalFormWith options engine form) w)

/-- Equal answers, in worlds that differ in the metadata of vars of `X` at most. -/
def AnswerAlike (X : Var → Prop) : EStateM.Result Error World Value → EStateM.Result Error World Value → Prop :=
  Exec.Corresponds (World.AlikeBut X fun _ => False) fun err err' w w' =>
    err = err' ∧ w.AlikeBut X (fun _ => False) w'

theorem evalFormWith_alike {options : Options} {form : Form} {X : Var → Prop} {w w' : World}
    (hform : form.EveryTag fun tag => tag.isInert = true)
    (hX : ∀ e w₁, analyzeTopLevel options form w = .ok e w₁ → e.Every (Expr.Settled X))
    (h : w.AlikeBut X (fun _ => False) w') :
    Exec.Corresponds (World.AlikeBut X fun _ => False) FailAlike (evalFormWith options .direct form w)
      (evalFormWith options .machine form w') := by
  have hcontext : topLevelContext options w' form.span.line = topLevelContext options w form.span.line := by
    rw [topLevelContext, topLevelContext, h.same World.current fun _ => rfl]
  have hanalysis : Exec.Corresponds (World.AlikeBut X fun _ => False) FailAlike (analyzeTopLevel options form w)
      (analyzeTopLevel options form w') := by
    have := (alike_analysis X (fun _ => False) (topLevelContext options w form.span.line)).analyze form w w' h
    rwa [show analyzeTopLevel options form w' = _ from
      congrArg (fun ctx => analyze ctx form w') hcontext]
  cases hw : analyzeTopLevel options form w with
  | error err w₁ =>
    rw [hw] at hanalysis
    obtain ⟨err', w₁', hw', hfail⟩ := hanalysis.of_error
    rw [evalFormWith_of_analyze_error hw, evalFormWith_of_analyze_error hw']
    exact hfail
  | ok e w₁ =>
    rw [hw] at hanalysis
    obtain ⟨w₁', hw', halike⟩ := hanalysis.of_ok
    obtain ⟨log, hdirect⟩ := evalFormWith_of_analyze hw .direct
    obtain ⟨log', hmachine⟩ := evalFormWith_of_analyze hw' .machine
    rw [hdirect, hmachine]
    -- the flags that analysis set are in both worlds, so the nodes may rely on them
    have hnode : e.Every (Expr.Analyzed (topLevelContext options w form.span.line)
        (fun v => (w₁.cell v).dynamic = true) Expr.Constant) :=
      analyzed_of_analyze Expr.constant_const constant_of_isInert hform hw
    have hflagged : World.AlikeBut X (fun v => (w₁.cell v).dynamic = true) { w₁ with log } { w₁' with log := log' } :=
      ⟨halike.frame, halike.root, halike.dynamic, halike.metadata, fun _ h => h⟩
    have hrun : Exec.Couples (World.AlikeBut X fun v => (w₁.cell v).dynamic = true)
        (World.AlikeBut X fun v => (w₁.cell v).dynamic = true) FailAlike
        (Exec.locating (options.position form) (e.bareIn .initFirst))
        (Exec.locating (options.position form) (e.bareIn .tagsFirst)) :=
      (Expr.couples_bareIn hnode (hX e w₁ hw)).adapt fun err err' u u' hfail => ⟨by rw [hfail.1], hfail.2⟩
    exact (hrun _ _ hflagged).imp
      (fun u u' hu => ⟨hu.frame, hu.root, hu.dynamic, hu.metadata, fun _ h => h.elim⟩) fun _ _ _ _ hfail => hfail

theorem AnswerAlike.finalWorld {X : Var → Prop} {x y : Exec Value} {w w' : World} (h : AnswerAlike X (x w) (y w')) :
    (Exec.finalWorld x w).AlikeBut X (fun _ => False) (Exec.finalWorld y w') := by
  cases hx : x w with
  | ok value u =>
    rw [hx] at h
    obtain ⟨u', hy, hu⟩ := h.of_ok
    rwa [Exec.finalWorld_of_ok hx, Exec.finalWorld_of_ok hy]
  | error err u =>
    rw [hx] at h
    obtain ⟨err', u', hy, -, hu⟩ := h.of_error
    rwa [Exec.finalWorld_of_error hx, Exec.finalWorld_of_error hy]

theorem transcript_alike {options : Options} {forms : List Form}
    (hforms : ∀ form ∈ forms, form.EveryTag fun tag => tag.isInert = true) {w w' : World}
    (h : w.AlikeBut (fun _ => True) (fun _ => False) w') :
    List.Forall₂ (AnswerAlike fun _ => True) (transcript options .direct forms w)
      (transcript options .machine forms w') := by
  induction forms generalizing w w' with
  | nil => exact .nil
  | cons form rest ih =>
    obtain ⟨hform, hrest⟩ := List.forall_mem_cons.mp hforms
    have hanswer : AnswerAlike (fun _ => True) (evalFormWith options .direct form w)
        (evalFormWith options .machine form w') :=
      evalFormWith_alike hform (fun e _ _ => Expr.every_of_forall (fun d => .inl fun _ _ => trivial) e) h
    exact .cons hanswer (ih hrest hanswer.finalWorld)

/-- In every form of the session, no definition has a definition of the same var in its initial value. -/
def DefinesOnce (options : Options) : List Form → World → Prop
  | [], _ => True
  | form :: rest, w =>
    (∀ e w₁, analyzeTopLevel options form w = .ok e w₁ → e.Every Expr.DefinesOnce) ∧
      DefinesOnce options rest (Exec.finalWorld (evalFormWith options .direct form) w)

/-- Where all forms succeed and define each var once, not even metadata differs. -/
theorem transcript_same {options : Options} {forms : List Form}
    (hforms : ∀ form ∈ forms, form.EveryTag fun tag => tag.isInert = true) {w w' : World}
    (honce : DefinesOnce options forms w)
    (hok : ∀ answer ∈ transcript options .direct forms w, ∃ value u, answer = .ok value u)
    (h : w.AlikeBut (fun _ => False) (fun _ => False) w') :
    List.Forall₂ (AnswerAlike fun _ => False) (transcript options .direct forms w)
      (transcript options .machine forms w') := by
  induction forms generalizing w w' with
  | nil => exact .nil
  | cons form rest ih =>
    obtain ⟨hform, hrest⟩ := List.forall_mem_cons.mp hforms
    obtain ⟨⟨value, u, hvalue⟩, hok⟩ := List.forall_mem_cons.mp hok
    have hanswer : AnswerAlike (fun _ => False) (evalFormWith options .direct form w)
        (evalFormWith options .machine form w') := by
      have halike := evalFormWith_alike hform (fun e w₁ he => (honce.1 e w₁ he).mono fun _ hd => .inr hd) h
      -- the form succeeds; a failure could leave metadata that differs
      rw [hvalue] at halike ⊢
      obtain ⟨u', hvalue', hu⟩ := halike.of_ok
      rw [hvalue']
      exact ⟨rfl, hu⟩
    exact .cons hanswer (ih hrest honce.2 hok hanswer.finalWorld)

/-! ### Main result -/

/-- Where the metadata of all definitions is plain data, the two engines give the same answers throughout a session,
in worlds that differ in the metadata of vars at most. Where moreover every form succeeds and no definition has a
definition of the same var in its initial value, the metadata is the same too. This rests on what native functions are
given, which is their arguments and the host: one that read metadata, or called back into the session, could tell the
engines apart. -/
theorem engines_agree (options : Options) (forms : List Form) (w : World)
    (hforms : ∀ form ∈ forms, form.EveryTag fun tag => tag.isInert = true) :
    List.Forall₂ (AnswerAlike fun _ => True) (transcript options .direct forms w)
        (transcript options .machine forms w) ∧
      ((∀ answer ∈ transcript options .direct forms w, ∃ value u, answer = .ok value u) →
        DefinesOnce options forms w →
        List.Forall₂ (AnswerAlike fun _ => False) (transcript options .direct forms w)
          (transcript options .machine forms w)) :=
  ⟨transcript_alike hforms (.refl _ w), fun hok honce => transcript_same hforms honce hok (.refl _ w)⟩

/-- A session whose first form fails inside an initial value, with metadata stored by one engine only, and goes on;
and one that succeeds. -/
theorem engines_agree_session :
    let w := World.start {} .watching
    let data : Form := .vector [.int 1, Form.quote (.symbol (.unqualified "x"))]
    let target : Form := .symbol ⟨none, "a", some [(.keyword "k", data)]⟩
    let failing : Form := .list [.symbol (.unqualified "def"), target, .list [.symbol (.unqualified "a")]]
    let plain : Form := .list [.symbol (.unqualified "def"), .symbol (.unqualified "a"), .int 1]
    (failing.EveryTag (fun tag => tag.isInert = true) ∧ plain.EveryTag fun tag => tag.isInert = true) ∧
      List.Forall₂ (AnswerAlike fun _ => True) (transcript {} .direct [failing, plain] w)
        (transcript {} .machine [failing, plain] w) ∧
      List.Forall₂ (AnswerAlike fun _ => False) (transcript {} .direct [plain] w)
        (transcript {} .machine [plain] w) := by
  intro w data target failing plain
  have hfailing : failing.EveryTag fun tag => tag.isInert = true :=
    ⟨⟨by decide, ⟨trivial, trivial, trivial⟩, trivial⟩, ⟨trivial, trivial⟩, trivial⟩
  have hplain : plain.EveryTag fun tag => tag.isInert = true := ⟨trivial, trivial, trivial⟩
  refine ⟨⟨hfailing, hplain⟩, (engines_agree {} [failing, plain] w (by simp [hfailing, hplain])).1, ?_⟩
  refine (engines_agree {} [plain] w (by simp [hplain])).2 ?_ ⟨fun e w₁ h => ?_, trivial⟩
  · intro answer hanswer
    rw [List.mem_singleton.mp hanswer]
    have hsucceeds : Exec.okWith (fun _ _ => true) (evalFormWith {} .direct plain w) = true := by
      decide +kernel
    obtain ⟨value, u, h, -⟩ := Exec.exists_of_okWith hsucceeds
    exact ⟨value, u, h⟩
  · have hdef : analyzeDefinition (topLevelContext {} w 0) ((topLevelContext {} w 0).ownTags none)
        (.symbol (.unqualified "a")) (pure []) (pure (some (.const (.int 1)))) w = .ok e w₁ := h
    rw [analyzeDefinition_symbol] at hdef
    obtain ⟨v, u, -, hnode⟩ := Exec.bind_eq_ok hdef
    cases hnode
    refine .define ?_ ?_ ?_
    · rintro _ ⟨⟩
      exact .const (by simp [Expr.target?])
    · intro t ht
      obtain ⟨entry, -, rfl⟩ := List.mem_map.mp ht
      exact .const trivial
    · rintro _ ⟨⟩
      exact .const trivial

end LispCore
