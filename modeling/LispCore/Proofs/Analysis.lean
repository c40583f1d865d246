import LispCore.Proofs.Names
import LispCore.Proofs.Traversal

/-! # What analysis does and what it makes

Two readings of the traversal: relations between computations that sequencing respects (`AnalysisEffects.analyze`), and
what is known of the nodes that are made (`Expr.Analyzed`). -/

namespace LispCore

/-! ### Effects -/

/-- A relation between computations that sequencing respects and that relates each thing that analysis in `ctx`
does to itself. -/
structure AnalysisEffects (ctx : Context) (C : (α : Type) → Exec α → Exec α → Prop) : Prop
    extends Exec.Congruence C where
  fail : ∀ {α : Type} span fault, C α (ctx.fail span fault) (ctx.fail span fault)
  data : ∀ result : Except Failure Value, C Value (Exec.ofResult result) (Exec.ofResult result)
  resolve : ∀ span sym create, C _ (ctx.blaming span (resolveVar ctx.ns sym create))
    (ctx.blaming span (resolveVar ctx.ns sym create))
  intern : ∀ name, C Var (intern ctx.ns name) (intern ctx.ns name)
  flag : ∀ v, C Unit (modify (·.setDynamic v)) (modify (·.setDynamic v))
  warn : ∀ warning, C Unit (modify (·.warn warning)) (modify (·.warn warning))
  addTag : ∀ v k value, C Unit (modify (·.addTag v k value)) (modify (·.addTag v k value))

namespace AnalysisEffects
variable {ctx : Context} {C : (α : Type) → Exec α → Exec α → Prop}

theorem analyzeSymbol (hC : AnalysisEffects ctx C) (sym : Symbol) (span : Span) :
    C Expr (analyzeSymbol ctx sym span) (LispCore.analyzeSymbol ctx sym span) := by
  refine hC.bind (hC.resolve span sym false) fun found => ?_
  cases found with
  | none => exact hC.fail _ _
  | some v => exact hC.pure _

theorem resolveTarget (hC : AnalysisEffects ctx C) (sym : Symbol) (span : Span) :
    C Var (resolveTarget ctx sym span) (LispCore.resolveTarget ctx sym span) := by
  refine hC.bind (hC.resolve span sym true) fun found => ?_
  cases found with
  | none => exact hC.fail _ _
  | some v =>
    dsimp only
    split
    · exact hC.pure _
    · split
      · exact hC.fail _ _
      · exact hC.intern _

theorem declareDynamic (hC : AnalysisEffects ctx C) (sym : Symbol) (v : Var) :
    C Unit (declareDynamic ctx sym v) (LispCore.declareDynamic ctx sym v) := by
  unfold LispCore.declareDynamic
  split
  · exact hC.flag v
  · split
    · exact hC.warn _
    · exact hC.pure _

theorem attachArglists (hC : AnalysisEffects ctx C) (sym : Symbol) (v : Var) :
    C Unit (attachArglists sym v) (LispCore.attachArglists sym v) := by
  unfold LispCore.attachArglists
  split
  · exact hC.pure _
  · exact hC.bind (hC.data _) fun arglists => hC.addTag v _ arglists

theorem openDefinition (hC : AnalysisEffects ctx C) (sym : Symbol) (span : Span) :
    C Var (openDefinition ctx sym span) (LispCore.openDefinition ctx sym span) :=
  hC.bind (hC.resolveTarget sym span) fun v => hC.bind (hC.declareDynamic sym v) fun _ =>
    hC.bind (hC.attachArglists sym v) fun _ => hC.pure v

theorem analyze (hC : AnalysisEffects ctx C) (form : Form) :
    C Expr (analyze ctx form) (LispCore.analyze ctx form) := by
  -- nothing is claimed of values, so the rules are those of `C` alone
  have L : AnalysisLogic ctx ctx.warnOnEarmuffs (fun _ => True) (fun _ => True) (fun _ => True) (fun _ => True)
      fun α _ x y _ => C α x y := {
    pure := fun _ => hC.pure _
    bind := fun hx hf => hC.bind hx hf
    reject := fun span fault _ => hC.fail span (.parse fault)
    take := fun data => hC.data data.toValue
    symbol := hC.analyzeSymbol
    opening := hC.openDefinition
    tag := fun _ h => h
    const := fun _ => trivial
    atom := fun _ _ => trivial }
  exact L.analyze (Form.everyTag_of_forall (fun _ => trivial) form)

end AnalysisEffects

/-! ### Analysis in two worlds -/

/-- A relation between worlds that have the same names, kept by all that analysis does to both. -/
structure AnalysisCoupling (P : World → World → Prop) : Prop where
  names : ∀ {w u : World}, P w u → w.SameNames u
  intern : ∀ {w u : World} ns name, P w u → P (w.intern ns name).2 (u.intern ns name).2
  flag : ∀ {w u : World} v, P w u → P (w.setDynamic v) (u.setDynamic v)
  warn : ∀ {w u : World} warning, P w u → P (w.warn warning) (u.warn warning)
  addTag : ∀ {w u : World} v k value, P w u → P (w.addTag v k value) (u.addTag v k value)

theorem AnalysisCoupling.effects {P : World → World → Prop} {F : Error → Error → World → World → Prop}
    (hP : AnalysisCoupling P) (hF : ∀ err w u, P w u → F err err w u) (ctx : Context) :
    AnalysisEffects ctx fun _ x y => Exec.Couples P P F x y := {
  Exec.Couples.congruence P F with
  fail := fun _ _ w u h => hF _ w u h
  data := fun result w u h => by
    cases result with
    | ok value => exact ⟨rfl, h⟩
    | error failure => exact hF _ w u h
  resolve := fun span sym create => by
    refine Exec.Couples.adapt (F := fun err err' w u => err = err' ∧ P w u) (fun w u h => ?_) ?_
    · have hfollowing := World.resolveVar_following (hP.names h) ctx.ns sym create
      cases hw : w.resolveVar ctx.ns sym create with
      | error fault =>
        rw [hw] at hfollowing
        rw [resolveVar_of_error hw, resolveVar_of_error hfollowing]
        exact ⟨rfl, h⟩
      | ok p =>
        rw [hw] at hfollowing
        rw [resolveVar_of_ok hw, resolveVar_of_ok hfollowing]
        refine ⟨rfl, ?_⟩
        rcases World.eq_or_eq_intern_of_resolveVar hw with hsame | hintern
        · rw [hsame, World.following_self (hP.names h)]
          exact h
        · have hinterned := hP.intern ctx.ns sym.name h
          rwa [World.intern_following (hP.names h), ← hintern] at hinterned
    · rintro err _ w u ⟨rfl, h⟩
      exact hF _ w u h
  intern := fun name w u h => by
    have hvar : (w.intern ctx.ns name).1 = (u.intern ctx.ns name).1 := by rw [World.intern_following (hP.names h)]
    exact ⟨hvar, hP.intern ctx.ns name h⟩
  flag := fun v => .update fun w u h => hP.flag v h
  warn := fun warning => .update fun w u h => hP.warn warning h
  addTag := fun v k value => .update fun w u h => hP.addTag v k value h }

/-! ### Analysis runs nothing -/

/-- Nothing has run between the two worlds: no event, no monitor, no binding and no root value is new, and no
dynamic flag was taken back. -/
structure World.Silent (w w' : World) : Prop where
  host : w'.host = w.host
  monitors : w'.monitors = w.monitors
  bindings : w'.bindings = w.bindings
  root : ∀ v, (w'.cell v).root = (w.cell v).root
  dynamic : ∀ v, (w.cell v).dynamic = true → (w'.cell v).dynamic = true

namespace World

theorem Silent.refl (w : World) : w.Silent w :=
  ⟨rfl, rfl, rfl, fun _ => rfl, fun _ h => h⟩

theorem Silent.trans {w w' w'' : World} (h : w.Silent w') (h' : w'.Silent w'') : w.Silent w'' :=
  ⟨h'.host.trans h.host, h'.monitors.trans h.monitors, h'.bindings.trans h.bindings,
    fun v => (h'.root v).trans (h.root v), fun v hv => h'.dynamic v (h.dynamic v hv)⟩

theorem silent_of_steps {α : Type} {x : Exec α} (h : Exec.Steps Silent x) (w : World) :
    w.Silent (Exec.finalWorld x w) := by
  have hsteps := h w
  generalize Exec.finalWorld x w = w' at hsteps
  induction hsteps with
  | refl => exact .refl w
  | tail _ hstep ih => exact ih.trans hstep

theorem silent_intern (w : World) (ns name : String) : w.Silent (w.intern ns name).2 := by
  obtain ⟨namespaces, nextId, log, h⟩ := w.intern_eq ns name
  rw [h]
  exact ⟨rfl, rfl, rfl, fun _ => rfl, fun _ h => h⟩

theorem silent_warn (w : World) (warning : Warning) : w.Silent (w.warn warning) := by
  unfold warn
  cases w.audience <;> exact ⟨rfl, rfl, rfl, fun _ => rfl, fun _ h => h⟩

theorem silent_setDynamic (w : World) (v : Var) : w.Silent (w.setDynamic v) := by
  refine ⟨rfl, rfl, rfl, root_setDynamic w v, fun u hu => ?_⟩
  rw [dynamic_setDynamic, hu, ite_self]

theorem silent_addTag (w : World) (v : Var) (k : Key) (value : Value) : w.Silent (w.addTag v k value) :=
  ⟨rfl, rfl, rfl, root_setMetadata w v _, fun u hu => (dynamic_setMetadata w v _ u).trans hu⟩

end World

theorem silent_analysis (ctx : Context) : AnalysisEffects ctx fun _ x _ => Exec.Steps World.Silent x := {
  Exec.steps_congruence World.Silent with
  fail := fun _ _ _ => .refl
  data := fun result w => by cases result <;> exact .refl
  resolve := fun span sym create => by
    refine Exec.steps_adapt _ fun w => .single ?_
    rcases finalWorld_resolveVar ctx.ns sym create w with h | h <;> rw [h]
    · exact .refl w
    · exact w.silent_intern ctx.ns sym.name
  intern := fun name w => .single (w.silent_intern ctx.ns name)
  flag := fun v => Exec.steps_modify fun w => w.silent_setDynamic v
  warn := fun warning => Exec.steps_modify fun w => w.silent_warn warning
  addTag := fun v k value => Exec.steps_modify fun w => w.silent_addTag v k value }

/-! ### Errors of analysis -/

/-- Analysis never locates an error. -/
theorem plain_analysis (ctx : Context) :
    AnalysisEffects ctx fun _ x _ => Exec.Raises (fun err _ => ∃ failure, err = .plain failure) x := {
  Exec.raises_congruence _ with
  fail := fun _ _ _ _ _ h => by cases h; exact ⟨_, rfl⟩
  data := fun result _ _ _ h => by
    cases result with
    | ok => cases h
    | error failure =>
      cases h
      exact ⟨failure, rfl⟩
  resolve := fun span sym create w err w' h => by
    obtain ⟨err₀, h₀, rfl⟩ := Exec.adapt_eq_error h
    cases hw : w.resolveVar ctx.ns sym create with
    | ok p =>
      rw [resolveVar_of_ok hw] at h₀
      cases h₀
    | error fault =>
      rw [resolveVar_of_error hw] at h₀
      cases h₀
      exact ⟨_, rfl⟩
  intern := fun _ _ _ _ h => by cases h
  flag := fun _ _ _ _ h => by cases h
  warn := fun _ _ _ _ h => by cases h
  addTag := fun _ _ _ _ _ _ h => by cases h }

/-! ### What is known of the nodes -/

/-- Flags are never taken back, and if `D` has all the vars that are flagged in the end, the value satisfies `Q`. -/
def Exec.Yields {α : Type} (D : Var → Prop) (Q : α → Prop) (x : Exec α) : Prop :=
  ∀ w a w', x w = .ok a w' → (∀ v, (w.cell v).dynamic = true → (w'.cell v).dynamic = true) ∧
    ((∀ v, (w'.cell v).dynamic = true → D v) → Q a)

theorem Exec.yields_of_silent {α : Type} {D : Var → Prop} {Q : α → Prop} {x : Exec α}
    (h : Exec.Steps World.Silent x) (hQ : ∀ w a w', x w = .ok a w' → (∀ v, (w'.cell v).dynamic = true → D v) → Q a) :
    Exec.Yields D Q x := by
  intro w a w' hx
  have := World.silent_of_steps h w
  rw [Exec.finalWorld_of_ok hx] at this
  exact ⟨this.dynamic, hQ w a w' hx⟩

theorem Exec.Yields.bind {α β : Type} {D : Var → Prop} {x : Exec α} {f : α → Exec β} {Q : α → Prop} {Q' : β → Prop}
    (hx : Exec.Yields D Q x) (hf : ∀ a, Exec.Yields D (fun b => Q a → Q' b) (f a)) : Exec.Yields D Q' (x >>= f) := by
  intro w b w'' h
  obtain ⟨a, w', ha, hb⟩ := Exec.bind_eq_ok h
  obtain ⟨hmono, hQ⟩ := hx w a w' ha
  obtain ⟨hmono', hQ'⟩ := hf a w' b w'' hb
  exact ⟨fun v hv => hmono' v (hmono v hv), fun hD => hQ' hD (hQ fun v hv => hD v (hmono' v hv))⟩

theorem openDefinition_yields (ctx : Context) (D : Var → Prop) (sym : Symbol) (span : Span) :
    Exec.Yields D (fun v => sym.declaresDynamic = true → D v) (openDefinition ctx sym span) := by
  have hsilent := silent_analysis ctx
  refine Exec.Yields.bind (Q := fun _ => True)
    (Exec.yields_of_silent (hsilent.resolveTarget sym span) fun _ _ _ _ _ => trivial) fun v => ?_
  -- the flag set here is still there in the end, so `D` has the var
  refine Exec.Yields.bind (Q := fun _ => sym.declaresDynamic = true → D v)
    (Exec.yields_of_silent (hsilent.declareDynamic sym v) fun w _ w' h hD hdynamic => ?_) fun _ => ?_
  · rw [declareDynamic, if_pos hdynamic] at h
    cases h
    exact hD v (by simp)
  · refine Exec.Yields.bind (Q := fun _ => True)
      (Exec.yields_of_silent (hsilent.attachArglists sym v) fun _ _ _ _ _ => trivial) fun _ => ?_
    intro w a w' h
    cases h
    exact ⟨fun _ h => h, fun _ _ hdynamic _ => hdynamic⟩

/-- The nodes that analysis makes, in the world that it leaves. -/
theorem analyzed_of_analyze {ctx : Context} {M : Form → Prop} {K : Expr → Prop} {form : Form} {e : Expr} {w w' : World}
    (hconst : ∀ value, K (.const value))
    (hK : ∀ {form w e w'}, M form → analyze ctx form w = .ok e w' → K e) (hform : form.EveryTag M)
    (h : analyze ctx form w = .ok e w') :
    e.Every (Expr.Analyzed ctx (fun v => (w'.cell v).dynamic = true) K) := by
  have hsilent := silent_analysis ctx
  have L : AnalysisLogic ctx ctx.warnOnEarmuffs M (fun v => (w'.cell v).dynamic = true) K (fun _ => True)
      fun _ _ x _ Q => Exec.Yields _ Q x := {
    pure := fun hQ _ _ _ h => by
      cases h
      exact ⟨fun _ h => h, fun _ => hQ⟩
    bind := Exec.Yields.bind
    reject := fun _ _ _ _ _ _ h => by cases h
    take := fun data => Exec.yields_of_silent (hsilent.data data.toValue) fun _ _ _ _ _ => trivial
    symbol := fun sym span => Exec.yields_of_silent (hsilent.analyzeSymbol sym span) fun _ _ _ h _ => by
      obtain ⟨found, w₁, -, h⟩ := Exec.bind_eq_ok h
      cases found with
      | none => cases h
      | some v =>
        cases h
        exact ⟨v, rfl⟩
    opening := openDefinition_yields ctx _
    tag := fun hM hQ w e w' h => ⟨(hQ w e w' h).1, fun hD => ⟨hK hM h, (hQ w e w' h).2 hD⟩⟩
    const := hconst
    atom := fun _ _ => trivial }
  exact ((L.analyze hform w e w' h).2 fun _ h => h).mono fun _ h => h.1

end LispCore
