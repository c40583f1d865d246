import LispCore.Proofs.Engines

/-! # One definition with the two engines

Direct evaluation binds the initial value of a definition before it computes the metadata; compiled code stores
the metadata before it computes the initial value. This can be seen in the order of events, and in the metadata that
is left when the initial value fails or defines the same var again. With metadata that is plain data it can be seen
in nothing else. -/

namespace LispCore

namespace Expr

/-- The metadata of a definition, with errors as they are raised. -/
def metadataIn (order : DefOrder) (tags : List (Key × Expr)) : Exec (Table Key Value) :=
  Table.ofList <$> evalTags (fun _ error => error) order tags

/-- The initial value of a definition, with errors as they are raised. -/
def initialIn (order : DefOrder) (init : Option Expr) : Exec (Option Value) :=
  evalInit (fun _ error => error) order init

variable {target : Var} {dynamic : Bool} {tags : List (Key × Expr)} {init : Option Expr} {pos : SourcePos}

theorem bareIn_define (order : DefOrder) :
    (Expr.define target dynamic tags init pos).bareIn order =
      runDefinition order target dynamic (metadataIn order tags) (initialIn order init) := by
  rw [bareIn, evalWith_define, Exec.adapt_id]
  rfl

theorem eval_define (h : At pos (.define target dynamic tags init pos)) :
    (Expr.define target dynamic tags init pos).eval =
      Exec.locating pos (runDefinition .initFirst target dynamic (metadataIn .initFirst tags)
        (initialIn .initFirst init)) := by
  rw [← bareIn_define, ← h.locating_evalWith Error.locate rfl, evalWith_define, eval, evalIn, evalWith_define]
  exact (Exec.adapt_locate_locate pos pos _).symm

/-- The chunk of a definition, whatever the span it is compiled with. -/
theorem run_define (h : At pos (.define target dynamic tags init pos)) (span : Span) (w : World) : ∃ log,
    ((Expr.define target dynamic tags init pos).toChunk pos.file span).run w =
      Exec.locating pos (runDefinition .tagsFirst target dynamic (metadataIn .tagsFirst tags)
        (initialIn .tagsFirst init)) { w with log } := by
  have hlocating := h.locating_evalWith (blameIn pos.file) rfl .tagsFirst
  rw [evalWith_define, locating_adapt_blameIn, bareIn_define] at hlocating
  rw [run_toChunk, evalWith_define, locating_adapt_blameIn]
  exact ⟨_, congrFun hlocating (w.note _)⟩

/-- A node in which nothing is defined leaves all cells alone, however it ends. -/
theorem cells_of_no_definition {e : Expr} (h : e.Every fun d => d.target? = none) (order : DefOrder) (w : World) :
    (Exec.finalWorld (e.bareIn order) w).cells = w.cells := by
  have htargets : e.Every fun d => ∀ v ∈ d.target?, False := by
    refine h.mono fun d hd v hv => ?_
    rw [hd] at hv
    cases hv
  have hsteps := htargets.steps_bareIn order w
  generalize Exec.finalWorld (e.bareIn order) w = w' at hsteps
  induction hsteps with
  | refl => rfl
  | tail _ hstep ih =>
    cases hstep with
    | host | enter => exact ih
    | bind _ hD | store _ hD | flag hD => exact hD.elim

end Expr

/-! ### What a definition leaves -/

section RunDefinition
variable {v : Var} {dynamic : Bool} {tags : Exec (Table Key Value)} {metadata : Table Key Value}
  {init : Exec (Option Value)} {w u : World} {value : Value} {err : Error}

/-- Direct evaluation leaves the metadata that it has computed last. -/
theorem metadata_of_initFirst (h : runDefinition .initFirst v dynamic tags init w = .ok value u) :
    ∃ w₁ w₂, tags w₁ = .ok (u.cell v).metadata w₂ := by
  rw [Expr.runDefinition_initFirst] at h
  obtain ⟨found, w₁, -, h⟩ := Exec.bind_eq_ok h
  obtain ⟨_, w₂, -, h⟩ := Exec.bind_eq_ok h
  obtain ⟨metadata, w₃, htags, h⟩ := Exec.bind_eq_ok h
  cases h
  refine ⟨w₂, w₃, ?_⟩
  rwa [World.metadata_markDynamic, World.metadata_setMetadata, if_pos rfl]

/-- Compiled code comes to the initial value with the metadata stored. -/
theorem runDefinition_tagsFirst_apply (v : Var) (dynamic : Bool) (metadata : Table Key Value)
    (init : Exec (Option Value)) (w : World) :
    runDefinition .tagsFirst v dynamic (pure metadata) init w =
      (init >>= fun found => do
        modify fun w => found.elim w (w.bindRoot v)
        pure (Value.var v) : Exec Value) ((w.markDynamic v dynamic).setMetadata v metadata) := by
  rw [Expr.runDefinition_tagsFirst]
  rfl

/-- Compiled code leaves the metadata that it has computed, if the initial value does not change it. -/
theorem metadata_of_tagsFirst
    (hkeep : ∀ w found w', init w = .ok found w' → (w'.cell v).metadata = (w.cell v).metadata)
    (h : runDefinition .tagsFirst v dynamic tags init w = .ok value u) :
    ∃ w₁ w₂, tags w₁ = .ok (u.cell v).metadata w₂ := by
  rw [Expr.runDefinition_tagsFirst] at h
  obtain ⟨_, w₁, -, h⟩ := Exec.bind_eq_ok h
  obtain ⟨metadata, w₂, htags, h⟩ := Exec.bind_eq_ok h
  obtain ⟨_, w₃, hstore, h⟩ := Exec.bind_eq_ok h
  cases hstore
  obtain ⟨found, w₄, hfound, h⟩ := Exec.bind_eq_ok h
  have hstored := hkeep _ found w₄ hfound
  rw [World.metadata_setMetadata, if_pos rfl] at hstored
  have hleft : (u.cell v).metadata = metadata := by
    cases h
    cases found with
    | none => exact hstored
    | some initial => exact (World.metadata_bindRoot w₄ v initial v).trans hstored
  exact ⟨w₁, w₂, by rwa [hleft]⟩

theorem init_of_initFirst_error (h : runDefinition .initFirst v dynamic (pure metadata) init w = .error err u) :
    init w = .error err u := by
  rw [Expr.runDefinition_initFirst] at h
  rcases Exec.bind_eq_error h with h | ⟨found, w₁, -, h⟩
  · exact h
  · cases h

theorem init_of_tagsFirst_error (h : runDefinition .tagsFirst v dynamic (pure metadata) init w = .error err u) :
    init ((w.markDynamic v dynamic).setMetadata v metadata) = .error err u := by
  rw [runDefinition_tagsFirst_apply] at h
  rcases Exec.bind_eq_error h with h | ⟨found, w₁, -, h⟩
  · exact h
  · cases h

end RunDefinition

/-! ### Agreement -/

/-- The same events in the same order, and the same root value of every var. -/
structure World.SameEffects (w w' : World) : Prop where
  events : w.host.events = w'.host.events
  root : ∀ v, (w.cell v).root = (w'.cell v).root

/-- The same metadata of every var. -/
def World.SameMetadata (w w' : World) : Prop :=
  ∀ v, (w.cell v).metadata = (w'.cell v).metadata

theorem World.AlikeBut.sameEffects {X D : Var → Prop} {w w' : World} (h : w.AlikeBut X D w') : w.SameEffects w' :=
  ⟨h.same (fun w => w.host.events) fun _ => rfl, h.root⟩

theorem World.AlikeBut.sameMetadata_iff {D : Var → Prop} {v : Var} {w w' : World} (h : w.AlikeBut (· = v) D w') :
    w.SameMetadata w' ↔ (w.cell v).metadata = (w'.cell v).metadata := by
  refine ⟨fun hsame => hsame v, fun hv u => ?_⟩
  by_cases huv : u = v
  · rw [huv, hv]
  · exact h.metadata u huv

section Agreement
variable {ctx : Context} {form : Form} {w₀ w : World} {v : Var} {dynamic : Bool} {tags : List (Key × Expr)}
  {init : Option Expr} {pos : SourcePos}

theorem metadataIn_of_inert (h : analyze ctx form w₀ = .ok (.define v dynamic tags init pos) w)
    (hform : form.EveryTag fun tag => tag.isInert = true) :
    ∃ metadata, ∀ order, Expr.metadataIn order tags = pure metadata := by
  have hnode := analyzed_of_analyze Expr.constant_const constant_of_isInert hform h
  cases hnode with
  | define hdef _ _ =>
    obtain ⟨values, hvalues⟩ := Expr.evalTags_constant hdef.2.2
    refine ⟨Table.ofList values, fun order => ?_⟩
    rw [Expr.metadataIn, hvalues, map_pure]

/-- A definition that analysis made, in the two orders. -/
theorem runDefinition_alike (h : analyze ctx form w₀ = .ok (.define v dynamic tags init pos) w)
    (hform : form.EveryTag fun tag => tag.isInert = true) {X : Var → Prop}
    (hX : (Expr.define v dynamic tags init pos).Every (Expr.Settled X)) (log : List LogRecord) :
    Exec.Corresponds (World.AlikeBut X fun v => (w.cell v).dynamic = true) FailAlike
      (runDefinition .initFirst v dynamic (Expr.metadataIn .initFirst tags) (Expr.initialIn .initFirst init) w)
      (runDefinition .tagsFirst v dynamic (Expr.metadataIn .tagsFirst tags) (Expr.initialIn .tagsFirst init)
        { w with log }) := by
  have hnode := analyzed_of_analyze Expr.constant_const constant_of_isInert hform h
  have hbare := Expr.couples_bareIn hnode hX
  rw [Expr.bareIn_define, Expr.bareIn_define] at hbare
  exact hbare w { w with log } ⟨rfl, fun _ => rfl, fun _ => rfl, fun _ _ => rfl, fun _ h => h⟩

/-- After a success: direct evaluation has left the metadata of the definition, and compiled code has unless the
initial value stored other metadata after it. -/
theorem sameMetadata_of_ok (h : analyze ctx form w₀ = .ok (.define v dynamic tags init pos) w)
    (hform : form.EveryTag fun tag => tag.isInert = true)
    (hsettled : (Expr.define v dynamic tags init pos).Every (Expr.Settled (· = v)))
    {metadata : Table Key Value} (hmetadata : ∀ order, Expr.metadataIn order tags = pure metadata)
    {log : List LogRecord} {value value' : Value} {u u' : World}
    (hdirect : runDefinition .initFirst v dynamic (Expr.metadataIn .initFirst tags) (Expr.initialIn .initFirst init) w =
      .ok value u)
    (hmachine : runDefinition .tagsFirst v dynamic (Expr.metadataIn .tagsFirst tags)
      (Expr.initialIn .tagsFirst init) { w with log } = .ok value' u') :
    (u.SameMetadata u' ↔ (u'.cell v).metadata = metadata) ∧
      ((∀ e ∈ init, e.Avoids v) → u.SameMetadata u') := by
  have halike := runDefinition_alike h hform hsettled log
  rw [hdirect, hmachine] at halike
  rw [hmetadata] at hdirect hmachine
  have hpure : ∀ {found : Table Key Value}, (∃ w₁ w₂, (pure metadata : Exec _) w₁ = .ok found w₂) →
      found = metadata := by
    rintro _ ⟨w₁, w₂, ⟨⟩⟩
    rfl
  have hiff : u.SameMetadata u' ↔ (u'.cell v).metadata = metadata := by
    rw [halike.2.sameMetadata_iff, hpure (metadata_of_initFirst hdirect), eq_comm]
  exact ⟨hiff, fun havoids =>
    hiff.mpr (hpure (metadata_of_tagsFirst (Expr.evalInit_keeps_metadata havoids _) hmachine))⟩

theorem cells_of_initialIn_error (hinit : ∀ e ∈ init, e.Every fun d => d.target? = none) {order : DefOrder}
    {err : Error} {w u : World} (herr : Expr.initialIn order init w = .error err u) : u.cells = w.cells := by
  cases init with
  | none => cases herr
  | some e =>
    have hmap : (e.bareIn order >>= fun a => pure (some a)) w = .error err u := by
      rw [← map_eq_pure_bind]
      exact herr
    rcases Exec.bind_eq_error hmap with herr | ⟨_, _, -, herr⟩
    · have hcells := Expr.cells_of_no_definition (hinit e rfl) order w
      rwa [Exec.finalWorld_of_error herr] at hcells
    · cases herr

/-- After a failure: compiled code has stored the metadata, and direct evaluation has not. -/
theorem sameMetadata_of_error
    (hinit : ∀ e ∈ init, e.Every fun d => d.target? = none)
    {metadata : Table Key Value} (hmetadata : ∀ order, Expr.metadataIn order tags = pure metadata)
    {log : List LogRecord} {err err' : Error} {u u' : World}
    (hdirect : runDefinition .initFirst v dynamic (Expr.metadataIn .initFirst tags) (Expr.initialIn .initFirst init) w =
      .error err u)
    (hmachine : runDefinition .tagsFirst v dynamic (Expr.metadataIn .tagsFirst tags)
      (Expr.initialIn .tagsFirst init) { w with log } = .error err' u') :
    u.SameMetadata u' ↔ (w.cell v).metadata = metadata := by
  rw [hmetadata] at hdirect hmachine
  have hcells := cells_of_initialIn_error hinit (init_of_initFirst_error hdirect)
  have hcells' := cells_of_initialIn_error hinit (init_of_tagsFirst_error hmachine)
  have hleft : ∀ x, u.cell x = w.cell x := fun x => by rw [World.cell, World.cell, hcells]
  have hright : ∀ x, (u'.cell x).metadata = if x = v then metadata else (w.cell x).metadata := by
    intro x
    rw [World.cell, hcells', ← World.cell, World.metadata_setMetadata, World.metadata_markDynamic]
    rfl
  simp only [World.SameMetadata, hleft, hright]
  refine ⟨fun hsame => (hsame v).trans (if_pos rfl), fun hv x => ?_⟩
  split
  · next hx => rw [hx, hv]
  · rfl

/-- A definition runs with its parts in one order when evaluated directly, and in the other when compiled. With
metadata that is plain data, the answer, the events and all root values are nevertheless the same, and there is an
exact condition for the metadata: after a success, that what the initial value stored for the same var agrees with
the metadata of the definition; after a failure, that the var had this metadata before. Native functions that the
initial value calls are given their arguments and the host only, so that none of them sees which order it is. -/
theorem def_agreement (h : analyze ctx form w₀ = .ok (.define v dynamic tags init pos) w) (span : Span) :
    let e := Expr.define v dynamic tags init pos
    let run := (e.toChunk ctx.sourcePath span).run
    (e.eval w = Exec.locating ctx.pos (runDefinition .initFirst v dynamic (Expr.metadataIn .initFirst tags)
        (Expr.initialIn .initFirst init)) w ∧
      ∃ log, run w = Exec.locating ctx.pos (runDefinition .tagsFirst v dynamic (Expr.metadataIn .tagsFirst tags)
        (Expr.initialIn .tagsFirst init)) { w with log }) ∧
    ((form.EveryTag fun tag => tag.isInert = true) →
      Exec.Corresponds World.SameEffects (fun err err' u u' => err = err' ∧ u.SameEffects u') (e.eval w) (run w) ∧
      ∃ metadata, (∀ order, Expr.metadataIn order tags = pure metadata) ∧
        (∀ value value' u u', e.eval w = .ok value u → run w = .ok value' u' → e.Every (Expr.Settled (· = v)) →
          (u.SameMetadata u' ↔ (u'.cell v).metadata = metadata) ∧
          ((∀ i ∈ init, i.Avoids v) → u.SameMetadata u')) ∧
        (∀ err err' u u', e.eval w = .error err u → run w = .error err' u' →
          (∀ i ∈ init, i.Every fun d => d.target? = none) →
          (u.SameMetadata u' ↔ (w.cell v).metadata = metadata))) := by
  intro e run
  have hat := at_of_analyze h
  obtain rfl : pos = ctx.pos := by
    cases hat with
    | define hpos _ _ => exact hpos pos rfl
  have hdirect : e.eval = _ := Expr.eval_define hat
  obtain ⟨log, hmachine⟩ := Expr.run_define hat span w
  have hmachine : run w = _ := hmachine
  refine ⟨⟨congrFun hdirect w, log, hmachine⟩, fun hform => ?_⟩
  rw [hdirect, hmachine]
  obtain ⟨metadata, hmetadata⟩ := metadataIn_of_inert h hform
  refine ⟨?_, metadata, hmetadata, ?_, ?_⟩
  · have halike := runDefinition_alike h hform (X := fun _ => True)
      (Expr.every_of_forall (fun d => .inl fun _ _ => trivial) _) log
    exact (halike.adapt fun err err' u u' hfail => ⟨congrArg _ hfail.1, hfail.2.sameEffects⟩).imp
      (fun u u' hu => hu.sameEffects) fun _ _ _ _ hfail => hfail
  · intro value value' u u' hx hy hsettled
    exact sameMetadata_of_ok h hform hsettled hmetadata (Exec.adapt_eq_ok hx) (Exec.adapt_eq_ok hy)
  · intro err err' u u' hx hy hinit
    obtain ⟨_, hx, -⟩ := Exec.adapt_eq_error hx
    obtain ⟨_, hy, -⟩ := Exec.adapt_eq_error hy
    exact sameMetadata_of_error hinit hmetadata hx hy

end Agreement

/-- A definition with metadata whose initial value, a call of the unbound var itself, fails: the two runs have the same
effects, and leave different metadata. -/
theorem def_agreement_unbound :
    let w₀ := World.start {} .watching
    let ctx := topLevelContext {} w₀ 0
    let target : Form := .symbol ⟨none, "a", some [(.keyword "k", .int 1)]⟩
    let form : Form := .list [.symbol (.unqualified "def"), target, .list [.symbol (.unqualified "a")]]
    ∃ e w err err' u u', analyze ctx form w₀ = .ok e w ∧ e.eval w = .error err u ∧
      (e.toChunk ctx.sourcePath {}).run w = .error err' u' ∧ err = err' ∧ u.SameEffects u' ∧ ¬u.SameMetadata u' := by
  intro w₀ ctx target form
  have hform : form.EveryTag fun tag => tag.isInert = true :=
    ⟨⟨by decide, trivial, trivial⟩, ⟨trivial, trivial⟩, trivial⟩
  have hruns : Exec.okWith (fun e w => Exec.errorWith (fun _ u => Exec.errorWith (fun _ u' =>
      e.target?.any fun v => (u.cell v).metadata.isEmpty && !(u'.cell v).metadata.isEmpty)
      ((e.toChunk ctx.sourcePath {}).run w)) (e.eval w)) (analyze ctx form w₀) = true := by
    decide +kernel
  obtain ⟨e, w, h, hruns⟩ := Exec.exists_of_okWith hruns
  obtain ⟨err, u, heval, hruns⟩ := Exec.exists_of_errorWith hruns
  obtain ⟨err', u', hrun, htest⟩ := Exec.exists_of_errorWith hruns
  refine ⟨e, w, err, err', u, u', h, heval, hrun, ?_⟩
  cases e with
  | define v dynamic tags init pos =>
    obtain ⟨hcorresponds, -⟩ := (def_agreement h {}).2 hform
    rw [heval, hrun] at hcorresponds
    refine ⟨hcorresponds.1, hcorresponds.2, fun hsame => ?_⟩
    obtain ⟨hempty, hstored⟩ := Bool.and_eq_true_iff.mp htest
    rw [← hsame v, hempty] at hstored
    cases hstored
  | _ => cases htest

/-- Where the metadata is not plain data, the order of events tells the engines apart. -/
theorem def_events_in_other_order :
    let w := (World.start {} .watching).withStandardNatives
    let mark (n : Int64) : Form := .list [.symbol (.unqualified "mark"), .int n]
    let target : Form := .symbol ⟨none, "s", some [(.keyword "k", mark 1)]⟩
    let form : Form := .list [.symbol (.unqualified "def"), target, mark 2]
    let events (engine : Engine) := (Exec.finalWorld (evalFormWith {} engine form) w).host.events.filterMap Event.text?
    events .direct = ["mark 2", "mark 1"] ∧ events .machine = ["mark 1", "mark 2"] := by
  decide +kernel

end LispCore
