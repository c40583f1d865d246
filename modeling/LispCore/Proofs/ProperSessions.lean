import LispCore.Proofs.Growth
import LispCore.Proofs.ProperWorlds

/-! # Each element and each key once

Analysis takes data as it stands, a session runs what analysis made of it, and programs call native functions on the
way. All of this keeps worlds proper, so whatever a session has done, every set and every map in it has each element and
each key once (`collections_have_each_once`). -/

namespace LispCore

open Exec (Keeps keeps_pure keeps_throw keeps_modify keeps_ofExcept)

/-! ### Analysis -/

section Analysis
variable (ctx : Context)

theorem keeps_toValue (data : Form) : Keeps Value.Proper (Exec.ofResult data.toValue) := by
  cases h : data.toValue with
  | error failure => exact keeps_throw _
  | ok value => exact keeps_pure (data.proper_toValue h)

theorem keeps_resolveVar (ns : String) (sym : Symbol) (create : Bool) :
    Keeps (fun _ => True) (resolveVar ns sym create) := by
  intro w hw
  refine ⟨?_, fun _ _ _ => trivial⟩
  rcases finalWorld_resolveVar ns sym create w with heq | heq <;> rw [heq]
  · exact hw
  · exact hw.intern ns sym.name

theorem keeps_analyzeSymbol (sym : Symbol) (span : Span) :
    Keeps (fun e => ∃ v, e = .ref v) (analyzeSymbol ctx sym span) := by
  refine ((keeps_resolveVar ctx.ns sym false).adapt _).bind fun found _ => ?_
  cases found with
  | none => exact keeps_throw _
  | some v => exact keeps_pure ⟨v, rfl⟩

theorem keeps_resolveTarget (sym : Symbol) (span : Span) : Keeps (fun _ => True) (resolveTarget ctx sym span) := by
  refine ((keeps_resolveVar ctx.ns sym true).adapt _).bind fun found _ => ?_
  cases found with
  | none => exact keeps_throw _
  | some v =>
    dsimp only
    split
    · exact keeps_pure trivial
    · split
      · exact keeps_throw _
      · exact fun w hw => ⟨hw.intern ctx.ns sym.name, fun _ _ _ => trivial⟩

theorem keeps_openDefinition (sym : Symbol) (span : Span) : Keeps (fun _ => True) (openDefinition ctx sym span) := by
  refine (keeps_resolveTarget ctx sym span).bind fun v _ => ?_
  have hdeclare : Keeps (fun _ => True) (declareDynamic ctx sym v) := by
    unfold declareDynamic
    split
    · exact keeps_modify fun w hw => hw.setDynamic v
    · split
      · exact keeps_modify fun w hw => hw.warn _
      · exact keeps_pure trivial
  have hattach : Keeps (fun _ => True) (attachArglists sym v) := by
    unfold attachArglists
    split
    · exact keeps_pure trivial
    · next form _ =>
      exact (keeps_toValue form).bind fun value hvalue => keeps_modify fun w hw => hw.addTag v _ hvalue
  exact hdeclare.bind fun _ _ => hattach.bind fun _ _ => keeps_pure trivial

/-- The node of a form has proper constants, and analysis leaves a proper world. -/
theorem keeps_analyze (form : Form) : Keeps Expr.Proper (analyze ctx form) := by
  have L : AnalysisLogic ctx ctx.warnOnEarmuffs (fun _ => True) (fun _ => True) (fun _ => True) Value.Proper
      fun _ _ x _ Q => Keeps Q x := {
    pure := keeps_pure
    bind := fun hx hf => hx.bind fun a ha => (hf a).imp fun _ hb => hb ha
    reject := fun _ _ _ => keeps_throw _
    take := keeps_toValue
    symbol := keeps_analyzeSymbol ctx
    opening := fun sym span => (keeps_openDefinition ctx sym span).imp fun _ _ _ => trivial
    tag := fun _ h => h.imp fun _ he => ⟨trivial, he⟩
    const := fun _ => trivial
    atom := fun _ => .atom }
  exact (L.analyze (Form.everyTag_of_forall (fun _ => trivial) form)).imp fun e he => he.mono fun _ h => h.2

end Analysis

/-! ### Top-level forms -/

theorem keeps_analyzeTopLevel (options : Options) (form : Form) : Keeps Expr.Proper (analyzeTopLevel options form) :=
  fun w hw => keeps_analyze (topLevelContext options w form.span.line) form w hw

theorem keeps_compileTopLevel {e : Expr} (h : e.Proper) (source : String) (span : Span) :
    Keeps Chunk.Proper (compileTopLevel e source span) :=
  (keeps_modify fun _ hw => hw.note _).bind fun _ _ => keeps_pure (h.toChunk source span)

theorem keeps_compileForm (options : Options) (form : Form) : Keeps Chunk.Proper (compileForm options form) :=
  (keeps_analyzeTopLevel options form).bind fun _ he => keeps_compileTopLevel he _ _

theorem keeps_runNode (options : Options) (engine : Engine) (span : Span) {e : Expr} (h : e.Proper) :
    Keeps Value.Proper (runNode options engine span e) := by
  cases engine with
  | direct => exact h.keeps_evalWith
  | machine => exact (keeps_compileTopLevel h _ _).bind fun _ hc => hc.keeps_run

theorem keeps_evalFormWith (options : Options) (engine : Engine) (form : Form) :
    Keeps Value.Proper (evalFormWith options engine form) :=
  (keeps_analyzeTopLevel options form).bind fun _ he => (keeps_modify fun _ hw => hw.note _).bind fun _ _ =>
    (keeps_runNode options engine form.span he).adapt _

/-! ### Native functions -/

theorem Behavior.proper_body (behavior : Behavior) : NativeBody.Proper behavior.body := by
  intro args host hargs hhost
  cases behavior with
  | mark =>
    refine ⟨?_, hhost.record hargs⟩
    cases args with
    | nil => exact .atom rfl
    | cons a rest => exact hargs a List.mem_cons_self
  | fail => exact hhost
  | sum =>
    simp only [body]
    cases add 0 args with
    | ok total => exact ⟨.atom rfl, hhost⟩
    | error fault => exact hhost
  | list => exact ⟨.list hargs, hhost⟩
  | raise =>
    simp only [body]
    split <;> exact hhost
  | object =>
    simp only [body]
    split
    · exact ⟨.atom rfl, hhost⟩
    · exact hhost

/-! ### Sessions -/

namespace World.Proper
variable {w : World}

theorem ensureNs (h : w.Proper) (ns : String) : (w.ensureNs ns).Proper := by
  unfold World.ensureNs
  split
  · exact h
  · exact h.carry _ _ _ _ _ _ _

theorem defineNative (h : w.Proper) (name : String) (arity : Arity) {body : NativeBody} (hbody : body.Proper) :
    (w.defineNative name arity body).2.Proper := by
  have hinterned := h.intern w.current name
  have hcreated : ((w.intern w.current name).2.createNative name arity body).2.Proper := by
    refine ⟨hinterned.cells, hinterned.bindings, hinterned.monitors, fun n hn => ?_, hinterned.host⟩
    rcases Table.eq_or_mem_of_mem_insert hn with rfl | hn
    · exact hbody
    · exact hinterned.natives n hn
  have hfunc : ∀ f : Native, (Value.func f).Proper := fun _ => .atom rfl
  exact hcreated.bindRoot _ (hfunc _)

theorem pushBinding (h : w.Proper) (v : Var) {value : Value} (hvalue : value.Proper) :
    (w.pushBinding v value).Proper := by
  refine ⟨h.cells, fun b hb a ha => ?_, h.monitors, h.natives, h.host⟩
  rcases Table.eq_or_mem_of_mem_insert hb with rfl | hb
  · rcases List.mem_cons.mp ha with rfl | ha
    · exact hvalue
    · cases hget : Table.get? w.bindings v with
      | none => simp [hget] at ha
      | some values =>
        obtain ⟨b, hb, -, rfl⟩ := Table.exists_mem_of_get? hget
        rw [hget] at ha
        exact h.bindings b hb a ha
  · exact h.bindings b hb a ha

theorem pushAll (h : w.Proper) {bindings : List (Var × Value)} (hbindings : ∀ b ∈ bindings, b.2.Proper) :
    (bindings.foldl (fun w b => w.pushBinding b.1 b.2) w).Proper := by
  induction bindings generalizing w with
  | nil => exact h
  | cons b rest ih =>
    obtain ⟨hb, hrest⟩ := List.forall_mem_cons.mp hbindings
    exact ih (h.pushBinding b.1 hb) hrest

theorem popBinding (h : w.Proper) (v : Var) : (w.popBinding v).Proper := by
  unfold World.popBinding
  split
  · next hget =>
    obtain ⟨b, hb, -, heq⟩ := Table.exists_mem_of_get? hget
    refine ⟨h.cells, fun b' hb' a ha => ?_, h.monitors, h.natives, h.host⟩
    rcases Table.eq_or_mem_of_mem_insert hb' with rfl | hb'
    · exact h.bindings b hb a (heq ▸ List.mem_cons_of_mem _ ha)
    · exact h.bindings b' hb' a ha
  · exact ⟨h.cells, fun b hb => h.bindings b (List.mem_of_mem_filter hb), h.monitors, h.natives, h.host⟩

theorem dropGuard (h : w.Proper) (guard : Guard) : (w.dropGuard guard).Proper := by
  have hpops : ∀ (vars : List Var) {w : World}, w.Proper → (vars.foldl World.popBinding w).Proper := by
    intro vars
    induction vars with
    | nil => exact fun hw => hw
    | cons v rest ih => exact fun hw => ih (hw.popBinding v)
  exact hpops guard.vars h

end World.Proper

/-- Whatever values the action comes with are proper. -/
def Action.Proper : Action → Prop
  | .defineNative _ _ body => body.Proper
  | .runNode _ _ _ e => e.Proper
  | .runCode c => c.Proper
  | .pushBindings bindings => ∀ b ∈ bindings, b.2.Proper
  | _ => True

/-- The step: one action. -/
theorem World.Proper.perform {w : World} (h : w.Proper) {action : Action} (haction : action.Proper) :
    (action.perform w).Proper := by
  cases action with
  | ensureNs ns => exact h.ensureNs ns
  | intern ns name => exact h.intern ns name
  | refer ns name v => exact h.carry _ _ _ _ _ _ _
  | addAlias ns short target => exact h.carry _ _ _ _ _ _ _
  | resolve ns sym create => exact (keeps_resolveVar ns sym create w h).1
  | enterNs ns => exact (h.ensureNs ns).carry _ _ _ _ _ _ _
  | defineNative name arity body => exact h.defineNative name arity haction
  | analyze ctx form => exact (keeps_analyze ctx form w h).1
  | eval options engine form => exact (keeps_evalFormWith options engine form w h).1
  | runNode options engine span e => exact (keeps_runNode options engine span haction w h).1
  | runCode c => exact (Chunk.Proper.keeps_run haction w h).1
  | pushBindings bindings =>
    rcases finalWorld_pushBindings bindings w with heq | heq <;> rw [Action.perform, heq]
    · exact h
    · exact h.pushAll haction
  | dropGuard guard => exact h.dropGuard guard

/-- The worlds that sessions come to. Besides the actions of a session, its host may write to vars, let another thread
take over, or clear the records. -/
inductive World.Reached : World → Prop where
  | start (options : Options) (audience : Audience) : Reached (.start options audience)
  | act {w : World} {action : Action} : Reached w → action.Proper → Reached (action.perform w)
  | bindRoot {w : World} {value : Value} (v : Var) : Reached w → value.Proper → Reached (w.bindRoot v value)
  | setMetadata {w : World} {metadata : Table Key Value} (v : Var) : Reached w → (Value.map metadata).Proper →
      Reached (w.setMetadata v metadata)
  | startThread {w : World} : Reached w → Reached w.startThread
  | resumeThread {w before : World} : Reached w → Reached before → Reached (w.resumeThread before)
  | clearRecords {w : World} : Reached w → Reached w.clearRecords

/-- The run: all that a session does. -/
theorem World.Reached.proper {w : World} (h : w.Reached) : w.Proper := by
  induction h with
  | start options audience =>
    refine World.Proper.ensureNs ⟨fun v => ⟨?_, .map ?_ ?_⟩, ?_, ?_, ?_, ?_⟩ options.ns
    all_goals simp [World.cell, Table.get?, HostState.Proper]
  | act _ haction ih => exact ih.perform haction
  | bindRoot v _ hvalue ih => exact ih.bindRoot v hvalue
  | setMetadata v _ hmetadata ih => exact ih.setMetadata v hmetadata
  | startThread _ ih => exact ⟨ih.cells, by simp [World.startThread], ih.monitors, ih.natives, ih.host⟩
  | resumeThread _ _ ih ihbefore => exact ⟨ih.cells, ihbefore.bindings, ih.monitors, ih.natives, ih.host⟩
  | clearRecords _ ih =>
    exact ⟨ih.cells, ih.bindings, ih.monitors, ih.natives, by simp [World.clearRecords, HostState.Proper]⟩

theorem World.Reached.withStandardNatives {w : World} (h : w.Reached) : w.withStandardNatives.Reached := by
  unfold World.withStandardNatives
  generalize standardNatives = natives
  induction natives generalizing w with
  | nil => exact h
  | cons n rest ih =>
    have hdefined : ((Action.defineNative n.1 n.2.1 n.2.2.body).perform w).Reached := h.act n.2.2.proper_body
    exact ih hdefined

/-- What a session gives out in this world is proper: values, nodes and code. -/
structure World.GivesProper (w : World) : Prop where
  deref : ∀ v value, w.deref v = .ok value → value.Proper
  analyze : ∀ ctx form e w', LispCore.analyze ctx form w = .ok e w' → e.Proper
  compile : ∀ options form c w', compileForm options form w = .ok c w' → c.Proper
  eval : ∀ options engine form value w', evalFormWith options engine form w = .ok value w' → value.Proper
  runNode : ∀ options engine span e value w', e.Proper → LispCore.runNode options engine span e w = .ok value w' →
    value.Proper
  runCode : ∀ (c : Chunk) value w', c.Proper → c.run w = .ok value w' → value.Proper

theorem World.Proper.gives {w : World} (h : w.Proper) : w.GivesProper where
  deref _ _ hvalue := h.deref hvalue
  analyze ctx form := (keeps_analyze ctx form w h).2
  compile options form := (keeps_compileForm options form w h).2
  eval options engine form := (keeps_evalFormWith options engine form w h).2
  runNode options engine span _ value w' he := (keeps_runNode options engine span he w h).2 value w'
  runCode _ value w' hc := (hc.keeps_run w h).2 value w'

/-- Sets and maps are built without loss: of equal elements, and of entries with equal keys, the last is kept and
nothing else is lost, whether they are built of values or of forms. A map can be built just when every key is a keyword,
a symbol, a string, an int or a bool. So in whatever a session comes to and gives out, the elements of every set and the
keys of every map are unequal to each other. -/
theorem collections_have_each_once :
    (∀ items : List Value, (∀ a ∈ items, a.Proper) → (Value.set (Value.setOf items)).IsSetOf items) ∧
    (∀ items : List Value, items.length % 2 = 0 →
      let pairs := Machine.pairUp items
      Machine.flat pairs = items ∧ ((∃ entries, Value.mapOf pairs = .ok entries) ↔ ∀ p ∈ pairs, p.1.IsKey) ∧
      ∀ entries, Value.mapOf pairs = .ok entries → (Value.map entries).IsMapOf pairs) ∧
    (∀ items span, ((∃ v, (Form.set items span).toValue = .ok v) ↔ ∃ values, Form.ReadAs items values) ∧
      ∀ values v, Form.ReadAs items values → (Form.set items span).toValue = .ok v → v.IsSetOf values) ∧
    (∀ forms span, ((∃ v, (Form.map forms span).toValue = .ok v) ↔
        ∃ pairs, Form.EntriesReadAs forms pairs ∧ ∀ p ∈ pairs, p.1.IsKey) ∧
      ∀ pairs v, Form.EntriesReadAs forms pairs → (Form.map forms span).toValue = .ok v → v.IsMapOf pairs) ∧
    ∀ w : World, w.Reached → w.Proper ∧ w.GivesProper := by
  refine ⟨fun items => Value.isSetOf_setOf, fun items hitems => ?_, fun items span => ?_, fun forms span => ?_,
    fun w h => ⟨h.proper, h.proper.gives⟩⟩
  · exact ⟨Machine.flat_pairUp hitems, Value.mapOf_defined_iff, fun entries => Value.isMapOf_of_mapOf⟩
  · exact ⟨Form.toValue_set_defined_iff, fun values v => Form.isSetOf_of_readAs⟩
  · exact ⟨Form.toValue_map_defined_iff, fun pairs v => Form.isMapOf_of_entriesReadAs⟩

/-- A list and a vector that are equal, as the elements of a set and as the values of one key. A session puts the set
into the root of a var and returns the map. -/
theorem collections_have_each_once_session :
    let items : List Value := [.list [.int 1], .vector [.int 1]]
    let given : List Value := [.keyword "k", .list [.int 1], .keyword "k", .vector [.int 1]]
    let pairs := Machine.pairUp given
    let s : Form := .symbol (.unqualified "s")
    let made : Form := .set [.list [.symbol (.unqualified "list"), .int 1], .vector [.int 1]]
    let form : Form := .list [.symbol (.unqualified "do"), .list [.symbol (.unqualified "def"), s, made],
      .map [(.keyword "k", .vector [s]), (.keyword "k", s)]]
    let w := (World.start {} .watching).withStandardNatives
    (Value.set (Value.setOf items)).IsSetOf items ∧
      (∃ entries, Value.mapOf pairs = .ok entries ∧ (Value.map entries).IsMapOf pairs) ∧
      (∃ v, (Form.set [.list [.int 1], .vector [.int 1]]).toValue = .ok v ∧ v.IsSetOf items) ∧
      ∃ value w', evalFormWith {} .machine form w = .ok value w' ∧ value.Proper ∧ w'.Proper := by
  intro items given pairs s made form w
  obtain ⟨hsets, hmaps, hsetForms, -, hsessions⟩ := collections_have_each_once
  have hone : ∀ a ∈ [Value.int 1], a.Proper := by
    intro a ha
    rw [List.mem_singleton.mp ha]
    exact .atom rfl
  have hitems : ∀ a ∈ items, a.Proper := by
    intro a ha
    simp only [items, List.mem_cons, List.not_mem_nil, or_false] at ha
    rcases ha with rfl | rfl
    · exact .list hone
    · exact .vector hone
  have hread : Form.ReadAs [.list [.int 1], .vector [.int 1]] items := .cons rfl (.cons rfl .nil)
  obtain ⟨-, hdefined, hlast⟩ := hmaps given (by simp [given])
  obtain ⟨entries, hentries⟩ := hdefined.mpr (by simp [given, Machine.pairUp, Value.IsKey, Value.kind])
  obtain ⟨v, hv⟩ := (hsetForms [.list [.int 1], .vector [.int 1]] {}).1.mpr ⟨items, hread⟩
  have hw : w.Reached := (World.Reached.start {} .watching).withStandardNatives
  obtain ⟨value, w', hvalue, -⟩ := Exec.exists_of_okWith (P := fun _ _ => true)
    (show Exec.okWith _ (evalFormWith {} .machine form w) = true by decide +kernel)
  have hw' : (Action.perform w (.eval {} .machine form)).Reached := hw.act trivial
  rw [Action.perform, Exec.finalWorld_of_ok hvalue] at hw'
  exact ⟨hsets items hitems, ⟨entries, hentries, hlast entries hentries⟩,
    ⟨v, hv, (hsetForms _ _).2 items v hread hv⟩,
    ⟨value, w', hvalue, (hsessions w hw).2.eval _ _ _ value w' hvalue, (hsessions w' hw').1⟩⟩

end LispCore
