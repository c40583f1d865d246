import LispCore.Proofs.Residue
import LispCore.Proofs.Runs

/-! # What a session never takes back

Namespaces, names, root values and dynamic flags come and stay, and a var that a namespace owns keeps its name until
the name is referred elsewhere. Numbers of vars only go up, so a var that is made differs from all that were made
before. `World.Grows` says this of two worlds, and it composes. One action of a session grows the world
(`Action.grows`), so every run does (`Action.run_grows`).

What an action does is taken apart once, into changes that it makes one after the other (`World.ActsBy.steps`). A
relation that holds of each of them, as growth does, holds of the action. -/

namespace LispCore

/-- The var of which the record says that it was made. -/
def LogRecord.made? : LogRecord → Option Var
  | .interned v => some v
  | _ => none

namespace World

/-- The second world comes after the first. In between, the vars `made` were made, and names were referred to vars
as `referred` lists it. -/
structure Grows (referred : List (String × String × Var)) (made : List Var) (w w' : World) : Prop where
  namespaces : ∀ ns, w.hasNs ns = true → w'.hasNs ns = true
  names : ∀ ns name, (w.lookup ns name).isSome = true → (w'.lookup ns name).isSome = true
  owned : ∀ ns name v, w.lookup ns name = some v → v.ns = ns → (∀ u, (ns, name, u) ∉ referred) →
    w'.lookup ns name = some v
  origin : ∀ ns name v, w'.lookup ns name = some v →
    w.lookup ns name = some v ∨ v ∈ made ∨ (ns, name, v) ∈ referred
  bound : ∀ v, (w.cell v).root.isSome = true → (w'.cell v).root.isSome = true
  dynamic : ∀ v, (w.cell v).dynamic = true → (w'.cell v).dynamic = true
  numbers : w.nextId ≤ w'.nextId
  fresh : ∀ v ∈ made, w.nextId ≤ v.id ∧ v.id < w'.nextId
  distinct : made.Pairwise (·.id < ·.id)
  recorded : w'.log.filterMap LogRecord.made? = w.log.filterMap LogRecord.made? ++ made

section Grows
variable {referred referred' : List (String × String × Var)} {made made' : List Var} {w w₁ w' : World}

theorem Grows.trans (h : w.Grows referred made w₁) (h' : w₁.Grows referred' made' w') :
    w.Grows (referred ++ referred') (made ++ made') w' where
  namespaces := fun ns hns => h'.namespaces ns (h.namespaces ns hns)
  names := fun ns name hname => h'.names ns name (h.names ns name hname)
  owned := by
    intro ns name v hlookup hv hreferred
    have hfirst := h.owned ns name v hlookup hv fun u hu => hreferred u (List.mem_append_left _ hu)
    exact h'.owned ns name v hfirst hv fun u hu => hreferred u (List.mem_append_right _ hu)
  origin := by
    intro ns name v hlookup
    rcases h'.origin ns name v hlookup with hbefore | hmade | hreferred
    · rcases h.origin ns name v hbefore with hbefore | hmade | hreferred
      · exact .inl hbefore
      · exact .inr (.inl (List.mem_append_left _ hmade))
      · exact .inr (.inr (List.mem_append_left _ hreferred))
    · exact .inr (.inl (List.mem_append_right _ hmade))
    · exact .inr (.inr (List.mem_append_right _ hreferred))
  bound := fun v hv => h'.bound v (h.bound v hv)
  dynamic := fun v hv => h'.dynamic v (h.dynamic v hv)
  numbers := Nat.le_trans h.numbers h'.numbers
  fresh := by
    intro v hv
    rcases List.mem_append.mp hv with hv | hv
    · obtain ⟨hlow, hhigh⟩ := h.fresh v hv
      exact ⟨hlow, Nat.lt_of_lt_of_le hhigh h'.numbers⟩
    · obtain ⟨hlow, hhigh⟩ := h'.fresh v hv
      exact ⟨Nat.le_trans h.numbers hlow, hhigh⟩
  distinct := by
    -- numbers made before the middle world are below its next one, the others are not
    refine List.pairwise_append.mpr ⟨h.distinct, h'.distinct, fun v hv u hu => ?_⟩
    exact Nat.lt_of_lt_of_le (h.fresh v hv).2 (h'.fresh u hu).1
  recorded := by rw [h'.recorded, h.recorded, List.append_assoc]

/-! ### Updates -/

/-- An update that maps no name and makes no var. -/
theorem grows_of_namespaces (hnamespaces : w'.namespaces = w.namespaces)
    (hbound : ∀ v, (w.cell v).root.isSome = true → (w'.cell v).root.isSome = true)
    (hdynamic : ∀ v, (w.cell v).dynamic = true → (w'.cell v).dynamic = true) (hnumbers : w.nextId ≤ w'.nextId)
    (hlog : w'.log.filterMap LogRecord.made? = w.log.filterMap LogRecord.made?) : w.Grows [] [] w' := by
  have hlookup := lookup_congr hnamespaces
  exact {
    namespaces := fun ns hns => by rw [hasNs_congr hnamespaces, hns]
    names := fun ns name hname => by rw [hlookup, hname]
    owned := fun ns name v h _ _ => by rw [hlookup, h]
    origin := fun ns name v h => .inl (by rw [← hlookup, h])
    bound := hbound
    dynamic := hdynamic
    numbers := hnumbers
    fresh := by simp
    distinct := .nil
    recorded := by rw [hlog, List.append_nil] }

theorem grows_of_cells (hnamespaces : w'.namespaces = w.namespaces) (hcells : w'.cells = w.cells)
    (hnumbers : w.nextId ≤ w'.nextId) (hlog : w'.log = w.log) : w.Grows [] [] w' := by
  have hcell : ∀ v, w'.cell v = w.cell v := fun v => by rw [cell, cell, hcells]
  refine grows_of_namespaces hnamespaces (fun v hv => ?_) (fun v hv => ?_) hnumbers (by rw [hlog])
  · rw [hcell, hv]
  · rw [hcell, hv]

theorem Grows.refl (w : World) : w.Grows [] [] w :=
  grows_of_cells rfl rfl (Nat.le_refl _) rfl

theorem grows_note {r : LogRecord} (h : r.made? = none) (w : World) : w.Grows [] [] (w.note r) := by
  refine grows_of_namespaces rfl (fun _ => id) (fun _ => id) (Nat.le_refl _) ?_
  rw [note, List.filterMap_append, List.filterMap_cons_none h, List.filterMap_nil, List.append_nil]

theorem grows_bindRoot (w : World) (v : Var) (value : Value) : w.Grows [] [] (w.bindRoot v value) := by
  refine grows_of_namespaces rfl (fun u hu => ?_) (fun u hu => ?_) (Nat.le_refl _) rfl
  · rw [root_bindRoot]
    split
    · rfl
    · exact hu
  · rw [dynamic_bindRoot, hu]

theorem grows_setMetadata (w : World) (v : Var) (metadata : Table Key Value) :
    w.Grows [] [] (w.setMetadata v metadata) := by
  refine grows_of_namespaces rfl (fun u hu => ?_) (fun u hu => ?_) (Nat.le_refl _) rfl
  · rw [root_setMetadata, hu]
  · rw [dynamic_setMetadata, hu]

theorem grows_setDynamic (w : World) (v : Var) : w.Grows [] [] (w.setDynamic v) := by
  refine grows_of_namespaces rfl (fun u hu => ?_) (fun u hu => ?_) (Nat.le_refl _) rfl
  · rw [root_setDynamic, hu]
  · rw [dynamic_setDynamic, hu, ite_self]

/-- A namespace is made, or one gets other aliases. -/
theorem grows_setNs (w : World) {ns : String} {data : Namespace} (h : data.mappings = (w.namespaceAt ns).mappings) :
    w.Grows [] [] (w.setNs ns data) := by
  have hlookup : ∀ m name, (w.setNs ns data).lookup m name = w.lookup m name := by
    intro m name
    rw [lookup, lookup, namespaceAt_setNs]
    split
    · next hm => rw [h, hm]
    · rfl
  exact { Grows.refl w with
    namespaces := fun m hm => by rw [hasNs_setNs, hm, Bool.or_true]
    names := fun m name hname => by rw [hlookup, hname]
    owned := fun m name v h _ _ => by rw [hlookup, h]
    origin := fun m name v h => .inl (by rw [← hlookup, h]) }

theorem grows_ensureNs (w : World) (ns : String) : w.Grows [] [] (w.ensureNs ns) := by
  rcases w.ensureNs_eq ns with h | h <;> rw [h]
  · exact .refl w
  · exact w.grows_setNs rfl

theorem lookup_isSome_refer (w : World) (ns name : String) (v : Var) {m n : String}
    (h : (w.lookup m n).isSome = true) : ((w.refer ns name v).lookup m n).isSome = true := by
  rw [lookup_refer]
  split
  · rfl
  · exact h

theorem hasNs_refer (w : World) (ns name : String) (v : Var) {m : String} (h : w.hasNs m = true) :
    (w.refer ns name v).hasNs m = true := by
  rw [refer, hasNs_setNs, h, Bool.or_true]

theorem grows_refer (w : World) (ns name : String) (v : Var) :
    w.Grows [(ns, name, v)] [] (w.refer ns name v) where
  namespaces := fun _ => hasNs_refer w ns name v
  names := fun _ _ => lookup_isSome_refer w ns name v
  owned := by
    intro m n u hlookup _ hreferred
    rw [lookup_refer, if_neg, hlookup]
    rintro ⟨rfl, rfl⟩
    exact hreferred v (List.mem_singleton_self _)
  origin := by
    intro m n u hlookup
    rw [lookup_refer] at hlookup
    split at hlookup
    · next hmn =>
      obtain ⟨rfl, rfl⟩ := hmn
      cases hlookup
      exact .inr (.inr (List.mem_singleton_self _))
    · exact .inl hlookup
  bound := fun _ => id
  dynamic := fun _ => id
  numbers := Nat.le_refl _
  fresh := by simp
  distinct := .nil
  recorded := by simp [refer, setNs]

/-- A var is made where no var of the namespace has the name. -/
theorem grows_withNextVar {w : World} {ns name : String} (hforeign : ∀ v, w.lookup ns name = some v → v.ns ≠ ns)
    {notes : List LogRecord} (hnotes : ∀ r ∈ notes, r.made? = none) :
    w.Grows [] [w.nextVar ns name]
      (w.withNextVar ns name (w.log ++ notes ++ [.interned (w.nextVar ns name)])) where
  namespaces := fun _ => hasNs_refer w ns name _
  names := fun _ _ => lookup_isSome_refer w ns name _
  owned := by
    intro m n u hlookup hu _
    refine (lookup_refer w ns name _ m n).trans ?_
    rw [if_neg, hlookup]
    rintro ⟨rfl, rfl⟩
    exact hforeign u hlookup hu
  origin := by
    intro m n u hlookup
    have hlookup := (lookup_refer w ns name _ m n).symm.trans hlookup
    split at hlookup
    · cases hlookup
      exact .inr (.inl (List.mem_singleton_self _))
    · exact .inl hlookup
  bound := fun _ => id
  dynamic := fun _ => id
  numbers := Nat.le_succ _
  fresh := by
    intro v hv
    rw [List.mem_singleton.mp hv]
    exact ⟨Nat.le_refl _, Nat.lt_succ_self _⟩
  distinct := List.pairwise_singleton _ _
  recorded := by
    have hnone : notes.filterMap LogRecord.made? = [] := List.filterMap_eq_nil_iff.mpr hnotes
    simp [withNextVar, List.filterMap_append, hnone, LogRecord.made?]

theorem grows_intern (w : World) (ns name : String) : ∃ made, w.Grows [] made (w.intern ns name).2 := by
  rcases w.intern_cases ns name with ⟨v, -, -, h⟩ | ⟨hforeign, notes, hnotes, h⟩
  · rw [h]
    exact ⟨[], .refl w⟩
  · rw [h]
    refine ⟨_, grows_withNextVar hforeign fun r hr => ?_⟩
    obtain ⟨old, rfl⟩ := hnotes r hr
    rfl

end Grows

/-! ### Opening definitions -/

theorem grows_declared (ctx : Context) (sym : Symbol) (v : Var) (w : World) :
    w.Grows [] [] (ctx.declared sym v w) := by
  have hannounced : w.Grows [] [] (ctx.announced sym v w) := by
    unfold Context.announced
    split
    · exact w.grows_setDynamic v
    · split
      · unfold warn
        split
        · refine grows_of_namespaces rfl (fun _ => id) (fun _ => id) (Nat.le_refl _) ?_
          simp [note, LogRecord.made?]
        · exact grows_note (r := .warned _) rfl w
      · exact .refl w
  unfold Context.declared
  cases sym.attachment? with
  | none => exact hannounced
  | some value => exact hannounced.trans (grows_setMetadata _ v _)

theorem grows_resolveTarget {ctx : Context} {sym : Symbol} {span : Span} {w w' : World} {v : Var}
    (h : resolveTarget ctx sym span w = .ok v w') : ∃ made, w.Grows [] made w' := by
  rcases resolveTarget_cases ctx sym span w with
    ⟨-, heq⟩ | ⟨home, u, -, -, -, -, heq⟩ | ⟨-, err, heq⟩ <;> rw [heq] at h <;> cases h
  · exact w.grows_intern ctx.ns sym.name
  · exact ⟨[], .refl w⟩

theorem grows_of_opens {ctx : Context} {opened : List (Symbol × Var)} {w w' : World} (h : ctx.Opens w opened w') :
    ∃ made, w.Grows [] made w' := by
  induction h with
  | nil => exact ⟨[], .refl _⟩
  | cons hresolve _ ih =>
    obtain ⟨made, hmade⟩ := grows_resolveTarget hresolve
    obtain ⟨made', hrest⟩ := ih
    exact ⟨_, (hmade.trans (grows_declared _ _ _ _)).trans hrest⟩

end World

/-! ### Running nodes and code -/

theorem Exec.Corresponds.finalWorld_eq {α : Type} {x y : Exec α} {w w' : World}
    (h : Exec.Corresponds Eq Expr.SameCause (x w) (y w')) : Exec.finalWorld x w = Exec.finalWorld y w' := by
  cases hx : x w with
  | ok a u =>
    rw [hx] at h
    obtain ⟨u', hy, rfl⟩ := h.of_ok
    rw [finalWorld_of_ok hx, finalWorld_of_ok hy]
  | error err u =>
    rw [hx] at h
    obtain ⟨err', u', hy, -, rfl⟩ := h.of_error
    rw [finalWorld_of_error hx, finalWorld_of_error hy]

theorem Expr.steps_evalWith {D : Var → Prop} {e : Expr} (h : ∀ v ∈ e.targets, D v)
    {blame : SourcePos → Error → Error} (hblame : ∀ pos err, (blame pos err).rootCause = err.rootCause)
    (order : DefOrder) : Exec.Steps (Expr.RunStep D) (e.evalWith blame order) := by
  intro w
  -- where errors are located, the world is the same
  have hsame : Exec.finalWorld (e.evalWith blame order) w = Exec.finalWorld (e.bareIn order) w :=
    (Expr.evalWith_sameCause hblame (fun _ _ => rfl) order e w w rfl).finalWorld_eq
  rw [hsame]
  exact (Expr.every_of_targets h).steps_bareIn order w

theorem Expr.steps_eval {D : Var → Prop} {e : Expr} (h : ∀ v ∈ e.targets, D v) :
    Exec.Steps (Expr.RunStep D) e.eval :=
  Expr.steps_evalWith h (fun pos err => err.rootCause_locate pos) .initFirst

namespace Machine

/-- An operation changes the world as a node does: by a call, a monitor, or one write to a var. -/
theorem steps_step (c : Chunk) (op : Op) (stack : Stack) :
    Exec.Steps (Expr.RunStep fun _ => True) (step c op stack) := by
  have hof : ∀ {α : Type} (r : Except Fault α), Exec.Steps (Expr.RunStep fun _ => True) (Exec.ofExcept r) :=
    Expr.steps_ofExcept _
  have hpure : ∀ {α : Type} (a : α), Exec.Steps (Expr.RunStep fun _ => True) (pure a : Exec α) := fun _ _ => .refl
  have hfail : ∀ {α : Type} (fault : Fault), Exec.Steps (Expr.RunStep fun _ => True) (Exec.fail fault : Exec α) :=
    fun _ _ => .refl
  cases op with
  | const index => exact (hof _).bind fun value => hpure _
  | constNil => exact hpure _
  | emptyCollection kind => exact hpure _
  | pushVar index => exact (hof _).bind fun v => hpure _
  | derefVar index => exact (hof _).bind fun v => Exec.Steps.bind (fun w => hof (w.deref v) w) fun value => hpure _
  | setDynamic =>
    refine (hof _).bind fun p => ?_
    split
    · exact (Exec.steps_modify fun w => .flag w trivial).bind fun _ => hpure _
    · exact hfail _
  | setMetadata =>
    refine (hof _).bind fun p => (hof _).bind fun q => ?_
    obtain ⟨metadata, rest⟩ := p
    cases metadata with
    | map entries => exact (Exec.steps_modify fun w => .store w entries trivial).bind fun _ => hpure _
    | _ => exact hfail _
  | bindRoot =>
    exact (hof _).bind fun p => (hof _).bind fun q =>
      (Exec.steps_modify fun w => .bind w _ trivial).bind fun _ => hpure _
  | makeVector count => exact (hof _).bind fun p => hpure _
  | makeSet count => exact (hof _).bind fun p => hpure _
  | makeMap pairs => exact (hof _).bind fun p => (hof _).bind fun entries => hpure _
  | call argCount =>
    exact (hof _).bind fun p => (hof _).bind fun q => (Expr.steps_apply _ _ _).bind fun value => hpure _
  | monitorEnter => exact (hof _).bind fun p => (Expr.steps_enterMonitor _ _).bind fun _ => hpure _
  | dup => exact (hof _).bind fun p => hpure _
  | pop => exact (hof _).bind fun p => hpure _
  | ret => exact hpure _

theorem steps_runCode (c : Chunk) (code : List Instruction) (stack : Stack) :
    Exec.Steps (Expr.RunStep fun _ => True) (runCode c code stack) := by
  induction code generalizing stack with
  | nil => exact fun _ => .refl
  | cons i rest ih =>
    unfold runCode
    split
    · exact fun _ => .refl
    · exact (Exec.steps_adapt _ (steps_step c _ stack)).bind ih

end Machine

/-- Every change that running nodes or code can make is a step of `S`, and so is a record in the log, unless it is of
a var that was made. -/
structure World.RunsBy (S : World → World → Prop) : Prop where
  step : ∀ {D : Var → Prop} {w w' : World}, Expr.RunStep D w w' → S w w'
  note : ∀ (w : World) (r : LogRecord), r.made? = none → S w (w.note r)

namespace World.RunsBy
variable {S : World → World → Prop}

theorem steps_note (h : RunsBy S) {r : LogRecord} (hr : r.made? = none) :
    Exec.Steps S (modify (·.note r) : Exec Unit) :=
  Exec.steps_modify fun w => h.note w r hr

theorem steps_runChunk (h : RunsBy S) (c : Chunk) : Exec.Steps S c.run :=
  (h.steps_note rfl).bind fun _ => (Machine.steps_runCode c c.code []).mono fun _ _ => h.step

theorem steps_runNode (h : RunsBy S) (options : Options) (engine : Engine) (span : Span) (e : Expr) :
    Exec.Steps S (runNode options engine span e) := by
  cases engine with
  | direct => exact (Expr.steps_eval (D := fun _ => True) fun _ _ => trivial).mono fun _ _ => h.step
  | machine =>
    have hcompile : Exec.Steps S (compileTopLevel e options.sourcePath span) :=
      (h.steps_note rfl).bind fun _ _ => .refl
    exact hcompile.bind h.steps_runChunk

theorem steps_evalFormWith (h : RunsBy S) {form : Form} (hanalyze : ∀ ctx, Exec.Steps S (analyze ctx form))
    (options : Options) (engine : Engine) : Exec.Steps S (evalFormWith options engine form) := by
  have htop : Exec.Steps S (analyzeTopLevel options form) :=
    fun w => hanalyze (topLevelContext options w form.span.line) w
  exact htop.bind fun e => (h.steps_note rfl).bind fun _ =>
    Exec.steps_adapt _ (h.steps_runNode options engine form.span e)

end World.RunsBy

/-! ### Sessions -/

/-- What can be done to the world of a session. Vars, nodes and code may have been kept from before, or come from
anywhere else. -/
inductive Action where
  | ensureNs (ns : String)
  | intern (ns name : String)
  | refer (ns name : String) (v : Var)
  | addAlias (ns short target : String)
  | resolve (ns : String) (sym : Symbol) (create : Bool)
  | enterNs (ns : String)
  | defineNative (name : String) (arity : Arity) (body : NativeBody)
  | analyze (ctx : Context) (form : Form)
  | eval (options : Options) (engine : Engine) (form : Form)
  | runNode (options : Options) (engine : Engine) (span : Span) (e : Expr)
  | runCode (c : Chunk)
  | pushBindings (bindings : List (Var × Value))
  | dropGuard (guard : Guard)

namespace Action

/-- The world after an action, whether it failed or not. -/
def perform (w : World) : Action → World
  | .ensureNs ns => w.ensureNs ns
  | .intern ns name => (w.intern ns name).2
  | .refer ns name v => w.refer ns name v
  | .addAlias ns short target => w.addAlias ns short target
  | .resolve ns sym create => Exec.finalWorld (resolveVar ns sym create) w
  | .enterNs ns => w.enterNs ns
  | .defineNative name arity body => (w.defineNative name arity body).2
  | .analyze ctx form => Exec.finalWorld (LispCore.analyze ctx form) w
  | .eval options engine form => Exec.finalWorld (evalFormWith options engine form) w
  | .runNode options engine span e => Exec.finalWorld (LispCore.runNode options engine span e) w
  | .runCode c => Exec.finalWorld c.run w
  | .pushBindings bindings => Exec.finalWorld (LispCore.pushBindings bindings) w
  | .dropGuard guard => w.dropGuard guard

/-- The world after several actions. -/
def run (w : World) (actions : List Action) : World :=
  actions.foldl perform w

/-- The name that an action refers to a var, with the var. -/
def referral? : Action → Option (String × String × Var)
  | .refer ns name v => some (ns, name, v)
  | _ => none

/-- Whether the action is one on the thread's overrides. -/
def binds : Action → Bool
  | .pushBindings _ | .dropGuard _ => true
  | _ => false

/-- Whether the action arranges names and bindings only, and has nothing analysed, run or defined. -/
def arranges : Action → Bool
  | .defineNative .. | .analyze .. | .eval .. | .runNode .. | .runCode _ => false
  | _ => true

end Action

/-- Each change that actions make to names and bindings is a step of `S`. What only some actions do has to be one for
those that are allowed. -/
structure World.ArrangesBy (allowed : Action → Prop) (S : World → World → Prop) : Prop where
  ensureNs : ∀ w ns, S w (w.ensureNs ns)
  current : ∀ (w : World) ns, S w { w with current := ns }
  intern : ∀ w ns name, S w (w.intern ns name).2
  refer : ∀ w ns name v, allowed (.refer ns name v) → S w (w.refer ns name v)
  addAlias : ∀ w ns short target, allowed (.addAlias ns short target) → S w (w.addAlias ns short target)
  rebind : ∀ (w : World) bindings (action : Action), action.binds = true → allowed action → S w { w with bindings }

/-- Each change that actions make is a step of `S`. -/
structure World.ActsBy (allowed : Action → Prop) (S : World → World → Prop) : Prop
    extends World.ArrangesBy allowed S, World.RunsBy S where
  native : ∀ (w : World) name arity body, S w (w.createNative name arity body).2
  analyze : ∀ ctx form, Exec.Steps S (LispCore.analyze ctx form)

section Acts
variable {allowed : Action → Prop} {S : World → World → Prop} {action : Action}

theorem World.ArrangesBy.steps (h : World.ArrangesBy allowed S) (harranges : action.arranges = true)
    (hallowed : allowed action) (w : World) : Relation.ReflTransGen S w (action.perform w) := by
  cases action with
  | ensureNs ns => exact .single (h.ensureNs w ns)
  | intern ns name => exact .single (h.intern w ns name)
  | refer ns name v => exact .single (h.refer w ns name v hallowed)
  | addAlias ns short target => exact .single (h.addAlias w ns short target hallowed)
  | resolve ns sym create =>
    rcases finalWorld_resolveVar ns sym create w with hw | hw <;> rw [Action.perform, hw]
    exact .single (h.intern w ns sym.name)
  | enterNs ns => exact .tail (.single (h.ensureNs w ns)) (h.current _ ns)
  | pushBindings given =>
    obtain ⟨bindings, hw⟩ := finalWorld_pushBindings_eq given w
    rw [Action.perform, hw]
    exact .single (h.rebind w bindings _ rfl hallowed)
  | dropGuard guard =>
    obtain ⟨bindings, hw⟩ := w.dropGuard_eq guard
    rw [Action.perform, hw]
    exact .single (h.rebind w bindings _ rfl hallowed)
  | defineNative | analyze | eval | runNode | runCode => cases harranges

/-- All that an action does, step by step. -/
theorem World.ActsBy.steps (h : World.ActsBy allowed S) (hallowed : allowed action) (w : World) :
    Relation.ReflTransGen S w (action.perform w) := by
  cases action with
  | defineNative name arity body =>
    have hmade := (Relation.ReflTransGen.single (h.intern w w.current name)).tail (h.native _ name arity body)
    exact hmade.tail (h.step (D := fun _ => True) (.bind _ _ trivial))
  | analyze ctx form => exact h.analyze ctx form w
  | eval options engine form => exact h.steps_evalFormWith (fun ctx => h.analyze ctx form) options engine w
  | runNode options engine span e => exact h.steps_runNode options engine span e w
  | runCode c => exact h.steps_runChunk c w
  | _ => exact h.toArrangesBy.steps rfl hallowed w

end Acts

namespace World
variable {w w' : World}

/-- The part `p` of the world is as it was. -/
def Same {β : Type} (p : World → β) (w w' : World) : Prop :=
  p w' = p w

theorem Same.of_steps {β : Type} {p : World → β} (h : Relation.ReflTransGen (Same p) w w') : p w' = p w := by
  induction h with
  | refl => rfl
  | tail _ hstep ih => exact Eq.trans hstep ih

/-- The world grew, and no name was referred. -/
def GrowsTo (w w' : World) : Prop :=
  ∃ made, w.Grows [] made w'

theorem growsTo_of_steps (h : Relation.ReflTransGen GrowsTo w w') : w.GrowsTo w' := by
  induction h with
  | refl => exact ⟨[], .refl w⟩
  | tail _ hstep ih =>
    obtain ⟨made, hmade⟩ := ih
    obtain ⟨made', hmade'⟩ := hstep
    exact ⟨_, hmade.trans hmade'⟩

theorem growsTo_of_cells (hnamespaces : w'.namespaces = w.namespaces) (hcells : w'.cells = w.cells)
    (hnumbers : w.nextId ≤ w'.nextId) (hlog : w'.log = w.log) : w.GrowsTo w' :=
  ⟨[], grows_of_cells hnamespaces hcells hnumbers hlog⟩

theorem growsTo_acts : ActsBy (·.referral? = none) GrowsTo where
  ensureNs w ns := ⟨[], w.grows_ensureNs ns⟩
  current _ _ := growsTo_of_cells rfl rfl (Nat.le_refl _) rfl
  intern := grows_intern
  refer _ _ _ _ h := by cases h
  addAlias w _ _ _ _ := ⟨[], w.grows_setNs rfl⟩
  rebind _ _ _ _ _ := growsTo_of_cells rfl rfl (Nat.le_refl _) rfl
  step h := by
    cases h with
    | host | enter => exact growsTo_of_cells rfl rfl (Nat.le_refl _) rfl
    | bind value => exact ⟨[], grows_bindRoot _ _ value⟩
    | store metadata => exact ⟨[], grows_setMetadata _ _ metadata⟩
    | flag => exact ⟨[], grows_setDynamic _ _⟩
  note w _ h := ⟨[], grows_note h w⟩
  native _ _ _ _ := growsTo_of_cells rfl rfl (Nat.le_succ _) rfl
  analyze ctx form w := by
    obtain ⟨opened, -, hopens, -⟩ := opened_by_analyze ctx form w
    exact .single (grows_of_opens hopens)

end World

namespace Action

/-- One action. -/
theorem grows (w : World) (action : Action) : ∃ made, w.Grows action.referral?.toList made (perform w action) := by
  cases hreferral : action.referral? with
  | none => exact World.growsTo_of_steps (World.growsTo_acts.steps hreferral w)
  | some r =>
    cases action with
    | refer ns name v =>
      cases hreferral
      exact ⟨[], w.grows_refer ns name v⟩
    | _ => cases hreferral

theorem run_grows (w : World) (actions : List Action) :
    ∃ made, w.Grows (actions.filterMap referral?) made (run w actions) := by
  induction actions generalizing w with
  | nil => exact ⟨[], .refl w⟩
  | cons action rest ih =>
    obtain ⟨made, hfirst⟩ := grows w action
    obtain ⟨made', hrest⟩ := ih (perform w action)
    have hreferred : (action :: rest).filterMap referral? = action.referral?.toList ++ rest.filterMap referral? := by
      cases h : action.referral? <;> simp [h]
    rw [hreferred]
    exact ⟨made ++ made', hfirst.trans hrest⟩

end Action

end LispCore
