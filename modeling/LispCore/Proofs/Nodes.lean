import LispCore.Eval
import LispCore.Proofs.Exec

/-! # Nodes and their evaluation

Induction over nodes with their lists of parts, and the predicate `Expr.Every`: something holds at every node
of a tree. Whatever relation between computations sequencing respects, evaluation respects too
(`Expr.Every.evalWith_congr`), so a property of evaluation needs a proof only for the effects of nodes. -/

namespace LispCore

/-! ### Keys -/

theorem Key.ofValue_toValue (k : Key) : Key.ofValue k.toValue = .ok k := by
  cases k <;> rfl

theorem Value.mapOf_tags (tags : List (Key × Value)) :
    Value.mapOf (tags.map fun t => (t.1.toValue, t.2)) = .ok (Table.ofList tags) := by
  have hmap : ∀ f : Value × Value → Except Fault (Key × Value), (∀ t : Key × Value, f (t.1.toValue, t.2) = .ok t) →
      (tags.map fun t => (t.1.toValue, t.2)).mapM f = .ok tags := by
    intro f hf
    induction tags with
    | nil => rfl
    | cons t rest ih =>
      rw [List.map_cons, List.mapM_cons, hf, ih]
      rfl
  rw [Value.mapOf, hmap]
  · rfl
  · intro t
    simp only [Key.ofValue_toValue]
    rfl

/-! ### Calls and monitors -/

theorem callNative_spec (f : Native) (args : List Value) (w : World) :
    (∃ fault, (∀ cause, fault ≠ .stalled cause) ∧ callNative f args w = .error (.of fault) w) ∨
    ∃ body, f.arity.accepts args.length = true ∧ Table.get? w.natives f.id = some body ∧
      ((∃ value host, body args (w.host.record (.called f args)) = .ok value host ∧
          callNative f args w = .ok value { w with host }) ∨
        ∃ err host, body args (w.host.record (.called f args)) = .error err host ∧
          callNative f args w = .error err { w with host }) := by
  unfold callNative
  split
  · next haccepts =>
    split
    · exact .inl ⟨_, by simp, rfl⟩
    · next body hbody =>
      refine .inr ⟨body, haccepts, hbody, ?_⟩
      split
      · next value host hvalue => exact .inl ⟨value, host, hvalue, rfl⟩
      · next err host herr => exact .inr ⟨err, host, herr, rfl⟩
  · exact .inl ⟨_, by simp, rfl⟩

theorem enterMonitor_spec (target : Value) (w : World) :
    (∃ fault, enterMonitor target w = .error (.of fault) w) ∨
    ∃ monitors host, enterMonitor target w = .ok () { w with monitors, host } := by
  unfold enterMonitor
  split
  · next monitors _ =>
    dsimp only
    split
    · exact .inr ⟨monitors, _, rfl⟩
    · exact .inr ⟨monitors, w.host, rfl⟩
  · exact .inl ⟨_, rfl⟩
  · exact .inl ⟨_, rfl⟩

namespace Expr

/-! ### Induction -/

/-- Induction over a node, with the hypothesis for each of its parts. -/
@[elab_as_elim]
theorem nodeInduction {P : Expr → Prop}
    (define : ∀ target dynamic tags init pos, (∀ t ∈ tags, P t.2) → (∀ e ∈ init, P e) →
      P (.define target dynamic tags init pos))
    (empty : ∀ kind, P (.empty kind))
    (enter : ∀ target, P target → P (.enter target))
    (const : ∀ value, P (.const value))
    (ref : ∀ v, P (.ref v))
    (vector : ∀ items, (∀ e ∈ items, P e) → P (.vector items))
    (set : ∀ items, (∀ e ∈ items, P e) → P (.set items))
    (map : ∀ entries, (∀ p ∈ entries, P p.1 ∧ P p.2) → P (.map entries))
    (invoke : ∀ callee args pos, P callee → (∀ e ∈ args, P e) → P (.invoke callee args pos))
    (body : ∀ exprs, (∀ e ∈ exprs, P e) → P (.body exprs)) (e : Expr) : P e := by
  refine @Expr.rec P (fun tags => ∀ t ∈ tags, P t.2) (fun init => ∀ e ∈ init, P e)
    (fun items => ∀ e ∈ items, P e) (fun entries => ∀ p ∈ entries, P p.1 ∧ P p.2) (fun t => P t.2)
    (fun p => P p.1 ∧ P p.2) define empty enter const ref vector set map invoke body
    ?_ ?_ ?_ ?_ ?_ ?_ ?_ ?_ ?_ ?_ e
  · simp
  · intro head tail hhead htail
    exact List.forall_mem_cons.mpr ⟨hhead, htail⟩
  · simp
  · intro e he
    simpa using he
  · simp
  · intro head tail hhead htail
    exact List.forall_mem_cons.mpr ⟨hhead, htail⟩
  · simp
  · intro head tail hhead htail
    exact List.forall_mem_cons.mpr ⟨hhead, htail⟩
  · exact fun _ _ h => h
  · exact fun _ _ hk he => ⟨hk, he⟩

/-- `P` holds at a node and at every node below it. -/
inductive Every (P : Expr → Prop) : Expr → Prop where
  | define {target dynamic tags init pos} : P (.define target dynamic tags init pos) →
      (∀ t ∈ tags, Every P t.2) → (∀ e ∈ init, Every P e) → Every P (.define target dynamic tags init pos)
  | empty {kind} : P (.empty kind) → Every P (.empty kind)
  | enter {target} : P (.enter target) → Every P target → Every P (.enter target)
  | const {value} : P (.const value) → Every P (.const value)
  | ref {v} : P (.ref v) → Every P (.ref v)
  | vector {items} : P (.vector items) → (∀ e ∈ items, Every P e) → Every P (.vector items)
  | set {items} : P (.set items) → (∀ e ∈ items, Every P e) → Every P (.set items)
  | map {entries} : P (.map entries) → (∀ p ∈ entries, Every P p.1) → (∀ p ∈ entries, Every P p.2) →
      Every P (.map entries)
  | invoke {callee args pos} : P (.invoke callee args pos) → Every P callee → (∀ e ∈ args, Every P e) →
      Every P (.invoke callee args pos)
  | body {exprs} : P (.body exprs) → (∀ e ∈ exprs, Every P e) → Every P (.body exprs)

theorem Every.self {P : Expr → Prop} {e : Expr} (h : Every P e) : P e := by
  cases h <;> assumption

theorem Every.mono {P Q : Expr → Prop} {e : Expr} (h : Every P e) (hPQ : ∀ d, P d → Q d) : Every Q e := by
  induction h with
  | define hp _ _ ihtags ihinit => exact .define (hPQ _ hp) ihtags ihinit
  | empty hp => exact .empty (hPQ _ hp)
  | enter hp _ ih => exact .enter (hPQ _ hp) ih
  | const hp => exact .const (hPQ _ hp)
  | ref hp => exact .ref (hPQ _ hp)
  | vector hp _ ih => exact .vector (hPQ _ hp) ih
  | set hp _ ih => exact .set (hPQ _ hp) ih
  | map hp _ _ ihkeys ihvalues => exact .map (hPQ _ hp) ihkeys ihvalues
  | invoke hp _ _ ihcallee ihargs => exact .invoke (hPQ _ hp) ihcallee ihargs
  | body hp _ ih => exact .body (hPQ _ hp) ih

theorem Every.and {P Q : Expr → Prop} {e : Expr} (h : Every P e) (h' : Every Q e) : Every (fun d => P d ∧ Q d) e := by
  induction h with
  | define hp _ _ ihtags ihinit =>
    cases h' with
    | define hq htags hinit =>
      exact .define ⟨hp, hq⟩ (fun t ht => ihtags t ht (htags t ht)) fun e he => ihinit e he (hinit e he)
  | empty hp =>
    cases h' with
    | empty hq => exact .empty ⟨hp, hq⟩
  | enter hp _ ih =>
    cases h' with
    | enter hq htarget => exact .enter ⟨hp, hq⟩ (ih htarget)
  | const hp =>
    cases h' with
    | const hq => exact .const ⟨hp, hq⟩
  | ref hp =>
    cases h' with
    | ref hq => exact .ref ⟨hp, hq⟩
  | vector hp _ ih =>
    cases h' with
    | vector hq hitems => exact .vector ⟨hp, hq⟩ fun e he => ih e he (hitems e he)
  | set hp _ ih =>
    cases h' with
    | set hq hitems => exact .set ⟨hp, hq⟩ fun e he => ih e he (hitems e he)
  | map hp _ _ ihkeys ihvalues =>
    cases h' with
    | map hq hkeys hvalues =>
      exact .map ⟨hp, hq⟩ (fun p hp => ihkeys p hp (hkeys p hp)) fun p hp => ihvalues p hp (hvalues p hp)
  | invoke hp _ _ ihcallee ihargs =>
    cases h' with
    | invoke hq hcallee hargs => exact .invoke ⟨hp, hq⟩ (ihcallee hcallee) fun e he => ihargs e he (hargs e he)
  | body hp _ ih =>
    cases h' with
    | body hq hexprs => exact .body ⟨hp, hq⟩ fun e he => ih e he (hexprs e he)

/-- What holds of all nodes holds at every node of a tree. -/
theorem every_of_forall {P : Expr → Prop} (h : ∀ d, P d) (e : Expr) : Every P e := by
  induction e using nodeInduction with
  | define _ _ _ _ _ ihtags ihinit => exact .define (h _) ihtags ihinit
  | empty kind => exact .empty (h _)
  | enter target ih => exact .enter (h _) ih
  | const value => exact .const (h _)
  | ref v => exact .ref (h _)
  | vector items ih => exact .vector (h _) ih
  | set items ih => exact .set (h _) ih
  | map entries ih => exact .map (h _) (fun p hp => (ih p hp).1) fun p hp => (ih p hp).2
  | invoke callee args pos ihcallee ihargs => exact .invoke (h _) ihcallee ihargs
  | body exprs ih => exact .body (h _) ih

/-! ### Parts of definitions -/

/-- The position that a definition or a call reports. -/
def pos? : Expr → Option SourcePos
  | .define _ _ _ _ pos | .invoke _ _ pos => some pos
  | _ => none

/-- The var that a definition defines. -/
def target? : Expr → Option Var
  | .define target _ _ _ _ => some target
  | _ => none

/-- Every position in the tree is `pos`. -/
def At (pos : SourcePos) (e : Expr) : Prop :=
  Every (fun d => ∀ p ∈ d.pos?, p = pos) e

/-- Nothing in the tree defines `v`. -/
def Avoids (v : Var) (e : Expr) : Prop :=
  Every (fun d => d.target? ≠ some v) e

/-! ### Evaluation -/

/-- The initial value of a definition, if it has one. -/
def evalInit (blame : SourcePos → Error → Error) (order : DefOrder) : Option Expr → Exec (Option Value)
  | some e => some <$> evalWith blame order e
  | none => pure none

theorem evalWith_define (blame : SourcePos → Error → Error) (order : DefOrder) (target : Var) (dynamic : Bool)
    (tags : List (Key × Expr)) (init : Option Expr) (pos : SourcePos) :
    evalWith blame order (.define target dynamic tags init pos) =
      Exec.adapt (blame pos) (runDefinition order target dynamic
        (Table.ofList <$> evalTags blame order tags) (evalInit blame order init)) := by
  cases init <;> simp only [evalWith, evalInit]

/-- Evaluation that leaves every error as it was raised. -/
def bareIn (order : DefOrder) (e : Expr) : Exec Value :=
  e.evalWith (fun _ error => error) order

/-! ### What sequencing respects, evaluation respects -/

section Congruence
variable {C : (α : Type) → Exec α → Exec α → Prop} {blame blame' : SourcePos → Error → Error}
  {order order' : DefOrder}

theorem evalAll_congr (hC : Exec.Congruence C) :
    ∀ {items : List Expr}, (∀ e ∈ items, C Value (e.evalWith blame order) (e.evalWith blame' order')) →
      C _ (evalAll blame order items) (evalAll blame' order' items)
  | [], _ => hC.pure []
  | e :: rest, h => by
    have ⟨he, hrest⟩ := List.forall_mem_cons.mp h
    simp only [evalAll]
    exact hC.bind he fun value => hC.bind (evalAll_congr hC hrest) fun values => hC.pure (value :: values)

theorem evalEntries_congr (hC : Exec.Congruence C) :
    ∀ {entries : List (Expr × Expr)},
      (∀ p ∈ entries, C Value (p.1.evalWith blame order) (p.1.evalWith blame' order')) →
      (∀ p ∈ entries, C Value (p.2.evalWith blame order) (p.2.evalWith blame' order')) →
      C _ (evalEntries blame order entries) (evalEntries blame' order' entries)
  | [], _, _ => hC.pure []
  | (k, e) :: rest, hkeys, hvalues => by
    have ⟨hk, hkeys⟩ := List.forall_mem_cons.mp hkeys
    have ⟨he, hvalues⟩ := List.forall_mem_cons.mp hvalues
    simp only [evalEntries]
    exact hC.bind hk fun key => hC.bind he fun value =>
      hC.bind (evalEntries_congr hC hkeys hvalues) fun values => hC.pure ((key, value) :: values)

theorem evalTags_congr (hC : Exec.Congruence C) :
    ∀ {tags : List (Key × Expr)}, (∀ t ∈ tags, C Value (t.2.evalWith blame order) (t.2.evalWith blame' order')) →
      C _ (evalTags blame order tags) (evalTags blame' order' tags)
  | [], _ => hC.pure []
  | (k, e) :: rest, h => by
    have ⟨he, hrest⟩ := List.forall_mem_cons.mp h
    simp only [evalTags]
    exact hC.bind he fun value => hC.bind (evalTags_congr hC hrest) fun values => hC.pure ((k, value) :: values)

theorem evalBody_congr (hC : Exec.Congruence C) :
    ∀ {exprs : List Expr}, (∀ e ∈ exprs, C Value (e.evalWith blame order) (e.evalWith blame' order')) →
      C Value (evalBody blame order exprs) (evalBody blame' order' exprs)
  | [], _ => hC.pure Value.nil
  | [e], h => by
    simp only [evalBody]
    exact h e List.mem_cons_self
  | e :: e' :: rest, h => by
    have ⟨he, hrest⟩ := List.forall_mem_cons.mp h
    simp only [evalBody]
    exact hC.bind he fun _ => evalBody_congr hC hrest

theorem evalInit_congr (hC : Exec.Congruence C) {init : Option Expr}
    (h : ∀ e ∈ init, C Value (e.evalWith blame order) (e.evalWith blame' order')) :
    C _ (evalInit blame order init) (evalInit blame' order' init) := by
  cases init with
  | none => exact hC.pure none
  | some e => exact hC.map some (h e rfl)

/-- A relation between computations that sequencing respects and that relates the effects of nodes other than
definitions to themselves. -/
structure Respects (C : (α : Type) → Exec α → Exec α → Prop) : Prop extends Exec.Congruence C where
  deref : ∀ v, C Value (deref v) (deref v)
  apply : ∀ callee args, C Value (apply callee args) (apply callee args)
  enter : ∀ target, C Unit (enterMonitor target) (enterMonitor target)
  mapOf : ∀ entries, C _ (Exec.ofExcept (Value.mapOf entries)) (Exec.ofExcept (Value.mapOf entries))

/-- Evaluation in two ways keeps a relation that the effects of nodes keep, if definitions keep it, and if what is
done to errors does. -/
theorem Every.evalWith_congr {P : Expr → Prop} {e : Expr} (hC : Respects C) (h : Every P e)
    (adapt : ∀ d, P d → ∀ pos ∈ d.pos?, ∀ {x y : Exec Value}, C Value x y →
      C Value (x.adapt (blame pos)) (y.adapt (blame' pos)))
    (define : ∀ target dynamic tags init pos, P (.define target dynamic tags init pos) →
      C _ (evalTags blame order tags) (evalTags blame' order' tags) →
      C _ (evalInit blame order init) (evalInit blame' order' init) →
      C Value
        (runDefinition order target dynamic (Table.ofList <$> evalTags blame order tags) (evalInit blame order init))
        (runDefinition order' target dynamic (Table.ofList <$> evalTags blame' order' tags)
          (evalInit blame' order' init))) :
    C Value (e.evalWith blame order) (e.evalWith blame' order') := by
  have hC' := hC.toCongruence
  induction h with
  | define hp _ _ ihtags ihinit =>
    rw [evalWith_define, evalWith_define]
    exact adapt _ hp _ rfl (define _ _ _ _ _ hp (evalTags_congr hC' ihtags) (evalInit_congr hC' ihinit))
  | empty =>
    simp only [evalWith]
    exact hC'.pure _
  | enter _ _ ih =>
    simp only [evalWith]
    exact hC'.bind ih fun target => hC'.bind (hC.enter target) fun _ => hC'.pure _
  | const =>
    simp only [evalWith]
    exact hC'.pure _
  | ref =>
    simp only [evalWith]
    exact hC.deref _
  | vector _ _ ih =>
    simp only [evalWith]
    exact hC'.bind (evalAll_congr hC' ih) fun _ => hC'.pure _
  | set _ _ ih =>
    simp only [evalWith]
    exact hC'.bind (evalAll_congr hC' ih) fun _ => hC'.pure _
  | map _ _ _ ihkeys ihvalues =>
    simp only [evalWith]
    exact hC'.bind (evalEntries_congr hC' ihkeys ihvalues) fun entries =>
      hC'.bind (hC.mapOf entries) fun _ => hC'.pure _
  | invoke hp _ _ ihcallee ihargs =>
    simp only [evalWith]
    exact adapt _ hp _ rfl (hC'.bind ihcallee fun callee => hC'.bind (evalAll_congr hC' ihargs) fun args =>
      hC.apply callee args)
  | body _ _ ih =>
    simp only [evalWith]
    exact evalBody_congr hC' ih

/-- The two orders of a definition, written out. -/
theorem runDefinition_initFirst (target : Var) (dynamic : Bool) (tags : Exec (Table Key Value))
    (init : Exec (Option Value)) :
    runDefinition .initFirst target dynamic tags init = (do
      let value ← init
      modify (fun w => value.elim w (w.bindRoot target))
      let metadata ← tags
      modify (·.setMetadata target metadata)
      modify (·.markDynamic target dynamic)
      return .var target) := by
  simp only [runDefinition, bind_assoc]
  congr 1
  funext value
  cases value <;> rfl

theorem runDefinition_tagsFirst (target : Var) (dynamic : Bool) (tags : Exec (Table Key Value))
    (init : Exec (Option Value)) :
    runDefinition .tagsFirst target dynamic tags init = (do
      modify (·.markDynamic target dynamic)
      let metadata ← tags
      modify (·.setMetadata target metadata)
      let value ← init
      modify (fun w => value.elim w (w.bindRoot target))
      return .var target) := by
  simp only [runDefinition, bind_assoc]
  congr 1
  funext _
  congr 1
  funext metadata
  congr 1
  funext _
  congr 1
  funext value
  cases value <;> rfl

/-- A definition keeps a relation that its updates keep, in either order. -/
theorem runDefinition_congr (hC : Exec.Congruence C) {target : Var} {dynamic : Bool}
    (bind : ∀ value, C Unit (modify (·.bindRoot target value)) (modify (·.bindRoot target value)))
    (store : ∀ metadata, C Unit (modify (·.setMetadata target metadata)) (modify (·.setMetadata target metadata)))
    (mark : C Unit (modify (·.markDynamic target dynamic)) (modify (·.markDynamic target dynamic)))
    {tags tags' : Exec (Table Key Value)} {init init' : Exec (Option Value)} (htags : C _ tags tags')
    (hinit : C _ init init') :
    C Value (runDefinition order target dynamic tags init) (runDefinition order target dynamic tags' init') := by
  have bindInit : ∀ value : Option Value, C Unit (modify (fun w => value.elim w (w.bindRoot target)))
      (modify (fun w => value.elim w (w.bindRoot target))) := by
    intro value
    cases value with
    | none => exact hC.pure ()
    | some value => exact bind value
  cases order with
  | initFirst =>
    rw [runDefinition_initFirst, runDefinition_initFirst]
    exact hC.bind hinit fun value => hC.bind (bindInit value) fun _ => hC.bind htags fun metadata =>
      hC.bind (store metadata) fun _ => hC.bind mark fun _ => hC.pure _
  | tagsFirst =>
    rw [runDefinition_tagsFirst, runDefinition_tagsFirst]
    exact hC.bind mark fun _ => hC.bind htags fun metadata => hC.bind (store metadata) fun _ =>
      hC.bind hinit fun value => hC.bind (bindInit value) fun _ => hC.pure _

end Congruence

/-- A property of computations that sequencing keeps holds of evaluation, with errors left as they are, if it holds
of the effects of nodes and of the updates that definitions make. -/
theorem Every.bareIn_holds {H : (α : Type) → Exec α → Prop} {P : Expr → Prop} {e : Expr}
    (hH : Respects fun α x _ => H α x) (h : Every P e)
    (bind : ∀ d, P d → ∀ v ∈ d.target?, ∀ value, H Unit (modify (·.bindRoot v value)))
    (store : ∀ d, P d → ∀ v ∈ d.target?, ∀ metadata, H Unit (modify (·.setMetadata v metadata)))
    (mark : ∀ d, P d → ∀ v ∈ d.target?, ∀ dynamic, H Unit (modify (·.markDynamic v dynamic))) (order : DefOrder) :
    H Value (e.bareIn order) := by
  have hC : ∀ {α β : Type} (f : α → β) {x : Exec α}, H α x → H β (f <$> x) :=
    fun f x hx => hH.toCongruence.map (y := x) f hx
  -- the second computations play no part, so they are given here
  refine @Every.evalWith_congr (fun α x _ => H α x) _ (fun _ error => error) _ order P e hH h ?_ ?_
  · intro d _ pos _ x y hx
    rwa [Exec.adapt_id]
  · intro target dynamic tags init pos hp htags hinit
    have hbind := bind _ hp target rfl
    have hstore := store _ hp target rfl
    have hmark := mark _ hp target rfl dynamic
    exact @runDefinition_congr (fun α x _ => H α x) order hH.toCongruence target dynamic hbind hstore hmark
      _ (pure []) _ (pure none) (hC _ htags) hinit

/-! ### What running a node can change -/

/-- One change that running a node can make, where definitions have their vars in `D`. -/
inductive RunStep (D : Var → Prop) : World → World → Prop where
  | host (w : World) (host : HostState) : RunStep D w { w with host }
  | enter (w : World) (monitors : Monitors) : RunStep D w { w with monitors }
  | bind (w : World) {v : Var} (value : Value) : D v → RunStep D w (w.bindRoot v value)
  | store (w : World) {v : Var} (metadata : Table Key Value) : D v → RunStep D w (w.setMetadata v metadata)
  | flag (w : World) {v : Var} : D v → RunStep D w (w.setDynamic v)

section RunStep
variable (D : Var → Prop)

theorem steps_ofExcept {α : Type} (r : Except Fault α) : Exec.Steps (RunStep D) (Exec.ofExcept r) := by
  intro w
  cases r <;> exact .refl

theorem steps_callNative (f : Native) (args : List Value) : Exec.Steps (RunStep D) (callNative f args) := by
  intro w
  rcases callNative_spec f args w with ⟨fault, -, h⟩ | ⟨body, -, -, ⟨value, host, -, h⟩ | ⟨err, host, -, h⟩⟩
  · rw [Exec.finalWorld_of_error h]
  · rw [Exec.finalWorld_of_ok h]
    exact .single (.host w host)
  · rw [Exec.finalWorld_of_error h]
    exact .single (.host w host)

theorem steps_apply (callee : Value) (args : List Value) : Exec.Steps (RunStep D) (apply callee args) := by
  intro w
  exact (steps_ofExcept D (w.callee (w.cells.length + 1) callee)).bind (fun f => steps_callNative D f args) w

theorem steps_enterMonitor (target : Value) : Exec.Steps (RunStep D) (enterMonitor target) := by
  intro w
  rcases enterMonitor_spec target w with ⟨fault, h⟩ | ⟨monitors, host, h⟩
  · rw [Exec.finalWorld_of_error h]
  · rw [Exec.finalWorld_of_ok h]
    exact (Relation.ReflTransGen.single (.enter w monitors)).tail (.host _ host)

variable {D}

/-- However it ends, running a node makes such changes only. -/
theorem Every.steps_bareIn {e : Expr} (h : Every (fun d => ∀ v ∈ d.target?, D v) e) (order : DefOrder) :
    Exec.Steps (RunStep D) (e.bareIn order) := by
  have hC : Respects fun _ x _ => Exec.Steps (RunStep D) x := {
    Exec.steps_congruence (RunStep D) with
    deref := fun v w => steps_ofExcept D (w.deref v) w
    apply := steps_apply D
    enter := steps_enterMonitor D
    mapOf := fun entries => steps_ofExcept D _ }
  refine h.bareIn_holds hC ?_ ?_ ?_ order
  · exact fun d hd v hv value => Exec.steps_modify fun w => .bind w value (hd v hv)
  · exact fun d hd v hv metadata => Exec.steps_modify fun w => .store w metadata (hd v hv)
  · intro d hd v hv dynamic w
    cases dynamic with
    | false => exact .refl
    | true => exact .single (.flag w (hd v hv))

end RunStep

/-! ### Positions -/

/-- Errors of one cause in one world. -/
def SameCause (err err' : Error) (w w' : World) : Prop :=
  err.rootCause = err'.rootCause ∧ w = w'

/-- Where errors are located makes no difference to anything but their positions. -/
theorem evalWith_sameCause {blame blame' : SourcePos → Error → Error}
    (h : ∀ pos err, (blame pos err).rootCause = err.rootCause)
    (h' : ∀ pos err, (blame' pos err).rootCause = err.rootCause) (order : DefOrder) (e : Expr) :
    Exec.Couples Eq Eq SameCause (e.evalWith blame order) (e.evalWith blame' order) := by
  have hrefl : ∀ {α : Type} (x : Exec α), Exec.Couples Eq Eq SameCause x x :=
    fun x => .refl x fun _ _ => ⟨rfl, rfl⟩
  have hC : Respects fun _ x y => Exec.Couples Eq Eq SameCause x y := {
    Exec.Couples.congruence Eq SameCause with
    deref := fun v => hrefl _
    apply := fun callee args => hrefl _
    enter := fun target => hrefl _
    mapOf := fun entries => hrefl _ }
  refine (every_of_forall (P := fun _ => True) (fun _ => trivial) e).evalWith_congr hC ?_ ?_
  · rintro - - pos - x y hxy
    refine hxy.adapt fun err err' w w' hsame => ⟨?_, hsame.2⟩
    rw [h, h', hsame.1]
  · intro target dynamic tags init pos _ htags hinit
    exact runDefinition_congr hC.toCongruence (fun _ => hrefl _) (fun _ => hrefl _) (hrefl _)
      (hC.toCongruence.map _ htags) hinit

theorem evalWith_eq_ok_iff {blame : SourcePos → Error → Error}
    (hblame : ∀ pos err, (blame pos err).rootCause = err.rootCause) {order : DefOrder} {e : Expr} {w w' : World}
    {value : Value} : e.evalWith blame order w = .ok value w' ↔ e.bareIn order w = .ok value w' := by
  have hbare : ∀ pos err, ((fun _ error => error : SourcePos → Error → Error) pos err).rootCause = err.rootCause :=
    fun _ _ => rfl
  constructor <;> intro h
  · have hsame := evalWith_sameCause hblame hbare order e w w rfl
    rw [h] at hsame
    obtain ⟨_, hvalue, rfl⟩ := hsame.of_ok
    exact hvalue
  · have hsame := evalWith_sameCause hbare hblame order e w w rfl
    rw [← bareIn, h] at hsame
    obtain ⟨_, hvalue, rfl⟩ := hsame.of_ok
    exact hvalue

/-- Where all positions are one, it is enough to locate errors once, at the end. -/
theorem At.locating_evalWith {pos : SourcePos} {e : Expr} (h : At pos e) (blame : SourcePos → Error → Error)
    (hblame : blame pos = Error.locate pos) (order : DefOrder) :
    Exec.locating pos (e.evalWith blame order) = Exec.locating pos (e.bareIn order) := by
  have hC : Respects fun _ x y => Exec.locating pos x = Exec.locating pos y := {
    pure := fun _ => rfl
    bind := fun hxy hfg => by
      simp only [Exec.locating_eq_adapt, Exec.adapt_bind] at hxy hfg ⊢
      simp only [hxy, hfg]
    deref := fun _ => rfl
    apply := fun _ _ => rfl
    enter := fun _ => rfl
    mapOf := fun _ => rfl }
  refine h.evalWith_congr hC ?_ ?_
  · intro d hd p hp x y hxy
    rw [hd p hp, hblame]
    simp only [Exec.locating_eq_adapt, Exec.adapt_locate_locate, Exec.adapt_id] at hxy ⊢
    exact hxy
  · intro target dynamic tags init p _ htags hinit
    exact runDefinition_congr hC.toCongruence (fun _ => rfl) (fun _ => rfl) rfl (hC.toCongruence.map _ htags) hinit

end Expr

end LispCore
