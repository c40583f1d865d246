import LispCore.Proofs.Collections
import LispCore.Proofs.Monitors

/-! # Proper worlds

In a proper world every value is proper: its sets have each element once and its maps each key once, however deep they
lie. Running keeps it so and comes to proper values (`Exec.Keeps`), be it a node or code that is run, if the constants in
it are proper. A native function may do what it likes with proper values as long as it makes no others. -/

namespace LispCore

/-! ### Proper worlds -/

def Event.Proper : Event → Prop
  | .called _ args | .marked args => ∀ a ∈ args, a.Proper
  | .entered target => target.Proper

def HostState.Proper (host : HostState) : Prop :=
  ∀ e ∈ host.events, e.Proper

/-- What a call of a native function may end with. -/
def ProperOutcome : EStateM.Result Error HostState Value → Prop
  | .ok value host => value.Proper ∧ host.Proper
  | .error _ host => host.Proper

/-- A native function that makes proper values of proper ones, and records no others. -/
def NativeBody.Proper (body : NativeBody) : Prop :=
  ∀ args host, (∀ a ∈ args, a.Proper) → HostState.Proper host → ProperOutcome (body args host)

structure Cell.Proper (c : Cell) : Prop where
  root : ∀ value ∈ c.root, value.Proper
  metadata : (Value.map c.metadata).Proper

/-- Every value in the world is proper. -/
structure World.Proper (w : World) : Prop where
  cells : ∀ v, (w.cell v).Proper
  bindings : ∀ b ∈ w.bindings, ∀ value ∈ b.2, value.Proper
  monitors : ∀ m ∈ w.monitors, m.1.Proper
  natives : ∀ n ∈ w.natives, NativeBody.Proper n.2
  host : w.host.Proper

theorem HostState.Proper.record {host : HostState} (h : host.Proper) {e : Event} (he : e.Proper) :
    (host.record e).Proper := by
  intro e' he'
  rcases List.mem_append.mp he' with he' | he'
  · exact h e' he'
  · rw [List.mem_singleton.mp he']
    exact he

theorem CollKind.proper_empty (kind : CollKind) : kind.empty.Proper := by
  cases kind with
  | list => exact .list (by simp)
  | vector => exact .vector (by simp)
  | map => exact .map (by simp) .nil
  | set => exact .set (by simp) .nil

namespace World.Proper
variable {w : World}

/-- Names, threads, warnings and the log hold no values. -/
theorem carry (h : w.Proper) (namespaces : Table String Namespace) (current : String) (nextId : Nat) (thread : ThreadId)
    (nextThread : Nat) (warnings : List Warning) (log : List LogRecord) :
    { w with namespaces, current, nextId, thread, nextThread, warnings, log }.Proper :=
  ⟨h.cells, h.bindings, h.monitors, h.natives, h.host⟩

theorem setCell (h : w.Proper) (v : Var) {c : Cell} (hc : c.Proper) : (w.setCell v c).Proper := by
  refine ⟨fun u => ?_, h.bindings, h.monitors, h.natives, h.host⟩
  rw [World.cell_setCell]
  split
  · exact hc
  · exact h.cells u

theorem bindRoot (h : w.Proper) (v : Var) {value : Value} (hvalue : value.Proper) : (w.bindRoot v value).Proper := by
  refine h.setCell v ⟨fun value' hvalue' => ?_, (h.cells v).metadata⟩
  rw [← Option.some.inj hvalue']
  exact hvalue

theorem setMetadata (h : w.Proper) (v : Var) {metadata : Table Key Value} (hmetadata : (Value.map metadata).Proper) :
    (w.setMetadata v metadata).Proper :=
  h.setCell v ⟨(h.cells v).root, hmetadata⟩

theorem setDynamic (h : w.Proper) (v : Var) : (w.setDynamic v).Proper :=
  h.setCell v ⟨(h.cells v).root, (h.cells v).metadata⟩

theorem markDynamic (h : w.Proper) (v : Var) (dynamic : Bool) : (w.markDynamic v dynamic).Proper := by
  cases dynamic with
  | false => exact h
  | true => exact h.setDynamic v

theorem addTag (h : w.Proper) (v : Var) (k : Key) {value : Value} (hvalue : value.Proper) :
    (w.addTag v k value).Proper := by
  obtain ⟨hvalues, hapart⟩ := (h.cells v).metadata.of_map
  rw [Value.nodup_bareKeys_iff] at hapart
  refine h.setMetadata v (.map (fun e he => ?_) (Key.beqOn.pairwise_insert (fun _ _ => trivial) hapart trivial value))
  rcases Table.eq_or_mem_of_mem_insert he with rfl | he
  · exact hvalue
  · exact hvalues e he

theorem note (h : w.Proper) (r : LogRecord) : (w.note r).Proper :=
  h.carry _ _ _ _ _ _ _

theorem warn (h : w.Proper) (warning : Warning) : (w.warn warning).Proper := by
  unfold World.warn
  split <;> exact h.carry _ _ _ _ _ _ _

theorem intern (h : w.Proper) (ns name : String) : (w.intern ns name).2.Proper := by
  obtain ⟨namespaces, nextId, log, heq⟩ := w.intern_eq ns name
  rw [heq]
  exact h.carry _ _ _ _ _ _ _

theorem deref (h : w.Proper) {v : Var} {value : Value} (hvalue : w.deref v = .ok value) : value.Proper := by
  unfold World.deref at hvalue
  dsimp only at hvalue
  split at hvalue
  · next bound hbound =>
    cases hvalue
    obtain ⟨-, hbound⟩ := Option.ite_none_right_eq_some.mp hbound
    obtain ⟨values, hget, hhead⟩ := Option.bind_eq_some_iff.mp hbound
    obtain ⟨b, hb, -, rfl⟩ := Table.exists_mem_of_get? hget
    exact h.bindings b hb _ (List.mem_of_mem_head? hhead)
  · next root _ hroot =>
    cases hvalue
    exact (h.cells v).root _ hroot
  · cases hvalue

end World.Proper

/-! ### Computations that keep the world proper -/

namespace Exec
variable {α β : Type} {P : α → Prop} {Q : β → Prop}

/-- From a proper world the computation leads to a proper one, and to values of which `Q` holds. -/
def Keeps (Q : α → Prop) (x : Exec α) : Prop :=
  ∀ w : World, w.Proper → (finalWorld x w).Proper ∧ ∀ a w', x w = .ok a w' → Q a

theorem keeps_pure {a : α} (h : P a) : Keeps P (pure a) :=
  fun w hw => ⟨hw, by rintro _ _ ⟨⟩; exact h⟩

theorem keeps_throw (err : Error) : Keeps P (throw err) :=
  fun w hw => ⟨hw, by rintro a w' ⟨⟩⟩

theorem keeps_modify {g : World → World} (h : ∀ w, w.Proper → (g w).Proper) : Keeps (fun _ => True) (modify g) :=
  fun w hw => ⟨h w hw, fun _ _ _ => trivial⟩

theorem keeps_ofExcept {r : Except Fault α} (h : ∀ a, r = .ok a → P a) : Keeps P (ofExcept r) := by
  cases r with
  | error fault => exact keeps_throw _
  | ok a => exact keeps_pure (h a rfl)

theorem Keeps.bind {x : Exec α} {f : α → Exec β} (hx : Keeps P x) (hf : ∀ a, P a → Keeps Q (f a)) :
    Keeps Q (x >>= f) := by
  intro w hw
  obtain ⟨hfinal, hvalue⟩ := hx w hw
  cases h : x w with
  | ok a w₁ =>
    rw [finalWorld_of_ok h] at hfinal
    obtain ⟨hfinal, hlast⟩ := hf a (hvalue a w₁ h) w₁ hfinal
    rw [finalWorld_congr (bind_of_ok h), bind_of_ok h]
    exact ⟨hfinal, hlast⟩
  | error err w₁ =>
    rw [finalWorld_of_error h] at hfinal
    rw [finalWorld_of_error (bind_of_error h), bind_of_error h]
    exact ⟨hfinal, by rintro b w' ⟨⟩⟩

theorem Keeps.imp {P' : α → Prop} {x : Exec α} (h : Keeps P x) (hP : ∀ a, P a → P' a) : Keeps P' x :=
  fun w hw => ⟨(h w hw).1, fun a w' ha => hP a ((h w hw).2 a w' ha)⟩

theorem Keeps.map {x : Exec α} {f : α → β} (h : Keeps P x) (hf : ∀ a, P a → Q (f a)) : Keeps Q (f <$> x) := by
  rw [map_eq_pure_bind]
  exact h.bind fun a ha => keeps_pure (hf a ha)

theorem Keeps.adapt {x : Exec α} (h : Keeps P x) (f : Error → Error) : Keeps P (Exec.adapt f x) := by
  intro w hw
  rw [finalWorld_adapt]
  exact ⟨(h w hw).1, fun a w' ha => (h w hw).2 a w' (adapt_eq_ok ha)⟩

end Exec

/-! ### Effects -/

open Exec (Keeps keeps_pure keeps_throw keeps_modify keeps_ofExcept)

theorem keeps_deref (v : Var) : Keeps Value.Proper (deref v) :=
  fun w hw => keeps_ofExcept (fun _ h => hw.deref h) w hw

theorem keeps_callNative (f : Native) {args : List Value} (hargs : ∀ a ∈ args, a.Proper) :
    Keeps Value.Proper (callNative f args) := by
  intro w hw
  have hrecorded : (w.host.record (.called f args)).Proper := hw.host.record hargs
  rcases callNative_spec f args w with ⟨fault, -, h⟩ | ⟨body, -, hget, hcall⟩
  · rw [Exec.finalWorld_of_error h, h]
    exact ⟨hw, by rintro a w' ⟨⟩⟩
  · obtain ⟨n, hn, -, rfl⟩ := Table.exists_mem_of_get? hget
    have houtcome := hw.natives n hn args _ hargs hrecorded
    rcases hcall with ⟨value, host, hbody, h⟩ | ⟨err, host, hbody, h⟩ <;> rw [hbody] at houtcome
    · obtain ⟨hvalue, hhost⟩ := houtcome
      rw [Exec.finalWorld_of_ok h, h]
      exact ⟨⟨hw.cells, hw.bindings, hw.monitors, hw.natives, hhost⟩, by rintro a w' ⟨⟩; exact hvalue⟩
    · rw [Exec.finalWorld_of_error h, h]
      exact ⟨⟨hw.cells, hw.bindings, hw.monitors, hw.natives, houtcome⟩, by rintro a w' ⟨⟩⟩

theorem keeps_apply (callee : Value) {args : List Value} (hargs : ∀ a ∈ args, a.Proper) :
    Keeps Value.Proper (apply callee args) := by
  intro w hw
  have hcallee : Keeps (fun _ => True) (Exec.ofExcept (w.callee (w.cells.length + 1) callee)) :=
    keeps_ofExcept fun _ _ => trivial
  exact (hcallee.bind fun f _ => keeps_callNative f hargs) w hw

theorem keeps_enterMonitor {target : Value} (htarget : target.Proper) :
    Keeps (fun _ => True) (enterMonitor target) := by
  intro w hw
  refine ⟨?_, fun _ _ _ => trivial⟩
  unfold Exec.finalWorld enterMonitor
  cases henter : Monitors.enter w.monitors w.thread target with
  | error refusal => cases refusal <;> exact hw
  | ok monitors =>
    have hmonitors := Monitors.proper_enter hw.monitors htarget henter
    dsimp only
    cases w.audience with
    | watching => exact ⟨hw.cells, hw.bindings, hmonitors, hw.natives, hw.host.record htarget⟩
    | absent => exact ⟨hw.cells, hw.bindings, hmonitors, hw.natives, hw.host⟩

theorem keeps_mapOf {pairs : List (Value × Value)} (h : ∀ p ∈ pairs, p.2.Proper) :
    Keeps (fun entries => (Value.map entries).Proper) (Exec.ofExcept (Value.mapOf pairs)) := by
  refine keeps_ofExcept fun entries hentries => ?_
  obtain ⟨given, rfl, rfl⟩ := Value.mapOf_eq_ok_iff.mp hentries
  exact Value.proper_mapOf fun e he => h _ (List.mem_map_of_mem he)

theorem keeps_runDefinition (order : DefOrder) (target : Var) (dynamic : Bool) {tags : Exec (Table Key Value)}
    {init : Exec (Option Value)} (htags : Keeps (fun metadata => (Value.map metadata).Proper) tags)
    (hinit : Keeps (fun value => ∀ a ∈ value, a.Proper) init) :
    Keeps Value.Proper (runDefinition order target dynamic tags init) := by
  have hbind : ∀ value : Option Value, (∀ a ∈ value, a.Proper) →
      Keeps (fun _ => True) (modify fun w => value.elim w (w.bindRoot target)) := by
    intro value hvalue
    cases value with
    | none => exact keeps_modify fun w hw => hw
    | some value => exact keeps_modify fun w hw => hw.bindRoot target (hvalue value rfl)
  have hstore : ∀ metadata : Table Key Value, (Value.map metadata).Proper →
      Keeps (fun _ => True) (modify (·.setMetadata target metadata)) :=
    fun metadata hmetadata => keeps_modify fun w hw => hw.setMetadata target hmetadata
  have hmark : Keeps (fun _ => True) (modify (·.markDynamic target dynamic)) :=
    keeps_modify fun w hw => hw.markDynamic target dynamic
  have hvar : Keeps Value.Proper (pure (Value.var target)) := keeps_pure (.atom rfl)
  cases order with
  | initFirst =>
    rw [Expr.runDefinition_initFirst]
    exact hinit.bind fun value hvalue => (hbind value hvalue).bind fun _ _ => htags.bind fun metadata hmetadata =>
      (hstore metadata hmetadata).bind fun _ _ => hmark.bind fun _ _ => hvar
  | tagsFirst =>
    rw [Expr.runDefinition_tagsFirst]
    exact hmark.bind fun _ _ => htags.bind fun metadata hmetadata => (hstore metadata hmetadata).bind fun _ _ =>
      hinit.bind fun value hvalue => (hbind value hvalue).bind fun _ _ => hvar

/-! ### Nodes -/

namespace Expr
variable {blame : SourcePos → Error → Error} {order : DefOrder}

/-- Every constant in the node is proper. -/
def Proper (e : Expr) : Prop :=
  e.Every (HasConst Value.Proper)

theorem keeps_evalAll : ∀ {items : List Expr}, (∀ e ∈ items, Keeps Value.Proper (e.evalWith blame order)) →
    Keeps (fun values => ∀ a ∈ values, a.Proper) (evalAll blame order items)
  | [], _ => keeps_pure (by simp)
  | e :: rest, h => by
    obtain ⟨he, hrest⟩ := List.forall_mem_cons.mp h
    simp only [evalAll]
    exact he.bind fun value hvalue => (keeps_evalAll hrest).bind fun values hvalues =>
      keeps_pure (List.forall_mem_cons.mpr ⟨hvalue, hvalues⟩)

theorem keeps_evalEntries : ∀ {entries : List (Expr × Expr)},
    (∀ p ∈ entries, Keeps Value.Proper (p.1.evalWith blame order)) →
    (∀ p ∈ entries, Keeps Value.Proper (p.2.evalWith blame order)) →
    Keeps (fun pairs => ∀ p ∈ pairs, p.2.Proper) (evalEntries blame order entries)
  | [], _, _ => keeps_pure (by simp)
  | (k, e) :: rest, hkeys, hvalues => by
    obtain ⟨hk, hkeys⟩ := List.forall_mem_cons.mp hkeys
    obtain ⟨he, hvalues⟩ := List.forall_mem_cons.mp hvalues
    simp only [evalEntries]
    exact hk.bind fun key _ => he.bind fun value hvalue => (keeps_evalEntries hkeys hvalues).bind fun pairs hpairs =>
      keeps_pure (List.forall_mem_cons.mpr ⟨hvalue, hpairs⟩)

theorem keeps_evalTags : ∀ {tags : List (Key × Expr)}, (∀ t ∈ tags, Keeps Value.Proper (t.2.evalWith blame order)) →
    Keeps (fun values => ∀ t ∈ values, t.2.Proper) (evalTags blame order tags)
  | [], _ => keeps_pure (by simp)
  | (k, e) :: rest, h => by
    obtain ⟨he, hrest⟩ := List.forall_mem_cons.mp h
    simp only [evalTags]
    exact he.bind fun value hvalue => (keeps_evalTags hrest).bind fun values hvalues =>
      keeps_pure (List.forall_mem_cons.mpr ⟨hvalue, hvalues⟩)

theorem keeps_evalBody : ∀ {exprs : List Expr}, (∀ e ∈ exprs, Keeps Value.Proper (e.evalWith blame order)) →
    Keeps Value.Proper (evalBody blame order exprs)
  | [], _ => keeps_pure (.atom rfl)
  | [e], h => by
    simp only [evalBody]
    exact h e List.mem_cons_self
  | e :: e' :: rest, h => by
    obtain ⟨he, hrest⟩ := List.forall_mem_cons.mp h
    simp only [evalBody]
    exact he.bind fun _ _ => keeps_evalBody hrest

theorem Proper.keeps_evalWith {e : Expr} (h : e.Proper) : Keeps Value.Proper (e.evalWith blame order) := by
  induction h with
  | @define target dynamic tags init pos _ _ _ ihtags ihinit =>
    rw [evalWith_define]
    refine Keeps.adapt (keeps_runDefinition order target dynamic ?_ ?_) _
    · exact (keeps_evalTags ihtags).map fun values hvalues => Value.proper_mapOf hvalues
    · cases init with
      | none => exact keeps_pure (by simp)
      | some e => exact (ihinit e rfl).map fun value hvalue => by simpa using hvalue
  | @empty kind =>
    simp only [evalWith]
    exact keeps_pure kind.proper_empty
  | enter _ _ ih =>
    simp only [evalWith]
    exact ih.bind fun target htarget => (keeps_enterMonitor htarget).bind fun _ _ => keeps_pure (.atom rfl)
  | const hvalue =>
    simp only [evalWith]
    exact keeps_pure hvalue
  | ref =>
    simp only [evalWith]
    exact keeps_deref _
  | vector _ _ ih =>
    simp only [evalWith]
    exact (keeps_evalAll ih).bind fun values hvalues => keeps_pure (.vector hvalues)
  | set _ _ ih =>
    simp only [evalWith]
    exact (keeps_evalAll ih).bind fun values hvalues => keeps_pure (Value.proper_setOf hvalues)
  | map _ _ _ ihkeys ihvalues =>
    simp only [evalWith]
    exact (keeps_evalEntries ihkeys ihvalues).bind fun pairs hpairs =>
      (keeps_mapOf hpairs).bind fun entries hentries => keeps_pure hentries
  | invoke _ _ _ ihcallee ihargs =>
    simp only [evalWith]
    exact Keeps.adapt (ihcallee.bind fun callee _ => (keeps_evalAll ihargs).bind fun args hargs =>
      keeps_apply callee hargs) _
  | body _ _ ih =>
    simp only [evalWith]
    exact keeps_evalBody ih

end Expr

/-! ### Code -/

/-- Every constant of the chunk is proper. -/
def Chunk.Proper (c : Chunk) : Prop :=
  ∀ value ∈ c.constants, value.Proper

namespace Machine

/-- Every value on the stack is proper. -/
abbrev ProperStack (stack : Stack) : Prop :=
  ∀ a ∈ stack, a.Proper

theorem keeps_pop {stack : Stack} (h : ProperStack stack) :
    Keeps (fun p => p.1.Proper ∧ ProperStack p.2) (Exec.ofExcept (pop stack)) := by
  refine keeps_ofExcept fun p hp => ?_
  cases stack with
  | nil => cases hp
  | cons value rest =>
    cases hp
    exact List.forall_mem_cons.mp h

theorem keeps_popVar {stack : Stack} (h : ProperStack stack) :
    Keeps (fun p => ProperStack p.2) (Exec.ofExcept (popVar stack)) := by
  refine keeps_ofExcept fun p hp => ?_
  cases stack with
  | nil => cases hp
  | cons value rest =>
    cases value <;> cases hp
    exact (List.forall_mem_cons.mp h).2

theorem keeps_popMany {stack : Stack} (h : ProperStack stack) (n : Nat) :
    Keeps (fun p => ProperStack p.1 ∧ ProperStack p.2) (Exec.ofExcept (popMany n stack)) := by
  refine keeps_ofExcept fun p hp => ?_
  unfold popMany at hp
  split at hp <;> cases hp
  exact ⟨fun a ha => h a (List.mem_of_mem_take (List.mem_reverse.mp ha)), fun a ha => h a (List.mem_of_mem_drop ha)⟩

theorem mem_of_mem_pairUp {items : List Value} {p : Value × Value} (h : p ∈ pairUp items) : p.2 ∈ items := by
  fun_induction pairUp items with
  | case1 k v rest ih =>
    rcases List.mem_cons.mp h with rfl | h
    · simp
    · exact List.mem_cons_of_mem _ (List.mem_cons_of_mem _ (ih h))
  | case2 => cases h

/-- The step: an operation on proper values. -/
theorem keeps_step {c : Chunk} (hc : c.Proper) (op : Op) {stack : Stack} (h : ProperStack stack) :
    Keeps ProperStack (step c op stack) := by
  have hpush : ∀ {value : Value} {rest : Stack}, value.Proper → ProperStack rest →
      Keeps ProperStack (pure (value :: rest)) :=
    fun hvalue hrest => keeps_pure (List.forall_mem_cons.mpr ⟨hvalue, hrest⟩)
  have hvarAt : ∀ index, Keeps (fun _ => True) (Exec.ofExcept (varAt c index)) :=
    fun index => keeps_ofExcept fun _ _ => trivial
  cases op with
  | const index =>
    have hconst : Keeps Value.Proper (Exec.ofExcept (constant c index)) := by
      refine keeps_ofExcept fun value hvalue => ?_
      unfold constant at hvalue
      split at hvalue <;> cases hvalue
      next hget => exact hc _ (List.mem_of_getElem? hget)
    exact hconst.bind fun value hvalue => hpush hvalue h
  | constNil => exact hpush (.atom rfl) h
  | emptyCollection kind => exact hpush kind.proper_empty h
  | pushVar index => exact (hvarAt index).bind fun v _ => hpush (.atom rfl) h
  | derefVar index =>
    exact (hvarAt index).bind fun v _ => (keeps_deref v).bind fun value hvalue => hpush hvalue h
  | setDynamic =>
    refine (keeps_pop h).bind fun p _ => ?_
    split
    · exact (keeps_modify fun w hw => hw.setDynamic _).bind fun _ _ => keeps_pure h
    · exact keeps_throw _
  | setMetadata =>
    refine (keeps_pop h).bind fun p hp => (keeps_popVar hp.2).bind fun q hq => ?_
    obtain ⟨metadata, rest⟩ := p
    cases metadata with
    | map entries => exact (keeps_modify fun w hw => hw.setMetadata q.1 hp.1).bind fun _ _ => keeps_pure hq
    | _ => exact keeps_throw _
  | bindRoot =>
    exact (keeps_pop h).bind fun p hp => (keeps_popVar hp.2).bind fun q hq =>
      (keeps_modify fun w hw => hw.bindRoot q.1 hp.1).bind fun _ _ => keeps_pure hq
  | makeVector count => exact (keeps_popMany h count).bind fun p hp => hpush (.vector hp.1) hp.2
  | makeSet count => exact (keeps_popMany h count).bind fun p hp => hpush (Value.proper_setOf hp.1) hp.2
  | makeMap pairs =>
    exact (keeps_popMany h (pairs * 2)).bind fun p hp =>
      (keeps_mapOf fun q hq => hp.1 q.2 (mem_of_mem_pairUp hq)).bind fun entries hentries => hpush hentries hp.2
  | call argCount =>
    exact (keeps_popMany h argCount).bind fun p hp => (keeps_pop hp.2).bind fun q hq =>
      (keeps_apply q.1 hp.1).bind fun value hvalue => hpush hvalue hq.2
  | monitorEnter =>
    exact (keeps_pop h).bind fun p hp => (keeps_enterMonitor hp.1).bind fun _ _ => keeps_pure hp.2
  | dup => exact (keeps_pop h).bind fun p hp => hpush hp.1 h
  | pop => exact (keeps_pop h).bind fun p hp => keeps_pure hp.2
  | ret => exact keeps_pure h

/-- The run: code on a stack of proper values. -/
theorem keeps_runCode {c : Chunk} (hc : c.Proper) (code : List Instruction) {stack : Stack} (h : ProperStack stack) :
    Keeps Value.Proper (runCode c code stack) := by
  induction code generalizing stack with
  | nil => exact keeps_throw _
  | cons i rest ih =>
    unfold runCode
    split
    · cases stack with
      | nil => exact keeps_pure (.atom rfl)
      | cons value rest => exact keeps_pure (h value List.mem_cons_self)
    · exact (Keeps.adapt (keeps_step hc _ h) _).bind fun stack hstack => ih hstack

end Machine

namespace Chunk.Proper
variable {c : Chunk}

theorem keeps_run (h : c.Proper) : Keeps Value.Proper c.run :=
  (keeps_modify fun _ hw => hw.note _).bind fun _ _ => Machine.keeps_runCode h c.code (List.forall_mem_nil _)

theorem push (h : c.Proper) (op : Op) (span : Span) : (c.push op span).Proper := h

theorem finish (h : c.Proper) (usage : Usage) (span : Span) : (c.finish usage span).Proper := by
  cases usage <;> exact h

theorem pushConst (h : c.Proper) {value : Value} (hvalue : value.Proper) (span : Span) :
    (c.pushConst value span).Proper := by
  have hadded : (c.addConst value).Proper := by
    intro a ha
    rcases List.mem_append.mp ha with ha | ha
    · exact h a ha
    · rw [List.mem_singleton.mp ha]
      exact hvalue
  cases value with
  | nil => exact h
  | _ => exact hadded

theorem pushVarOp (h : c.Proper) (op : Nat → Op) (v : Var) (span : Span) : (c.pushVarOp op v span).Proper := by
  unfold Chunk.pushVarOp Chunk.addVar
  split <;> exact h

end Chunk.Proper

namespace Expr

/-- The code of the node adds proper constants. -/
def EmitsProper (e : Expr) : Prop :=
  ∀ usage span (c : Chunk), c.Proper → (e.emit usage span c).Proper

theorem proper_emitAll {span : Span} : ∀ {items : List Expr}, (∀ e ∈ items, e.EmitsProper) →
    ∀ {c : Chunk}, c.Proper → (emitAll span items c).Proper
  | [], _, c, hc => hc
  | e :: rest, h, c, hc => by
    obtain ⟨he, hrest⟩ := List.forall_mem_cons.mp h
    simp only [emitAll]
    exact proper_emitAll hrest (he _ _ _ hc)

theorem proper_emitEntries {span : Span} : ∀ {entries : List (Expr × Expr)}, (∀ p ∈ entries, p.1.EmitsProper) →
    (∀ p ∈ entries, p.2.EmitsProper) → ∀ {c : Chunk}, c.Proper → (emitEntries span entries c).Proper
  | [], _, _, c, hc => hc
  | (k, e) :: rest, hkeys, hvalues, c, hc => by
    obtain ⟨hk, hkeys⟩ := List.forall_mem_cons.mp hkeys
    obtain ⟨he, hvalues⟩ := List.forall_mem_cons.mp hvalues
    simp only [emitEntries]
    exact proper_emitEntries hkeys hvalues (he _ _ _ (hk _ _ _ hc))

theorem proper_emitTags (span : Span) : ∀ {tags : List (Key × Expr)}, (∀ t ∈ tags, t.2.EmitsProper) →
    ∀ {c : Chunk}, c.Proper → (emitTags span tags c).Proper
  | [], _, c, hc => hc
  | (k, e) :: rest, h, c, hc => by
    obtain ⟨he, hrest⟩ := List.forall_mem_cons.mp h
    have hk : k.toValue.Proper := .atom (by cases k <;> rfl)
    simp only [emitTags]
    exact proper_emitTags span hrest (he _ _ _ (hc.pushConst hk span))

theorem proper_emitBody {usage : Usage} {span : Span} : ∀ {exprs : List Expr}, (∀ e ∈ exprs, e.EmitsProper) →
    ∀ {c : Chunk}, c.Proper → (emitBody usage span exprs c).Proper
  | [], _, c, hc => (hc.pushConst (.atom rfl) span).finish usage span
  | [e], h, c, hc => by
    simp only [emitBody]
    exact h e List.mem_cons_self _ _ _ hc
  | e :: e' :: rest, h, c, hc => by
    obtain ⟨he, hrest⟩ := List.forall_mem_cons.mp h
    simp only [emitBody]
    exact proper_emitBody hrest (he _ _ _ hc)

theorem Proper.emitsProper {e : Expr} (h : e.Proper) : e.EmitsProper := by
  induction h with
  | @define target dynamic tags init pos _ _ _ ihtags ihinit =>
    intro usage span c hc
    have hvar := hc.pushVarOp Op.pushVar target pos.span
    have hflag : (if dynamic then (c.pushVarOp .pushVar target pos.span).push .setDynamic pos.span
        else c.pushVarOp .pushVar target pos.span).Proper := by
      split <;> exact hvar
    have htags := proper_emitTags pos.span ihtags (hflag.push .dup pos.span)
    have hstored := (htags.push (.makeMap tags.length) pos.span).push .setMetadata pos.span
    cases init with
    | none =>
      simp only [emit]
      exact hstored.finish usage pos.span
    | some e =>
      simp only [emit]
      have hinit := ihinit e rfl .value pos.span _ (hstored.push .dup pos.span)
      exact (hinit.push .bindRoot pos.span).finish usage pos.span
  | empty =>
    intro usage span c hc
    simp only [emit]
    exact (hc.push _ span).finish usage span
  | enter _ _ ih =>
    intro usage span c hc
    simp only [emit]
    exact (((ih .value span c hc).push .monitorEnter span).push .constNil span).finish usage span
  | const hvalue =>
    intro usage span c hc
    simp only [emit]
    exact (hc.pushConst hvalue span).finish usage span
  | ref =>
    intro usage span c hc
    simp only [emit]
    exact (hc.pushVarOp _ _ span).finish usage span
  | vector _ _ ih | set _ _ ih =>
    intro usage span c hc
    simp only [emit]
    exact ((proper_emitAll ih hc).push _ span).finish usage span
  | map _ _ _ ihkeys ihvalues =>
    intro usage span c hc
    simp only [emit]
    exact ((proper_emitEntries ihkeys ihvalues hc).push _ span).finish usage span
  | @invoke callee args pos _ _ _ ihcallee ihargs =>
    intro usage span c hc
    simp only [emit]
    exact ((proper_emitAll ihargs (ihcallee .value pos.span c hc)).push _ pos.span).finish usage pos.span
  | body _ _ ih =>
    intro usage span c hc
    simp only [emit]
    exact proper_emitBody ih hc

theorem Proper.toChunk {e : Expr} (h : e.Proper) (source : String) (span : Span) : (e.toChunk source span).Proper :=
  h.emitsProper .tailReturn span { source } (by simp [Chunk.Proper])

end Expr

end LispCore
