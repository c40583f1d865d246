import LispCore.Proofs.Calls
import LispCore.Proofs.Literals
import LispCore.Proofs.Monitors
import Mathlib.Algebra.GroupWithZero.Nat

/-! # How runs of code end

The machine runs any code, not only what a compiler emits. `Machine.Reaches` says where a run comes to: it starts
on an empty stack and goes on from instruction to instruction as long as each succeeds and is no return. What one
operation can do is said once (`step_ends`): take no more than there is and leave what its stack effect says, be
refused and change nothing, call a native function that fails, or have no end. A run ends exactly if it comes to no
operation that has none (`ends_iff`). -/

namespace LispCore

/-! ### Stack effects -/

/-- How many values an operation needs on the stack. -/
def Op.takes : Op → Nat
  | .const _ | .constNil | .emptyCollection _ | .pushVar _ | .derefVar _ | .ret => 0
  | .setDynamic | .monitorEnter | .dup | .pop => 1
  | .setMetadata | .bindRoot => 2
  | .makeVector count | .makeSet count => count
  | .makeMap pairs => pairs * 2
  | .call argCount => argCount + 1

/-- How many values it leaves in their place. -/
def Op.leaves : Op → Nat
  | .const _ | .constNil | .emptyCollection _ | .pushVar _ | .derefVar _ => 1
  | .makeVector _ | .makeSet _ | .makeMap _ | .call _ | .setDynamic => 1
  | .setMetadata | .bindRoot | .monitorEnter | .pop | .ret => 0
  | .dup => 2

namespace World

/-- A search that finds a function has followed the vars to it. -/
theorem follow_of_callee {w : World} {n : Nat} {x : Value} {f : Native} (h : w.callee n x = .ok f) :
    ∃ m, w.follow m x = some (.func f) := by
  induction n generalizing x with
  | zero =>
    cases x <;> cases h
    exact ⟨0, rfl⟩
  | succ n ih =>
    cases x with
    | var v =>
      cases hd : w.deref v with
      | ok y =>
        simp only [callee, hd, bind, Except.bind] at h
        obtain ⟨m, hm⟩ := ih h
        exact ⟨m + 1, by rwa [follow, next?_of_deref_ok hd]⟩
      | error fault =>
        simp only [callee, hd, bind, Except.bind] at h
        cases h
    | func g =>
      cases h
      exact ⟨0, rfl⟩
    | _ => cases h

/-- A search fails by giving up, or at a value that is no function, or at an unbound var. -/
theorem callee_eq_error {w : World} {n : Nat} {x : Value} {fault : Fault} (h : w.callee n x = .error fault) :
    fault = .stalled .varCycle ∨ ∀ cause, fault ≠ .stalled cause := by
  induction n generalizing x with
  | zero => cases x <;> cases h <;> simp
  | succ n ih =>
    cases x with
    | var v =>
      cases hd : w.deref v with
      | ok y =>
        simp only [callee, hd, bind, Except.bind] at h
        exact ih h
      | error fault' =>
        simp only [callee, hd, bind, Except.bind] at h
        cases h
        simp [deref_eq_error hd]
    | _ => cases h <;> simp

end World

namespace Value

theorem keyed_eq_error {pairs : List (Value × Value)} {fault : Fault} (h : keyed pairs = .error fault) :
    ∃ p ∈ pairs, fault = .typeMismatch "map key" p.1.kind.name := by
  induction pairs with
  | nil => cases h
  | cons p rest ih =>
    obtain ⟨k, v⟩ := p
    rw [keyed_cons] at h
    cases hkey : Key.ofValue k with
    | error fault' =>
      rw [hkey] at h
      cases h
      refine ⟨(k, v), List.mem_cons_self, ?_⟩
      unfold Key.ofValue at hkey
      split at hkey <;> cases hkey
      rfl
    | ok key =>
      rw [hkey] at h
      cases hrest : keyed rest with
      | ok given =>
        simp only [hrest, bind, Except.bind] at h
        cases h
      | error fault' =>
        simp only [hrest, bind, Except.bind] at h
        cases h
        obtain ⟨p, hp, hfault⟩ := ih hrest
        exact ⟨p, List.mem_cons_of_mem _ hp, hfault⟩

/-- A key that can be none is all that can keep a map from being made. -/
theorem mapOf_eq_error {pairs : List (Value × Value)} {fault : Fault} (h : mapOf pairs = .error fault) :
    ∃ p ∈ pairs, fault = .typeMismatch "map key" p.1.kind.name := by
  rw [mapOf_eq] at h
  cases hkeyed : keyed pairs with
  | ok given =>
    rw [hkeyed] at h
    cases h
  | error fault' =>
    rw [hkeyed] at h
    cases h
    exact keyed_eq_error hkeyed

end Value

namespace Machine
variable {c : Chunk} {op : Op} {stack stack' : Stack} {w w' : World} {err : Error}

/-! ### One operation -/

/-- The operation called a native function and that failed: the world is as it was but for what the function did on
the host. -/
def CallFails (w : World) (op : Op) (stack : Stack) (err : Error) (w' : World) : Prop :=
  ∃ args callee rest f body host, op = .call args.length ∧ stack = args.reverse ++ callee :: rest ∧
    (∃ m, w.follow m callee = some (.func f)) ∧ f.arity.accepts args.length = true ∧
    Table.get? w.natives f.id = some body ∧ body args (w.host.record (.called f args)) = .error err host ∧
    w' = { w with host }

/-- The operation has no end: a call along vars that goes on from var to var for ever, or an attempt to enter a
monitor that another thread has, which nothing ever leaves. -/
inductive Endless (w : World) : Op → Stack → Prop where
  | call (args : List Value) (callee : Value) (rest : Stack) : (∀ m, ∃ v, w.follow m callee = some (.var v)) →
      Endless w (.call args.length) (args.reverse ++ callee :: rest)
  | enter (target : Value) (rest : Stack) (other : ThreadId) : target ≠ .nil → other ≠ w.thread →
      Monitors.heldBy w.monitors other target = true → Endless w .monitorEnter (target :: rest)

/-- What an operation can do. -/
inductive StepEnds (w : World) (op : Op) (stack : Stack) : EStateM.Result Error World Stack → Prop where
  | done (top : Stack) (w' : World) : op.takes ≤ stack.length → top.length = op.leaves →
      StepEnds w op stack (.ok (top ++ stack.drop op.takes) w')
  | refused (fault : Fault) : (∀ cause, fault ≠ .stalled cause) → StepEnds w op stack (.error (.of fault) w)
  | failed (err : Error) (w' : World) : CallFails w op stack err w' → StepEnds w op stack (.error err w')
  | endless (cause : Stall) : Endless w op stack → StepEnds w op stack (.error (.of (.stalled cause)) w)

theorem popMany_of_lt {n : Nat} (h : stack.length < n) : popMany n stack = .error (.internal .underflow) :=
  if_pos h

/-- An operation with too few values on the stack is refused, whatever else is wrong. -/
theorem step_of_short (c : Chunk) (h : stack.length < op.takes) (w : World) :
    step c op stack w = .error (.of (.internal .underflow)) w := by
  cases op with
  | const | constNil | emptyCollection | pushVar | derefVar | ret => cases h
  | setDynamic | monitorEnter | dup | pop =>
    obtain rfl : stack = [] := List.length_eq_zero_iff.mp (Nat.lt_one_iff.mp h)
    rfl
  | setMetadata | bindRoot =>
    match stack, h with
    | [], _ => rfl
    | [_], _ => rfl
    | _ :: _ :: rest, h => exact absurd h (Nat.not_lt.mpr (Nat.le_add_left 2 rest.length))
  | makeVector count | makeSet count =>
    simp only [step, popMany_of_lt (n := count) h]
    rfl
  | makeMap pairs =>
    simp only [step, popMany_of_lt (n := pairs * 2) h]
    rfl
  | call argCount =>
    by_cases hargs : stack.length < argCount
    · simp only [step, popMany_of_lt hargs]
      rfl
    · -- the arguments are there, and nothing below them
      have hdrop : stack.drop argCount = [] := List.drop_eq_nil_iff.mpr (Nat.lt_succ_iff.mp h)
      simp only [step, popMany_of_le (Nat.not_lt.mp hargs), hdrop]
      rfl

section Inversion

theorem StepEnds.ofExcept {α : Type} {r : Except Fault α} {f : α → Exec Stack}
    (herror : ∀ fault, r = .error fault → ∀ cause, fault ≠ .stalled cause)
    (hok : ∀ a, r = .ok a → StepEnds w op stack (f a w)) : StepEnds w op stack ((Exec.ofExcept r >>= f) w) := by
  cases r with
  | ok a => exact hok a rfl
  | error fault => exact .refused fault (herror fault rfl)

theorem exists_cons_cons (h : 2 ≤ stack.length) : ∃ first second rest, stack = first :: second :: rest := by
  obtain ⟨first, rest, rfl⟩ := List.exists_cons_of_length_pos (Nat.lt_of_lt_of_le Nat.zero_lt_two h)
  obtain ⟨second, rest, rfl⟩ := List.exists_cons_of_length_pos (Nat.le_of_succ_le_succ h)
  exact ⟨first, second, rest, rfl⟩

theorem constant_eq_error {index : Nat} {fault : Fault} (h : constant c index = .error fault) :
    fault = .internal .constantIndex := by
  unfold constant at h
  split at h <;> cases h
  rfl

theorem varAt_eq_error {index : Nat} {fault : Fault} (h : varAt c index = .error fault) :
    fault = .internal .varIndex := by
  unfold varAt at h
  split at h <;> cases h
  rfl

/-- The arguments of a call lie above what is called, the last of them on top. -/
theorem exists_args {n : Nat} (h : n < stack.length) :
    ∃ (args : List Value) (callee : Value) (rest : Stack),
      n = args.length ∧ stack = args.reverse ++ callee :: rest := by
  obtain ⟨callee, rest, hrest⟩ := drop_eq_cons h
  refine ⟨(stack.take n).reverse, callee, rest, ?_, ?_⟩
  · rw [List.length_reverse, List.length_take_of_le (Nat.le_of_lt h)]
  · rw [List.reverse_reverse, ← hrest, List.take_append_drop]

theorem step_call (c : Chunk) (args : List Value) (callee : Value) (rest : Stack) (w : World) :
    step c (.call args.length) (args.reverse ++ callee :: rest) w =
      (do return (← apply callee args) :: rest : Exec Stack) w := by
  simp only [step, popMany_reverse rfl]
  rfl

/-- A call with its arguments and its callee on the stack. -/
theorem call_ends (args : List Value) (callee : Value) (rest : Stack) (w : World) :
    StepEnds w (.call args.length) (args.reverse ++ callee :: rest)
      ((do return (← apply callee args) :: rest : Exec Stack) w) := by
  have htakes : (Op.call args.length).takes ≤ (args.reverse ++ callee :: rest).length := by simp [Op.takes]
  have hdrop : (args.reverse ++ callee :: rest).drop (Op.call args.length).takes = rest := by
    rw [Op.takes, ← List.length_reverse, List.drop_append]
    simp
  cases hcallee : w.callee (w.cells.length + 1) callee with
  | error fault =>
    have hfails : apply callee args w = .error (.of fault) w := by
      rw [apply, Exec.get_bind_apply, hcallee]
      rfl
    rw [Exec.bind_of_error hfails]
    rcases World.callee_eq_error hcallee with rfl | hfault
    · obtain ⟨v, hv⟩ := World.callee_eq_stalled_iff.mp hcallee
      exact .endless _ (.call args callee rest fun m => World.follow_endless hv (Nat.lt_succ_self _) m)
    · exact .refused fault hfault
  | ok f =>
    have happly : apply callee args w = callNative f args w := by
      rw [apply, Exec.get_bind_apply, hcallee]
      rfl
    rcases callNative_spec f args w with
      ⟨fault, hfault, hcall⟩ | ⟨body, haccepts, hbody, ⟨value, host, -, hcall⟩ | ⟨err, host, hraised, hcall⟩⟩
    · rw [Exec.bind_of_error (happly.trans hcall)]
      exact .refused fault hfault
    · rw [Exec.bind_of_ok (happly.trans hcall)]
      have hdone := StepEnds.done (w := w) [value] { w with host } htakes rfl
      rwa [hdrop] at hdone
    · rw [Exec.bind_of_error (happly.trans hcall)]
      exact .failed err _ ⟨args, callee, rest, f, body, host, rfl, rfl, World.follow_of_callee hcallee, haccepts,
        hbody, hraised, rfl⟩

theorem enterMonitor_of_kept {target : Value} (h : Monitors.enter w.monitors w.thread target = .error .kept) :
    enterMonitor target w = .error (.of (.stalled .monitorKept)) w := by
  simp only [enterMonitor, h]

/-- An enter with its target on the stack. -/
theorem enter_ends (target : Value) (rest : Stack) (w : World) :
    StepEnds w .monitorEnter (target :: rest) ((do enterMonitor target; return rest : Exec Stack) w) := by
  have htakes : Op.monitorEnter.takes ≤ (target :: rest).length := Nat.le_add_left 1 rest.length
  have hentered : ∀ monitors, Monitors.enter w.monitors w.thread target = .ok monitors →
      StepEnds w .monitorEnter (target :: rest) ((do enterMonitor target; return rest : Exec Stack) w) := by
    intro monitors h
    obtain ⟨w', hw'⟩ : ∃ w', enterMonitor target w = .ok () w' := by
      simp only [enterMonitor, h]
      split <;> exact ⟨_, rfl⟩
    rw [Exec.bind_of_ok hw']
    exact .done [] w' htakes rfl
  rcases Monitors.enter_cases w.monitors w.thread target with
    ⟨-, h⟩ | ⟨hnil, ⟨-, h⟩ | ⟨m, hm, ⟨-, h⟩ | ⟨howner, h⟩⟩⟩
  · have hfails : enterMonitor target w = .error (.of (.runtime .nilMonitor)) w := by simp only [enterMonitor, h]
    rw [Exec.bind_of_error hfails]
    exact .refused _ (by simp)
  · exact hentered _ h
  · exact hentered _ h
  · rw [Exec.bind_of_error (enterMonitor_of_kept h)]
    exact .endless _ (.enter target rest m.owner hnil howner (by simp [Monitors.heldBy, hm]))

/-- An operation does one of the things that it can do. -/
theorem step_ends (c : Chunk) (op : Op) (stack : Stack) (w : World) : StepEnds w op stack (step c op stack w) := by
  by_cases hshort : stack.length < op.takes
  · rw [step_of_short c hshort w]
    exact .refused _ (by simp)
  have htakes := Nat.not_lt.mp hshort
  cases op with
  | const index =>
    exact .ofExcept (fun fault h => by simp [constant_eq_error h]) fun value _ => .done [value] w htakes rfl
  | constNil => exact .done [.nil] w htakes rfl
  | emptyCollection kind => exact .done [kind.empty] w htakes rfl
  | pushVar index =>
    exact .ofExcept (fun fault h => by simp [varAt_eq_error h]) fun v _ => .done [.var v] w htakes rfl
  | derefVar index =>
    refine .ofExcept (fun fault h => by simp [varAt_eq_error h]) fun v _ => ?_
    exact StepEnds.ofExcept (r := w.deref v) (fun fault h => by simp [World.deref_eq_error h])
      fun value _ => .done [value] w htakes rfl
  | setDynamic =>
    obtain ⟨top, rest, rfl⟩ := List.exists_cons_of_length_pos htakes
    cases top with
    | var v => exact .done [.var v] _ htakes rfl
    | _ => exact .refused _ (by simp)
  | setMetadata =>
    obtain ⟨metadata, target, rest, rfl⟩ := exists_cons_cons htakes
    cases target with
    | var v =>
      cases metadata with
      | map entries => exact .done [] _ htakes rfl
      | _ => exact .refused _ (by simp)
    | _ => exact .refused _ (by simp)
  | bindRoot =>
    obtain ⟨value, target, rest, rfl⟩ := exists_cons_cons htakes
    cases target with
    | var v => exact .done [] _ htakes rfl
    | _ => exact .refused _ (by simp)
  | makeVector count =>
    simp only [step, popMany_of_le (n := count) htakes]
    exact .done [_] w htakes rfl
  | makeSet count =>
    simp only [step, popMany_of_le (n := count) htakes]
    exact .done [_] w htakes rfl
  | makeMap pairs =>
    simp only [step, popMany_of_le (n := pairs * 2) htakes]
    refine .ofExcept (fun fault h => by cases h) fun popped h => ?_
    cases h
    exact .ofExcept (fun fault h => by obtain ⟨p, -, rfl⟩ := Value.mapOf_eq_error h; simp)
      fun entries _ => .done [.map entries] w htakes rfl
  | call argCount =>
    obtain ⟨args, callee, rest, rfl, rfl⟩ := exists_args htakes
    rw [step_call]
    exact call_ends args callee rest w
  | monitorEnter =>
    obtain ⟨target, rest, rfl⟩ := List.exists_cons_of_length_pos htakes
    exact enter_ends target rest w
  | dup =>
    obtain ⟨top, rest, rfl⟩ := List.exists_cons_of_length_pos htakes
    exact .done [top, top] w htakes rfl
  | pop =>
    obtain ⟨top, rest, rfl⟩ := List.exists_cons_of_length_pos htakes
    exact .done [] w htakes rfl
  | ret => exact .done [] w htakes rfl

/-- An operation that has no end is cut off, and has changed nothing. -/
theorem Endless.step_eq (h : Endless w op stack) (c : Chunk) :
    ∃ cause, step c op stack w = .error (.of (.stalled cause)) w := by
  cases h with
  | call args callee rest hchain =>
    have happly : apply callee args w = .error (.of (.stalled .varCycle)) w := by
      rw [apply_eq_callee, World.callee_eq_stalled_iff.mpr (hchain _)]
      rfl
    exact ⟨.varCycle, (step_call c args callee rest w).trans (Exec.bind_of_error happly)⟩
  | enter target rest other hnil hother hheld =>
    rcases Monitors.enter_cases w.monitors w.thread target with
      ⟨rfl, -⟩ | ⟨-, ⟨hget, -⟩ | ⟨m, hget, ⟨howner, -⟩ | ⟨-, henter⟩⟩⟩
    · exact absurd rfl hnil
    · simp [Monitors.heldBy, hget] at hheld
    · have heq : m.owner = other := by simpa [Monitors.heldBy, hget] using hheld
      exact absurd (heq ▸ howner) hother
    · have hstep : step c .monitorEnter (target :: rest) w = (do enterMonitor target; return rest : Exec Stack) w := rfl
      exact ⟨.monitorKept, hstep.trans (Exec.bind_of_error (enterMonitor_of_kept henter))⟩

theorem CallFails.step_eq (h : CallFails w op stack err w') (c : Chunk) : step c op stack w = .error err w' := by
  obtain ⟨args, callee, rest, f, body, host, rfl, rfl, ⟨m, hm⟩, haccepts, hbody, hraised, rfl⟩ := h
  have happly : apply callee args w = .error err { w with host } := by
    rw [(applies_of_follow hm (.func f)).apply_eq]
    simp [callNative, haccepts, hbody, hraised]
  exact (step_call c args callee rest w).trans (Exec.bind_of_error happly)

/-- A call that fails in a native function has come to the end of its vars. -/
theorem CallFails.not_endless (h : CallFails w op stack err w') : ¬Endless w op stack := by
  obtain ⟨args, callee, rest, f, body, host, hop, rfl, ⟨m, hm⟩, -⟩ := h
  generalize hstack : args.reverse ++ callee :: rest = stack
  intro hendless
  cases hendless with
  | enter => cases hop
  | call args' callee' rest' hchain =>
    have hlength : args.length = args'.length := (Op.call.inj hop).symm
    obtain ⟨-, hrest⟩ := List.append_inj hstack (by rw [List.length_reverse, List.length_reverse, hlength])
    obtain ⟨v, hv⟩ := hchain m
    rw [← (List.cons.inj hrest).1, hm] at hv
    cases hv

end Inversion

theorem ne_ret_of_error (h : step c op stack w = .error err w') : op ≠ .ret := by
  rintro rfl
  cases h

/-! ### Runs -/

/-- The run of a chunk comes to the instruction at this place, with this stack and in this world. -/
inductive Reaches (c : Chunk) (w₀ : World) : Nat → Stack → World → Prop where
  | start : Reaches c w₀ 0 [] (w₀.note (.running c.source c.code.length))
  | next {n : Nat} {i : Instruction} {stack stack' : Stack} {w w' : World} : Reaches c w₀ n stack w →
      c.code[n]? = some i → i.op ≠ .ret → step c i.op stack w = .ok stack' w' →
      Reaches c w₀ (n + 1) stack' w'

section Runs
variable {w₀ : World} {n : Nat} {i : Instruction}

theorem runCode_cons_of_ne (h : i.op ≠ .ret) (c : Chunk) (rest : List Instruction) (stack : Stack) :
    runCode c (i :: rest) stack = (do
      let stack ← Exec.locating { file := c.source, line := i.span.line } (step c i.op stack)
      runCode c rest stack) := by
  rw [runCode]
  split
  · next hret => exact absurd hret h
  · rfl

theorem drop_of_getElem? {code : List Instruction} (h : code[n]? = some i) : code.drop n = i :: code.drop (n + 1) := by
  obtain ⟨hlt, rfl⟩ := List.getElem?_eq_some_iff.mp h
  exact List.drop_eq_getElem_cons hlt

/-- The rest of the run is that of the instructions that are left. -/
theorem Reaches.run_eq (h : Reaches c w₀ n stack w) : c.run w₀ = runCode c (c.code.drop n) stack w := by
  induction h with
  | start => rfl
  | next _ hi hret hstep ih =>
    rw [ih, drop_of_getElem? hi, runCode_cons_of_ne hret, Exec.locating_eq_adapt,
      Exec.bind_of_ok (Exec.adapt_of_ok _ hstep)]

theorem Reaches.run_of_ret (h : Reaches c w₀ n stack w) (hi : c.code[n]? = some i) (hret : i.op = .ret) :
    c.run w₀ = .ok (stack.headD .nil) w := by
  rw [h.run_eq, drop_of_getElem? hi, runCode, hret]
  rfl

theorem Reaches.run_of_error (h : Reaches c w₀ n stack w) (hi : c.code[n]? = some i)
    (hstep : step c i.op stack w = .error err w') :
    c.run w₀ = .error (err.locate { file := c.source, line := i.span.line }) w' := by
  rw [h.run_eq, drop_of_getElem? hi, runCode_cons_of_ne (ne_ret_of_error hstep), Exec.locating_eq_adapt,
    Exec.bind_of_error (Exec.adapt_of_error _ hstep)]

theorem Reaches.run_of_end (h : Reaches c w₀ c.code.length stack w) :
    c.run w₀ = .error (.of (.internal .noReturn)) w := by
  rw [h.run_eq, List.drop_length]
  rfl

theorem Reaches.le_length (h : Reaches c w₀ n stack w) : n ≤ c.code.length := by
  induction h with
  | start => exact Nat.zero_le _
  | next _ hi _ _ _ => exact (List.getElem?_eq_some_iff.mp hi).1

/-- A run comes to an instruction in one way only. -/
theorem Reaches.unique (h : Reaches c w₀ n stack w) (h' : Reaches c w₀ n stack' w') : stack' = stack ∧ w' = w := by
  induction h generalizing stack' w' with
  | start =>
    cases h'
    exact ⟨rfl, rfl⟩
  | next _ hi _ hstep ih =>
    cases h' with
    | next hbefore hi' _ hstep' =>
      obtain ⟨rfl, rfl⟩ := ih hbefore
      cases hi.symm.trans hi'
      cases hstep.symm.trans hstep'
      exact ⟨rfl, rfl⟩

/-- A run does not get past an instruction that fails. -/
theorem Reaches.le_of_error (h : Reaches c w₀ n stack w) (hi : c.code[n]? = some i)
    (hstep : step c i.op stack w = .error err w') {n' : Nat} {stack' : Stack} {w'' : World}
    (h' : Reaches c w₀ n' stack' w'') : n' ≤ n := by
  induction h' with
  | start => exact Nat.zero_le n
  | next hbefore hi' _ hstep' ih =>
    refine Nat.lt_of_le_of_ne ih ?_
    rintro rfl
    obtain ⟨rfl, rfl⟩ := h.unique hbefore
    cases hi.symm.trans hi'
    cases hstep.symm.trans hstep'

/-- A run goes on from where it is to where it stops: at a return, at a failing instruction or at the end. -/
theorem Reaches.exists_stop (h : Reaches c w₀ n stack w) : ∃ n stack w, Reaches c w₀ n stack w ∧
    ∀ i, c.code[n]? = some i → i.op = .ret ∨ ∃ err w', step c i.op stack w = .error err w' := by
  -- induction on the number of instructions that are left
  induction hleft : c.code.length - n generalizing n stack w with
  | zero =>
    refine ⟨n, stack, w, h, fun i hi => ?_⟩
    have hlt := (List.getElem?_eq_some_iff.mp hi).1
    omega
  | succ left ih =>
    obtain ⟨i, hi⟩ : ∃ i, c.code[n]? = some i := ⟨_, List.getElem?_eq_getElem (by omega)⟩
    by_cases hret : i.op = .ret
    · exact ⟨n, stack, w, h, fun j hj => .inl (by rw [hi] at hj; cases hj; exact hret)⟩
    · cases hstep : step c i.op stack w with
      | ok stack' w' => exact ih (h.next hi hret hstep) (by omega)
      | error err w' =>
        exact ⟨n, stack, w, h, fun j hj => .inr ⟨err, w', by rw [hi] at hj; cases hj; exact hstep⟩⟩

/-- The stack is as deep as what was left on it exceeds what was taken from it. -/
theorem Reaches.depth (h : Reaches c w₀ n stack w) :
    stack.length + ((c.code.take n).map (·.op.takes)).sum = ((c.code.take n).map (·.op.leaves)).sum := by
  induction h with
  | start => rfl
  | @next n i stack stack' w w' _ hi _ hstep ih =>
    have hends := step_ends c i.op stack w
    rw [hstep] at hends
    obtain ⟨top, _, htakes, htop⟩ := hends
    rw [List.take_add_one, hi]
    simp only [Option.toList_some, List.map_append, List.sum_append, List.map_cons, List.map_nil, List.sum_singleton,
      List.length_append, List.length_drop, htop]
    omega

end Runs

/-! ### Instructions that are not reached -/

/-- The same world with another log. -/
def Relogged (log : List LogRecord) (w w' : World) : Prop :=
  w' = { w with log }

/-- Failures with the same error, in worlds that are the same but for the log. -/
def FailRelogged (log : List LogRecord) (err err' : Error) (w w' : World) : Prop :=
  err = err' ∧ Relogged log w w'

/-- The computation does not read the log, and leaves it alone. -/
def Blind {α : Type} (x : Exec α) : Prop :=
  ∀ log, Exec.Couples (Relogged log) (Relogged log) (FailRelogged log) x x

section Blind
variable {α β : Type}

theorem blind_pure (a : α) : Blind (pure a : Exec α) :=
  fun _ => .pure a fun _ _ h => h

theorem blind_fail (fault : Fault) : Blind (Exec.fail fault : Exec α) :=
  fun _ _ _ h => ⟨rfl, h⟩

theorem blind_ofExcept (r : Except Fault α) : Blind (Exec.ofExcept r) :=
  fun _ => .ofExcept r (fun _ _ h => h) fun _ _ _ h => ⟨rfl, h⟩

theorem Blind.bind {x : Exec α} {f : α → Exec β} (hx : Blind x) (hf : ∀ a, Blind (f a)) : Blind (x >>= f) :=
  fun log => (hx log).bind fun a => hf a log

theorem blind_modify {f : World → World} (h : ∀ w log, f { w with log } = { f w with log }) :
    Blind (modify f : Exec Unit) := by
  intro log
  refine .update ?_
  rintro w _ rfl
  exact h w log

theorem callee_withLog (w : World) (log : List LogRecord) (n : Nat) (x : Value) :
    ({ w with log } : World).callee n x = w.callee n x := by
  induction n generalizing x with
  | zero => cases x <;> rfl
  | succ n ih =>
    cases x with
    | var v =>
      simp only [World.callee, ih]
      rfl
    | _ => rfl

theorem blind_callNative (f : Native) (args : List Value) : Blind (callNative f args) := by
  rintro log w _ rfl
  simp only [callNative]
  split
  · split
    · exact ⟨rfl, rfl⟩
    · split <;> exact ⟨rfl, rfl⟩
  · exact ⟨rfl, rfl⟩

theorem blind_apply (callee : Value) (args : List Value) : Blind (apply callee args) := by
  rintro log w _ rfl
  rw [apply, Exec.get_bind_apply, Exec.get_bind_apply, callee_withLog w log]
  exact (blind_ofExcept _).bind (fun f => blind_callNative f args) log w _ rfl

theorem blind_enterMonitor (target : Value) : Blind (enterMonitor target) := by
  rintro log w _ rfl
  simp only [enterMonitor]
  split
  · split <;> exact ⟨rfl, rfl⟩
  · exact ⟨rfl, rfl⟩
  · exact ⟨rfl, rfl⟩

theorem blind_step (c : Chunk) (op : Op) (stack : Stack) : Blind (step c op stack) := by
  cases op with
  | const index => exact (blind_ofExcept _).bind fun value => blind_pure _
  | constNil | emptyCollection kind | ret => exact blind_pure _
  | pushVar index => exact (blind_ofExcept _).bind fun v => blind_pure _
  | derefVar index =>
    refine (blind_ofExcept _).bind fun v => .bind ?_ fun value => blind_pure _
    rintro log w _ rfl
    exact blind_ofExcept (w.deref v) log w _ rfl
  | setDynamic =>
    refine (blind_ofExcept _).bind fun popped => ?_
    split
    · exact .bind (blind_modify fun _ _ => rfl) fun _ => blind_pure _
    · exact blind_fail _
  | setMetadata =>
    refine (blind_ofExcept _).bind fun first => (blind_ofExcept _).bind fun second => ?_
    obtain ⟨metadata, rest⟩ := first
    cases metadata with
    | map entries => exact .bind (blind_modify fun _ _ => rfl) fun _ => blind_pure _
    | _ => exact blind_fail _
  | bindRoot =>
    exact (blind_ofExcept _).bind fun first => (blind_ofExcept _).bind fun second =>
      .bind (blind_modify fun _ _ => rfl) fun _ => blind_pure _
  | makeVector count | makeSet count => exact (blind_ofExcept _).bind fun popped => blind_pure _
  | makeMap pairs => exact (blind_ofExcept _).bind fun popped => (blind_ofExcept _).bind fun entries => blind_pure _
  | call argCount =>
    exact (blind_ofExcept _).bind fun popped => (blind_ofExcept _).bind fun second =>
      (blind_apply _ _).bind fun value => blind_pure _
  | monitorEnter =>
    exact (blind_ofExcept _).bind fun popped => (blind_enterMonitor _).bind fun _ => blind_pure _
  | dup | pop => exact (blind_ofExcept _).bind fun popped => blind_pure _

end Blind

/-- What a run comes to does not depend on instructions that it has not come to. -/
theorem Reaches.with_code {w₀ : World} {n : Nat} (h : Reaches c w₀ n stack w) {code : List Instruction}
    (hcode : ∀ k < n, code[k]? = c.code[k]?) :
    Reaches { c with code } w₀ n stack { w with log := w₀.log ++ [.running c.source code.length] } := by
  induction h with
  | start => exact .start
  | @next n i stack stack' w w' _ hi hret hstep ih =>
    have hblind := blind_step c i.op stack (w₀.log ++ [.running c.source code.length]) w _ rfl
    rw [hstep] at hblind
    obtain ⟨w'', hstep', rfl⟩ := hblind.of_ok
    have hsame : step { c with code } i.op stack = step c i.op stack := by cases i.op <;> rfl
    refine (ih fun k hk => hcode k (Nat.lt_succ_of_lt hk)).next (i := i) ?_ hret (hsame ▸ hstep')
    rw [hcode n (Nat.lt_succ_self n), hi]

/-! ### Main result -/

/-- How the run of a chunk can end. -/
inductive Ends (c : Chunk) (w₀ : World) : EStateM.Result Error World Value → Prop where
  /-- At the first return: with the value on top of the stack, or nil if there is none. -/
  | returned {n : Nat} {i : Instruction} {stack : Stack} {w : World} : Reaches c w₀ n stack w →
      c.code[n]? = some i → i.op = .ret → Ends c w₀ (.ok (stack.headD .nil) w)
  /-- At the first instruction that fails: it was refused, and the world is as it was before it. -/
  | refused {n : Nat} {i : Instruction} {stack : Stack} {w : World} {fault : Fault} : Reaches c w₀ n stack w →
      c.code[n]? = some i → step c i.op stack w = .error (.of fault) w → (∀ cause, fault ≠ .stalled cause) →
      Ends c w₀ (.error (.located { file := c.source, line := i.span.line } { fault }) w)
  /-- At the first instruction that fails: the native function that it called failed without a position. -/
  | failed {n : Nat} {i : Instruction} {stack : Stack} {w w' : World} {failure : Failure} : Reaches c w₀ n stack w →
      c.code[n]? = some i → CallFails w i.op stack (.plain failure) w' →
      Ends c w₀ (.error (.located { file := c.source, line := i.span.line } failure) w')
  /-- At the first instruction that fails: the native function that it called gave its own position. -/
  | placed {n : Nat} {i : Instruction} {stack : Stack} {w w' : World} {pos : SourcePos} {cause : Failure} :
      Reaches c w₀ n stack w → c.code[n]? = some i → CallFails w i.op stack (.located pos cause) w' →
      Ends c w₀ (.error (.located pos cause) w')
  /-- After the last instruction, where there was no return. -/
  | ranOut {stack : Stack} {w : World} : Reaches c w₀ c.code.length stack w →
      Ends c w₀ (.error (.plain { fault := .internal .noReturn }) w)

/-- Any code whatsoever, in any world, either comes to an operation that has no end, or ends in one of these ways. -/
theorem ends_or_endless (c : Chunk) (w₀ : World) : Ends c w₀ (c.run w₀) ∨
    ∃ n i stack w, Reaches c w₀ n stack w ∧ c.code[n]? = some i ∧ Endless w i.op stack := by
  have hstart : Reaches c w₀ 0 [] (w₀.note (.running c.source c.code.length)) := .start
  obtain ⟨n, stack, w, h, hstop⟩ := hstart.exists_stop
  cases hi : c.code[n]? with
  | none =>
    obtain rfl : n = c.code.length := Nat.le_antisymm h.le_length (List.getElem?_eq_none_iff.mp hi)
    rw [h.run_of_end]
    exact .inl (.ranOut h)
  | some i =>
    by_cases hret : i.op = .ret
    · rw [h.run_of_ret hi hret]
      exact .inl (.returned h hi hret)
    · obtain ⟨err, w', hstep⟩ := (hstop i hi).resolve_left hret
      have hends := step_ends c i.op stack w
      rw [h.run_of_error hi hstep]
      rw [hstep] at hends
      cases hends with
      | refused fault hfault => exact .inl (.refused h hi hstep hfault)
      | failed _ _ hfails =>
        cases err with
        | plain failure => exact .inl (.failed h hi hfails)
        | located pos cause => exact .inl (.placed h hi hfails)
      | endless _ hendless => exact .inr ⟨n, i, stack, w, h, hi, hendless⟩

/-- Every call that the run comes to is of a value from which the vars lead to an end. -/
def CallsEnd (c : Chunk) (w₀ : World) : Prop :=
  ∀ n i stack w, Reaches c w₀ n stack w → c.code[n]? = some i →
    ∀ (args : List Value) (callee : Value) (rest : Stack), i.op = .call args.length →
      stack = args.reverse ++ callee :: rest → ∃ m, ∀ v, w.follow m callee ≠ some (.var v)

/-- No monitor that the run comes to enter is another thread's. -/
def MonitorsFree (c : Chunk) (w₀ : World) : Prop :=
  ∀ n i stack w, Reaches c w₀ n stack w → c.code[n]? = some i → i.op = .monitorEnter → ∀ target rest,
    stack = target :: rest → target ≠ .nil → ∀ other, Monitors.heldBy w.monitors other target = true →
    other = w.thread

theorem not_endless_iff {c : Chunk} {w₀ : World} :
    (∀ n i stack w, Reaches c w₀ n stack w → c.code[n]? = some i → ¬Endless w i.op stack) ↔
      CallsEnd c w₀ ∧ MonitorsFree c w₀ := by
  constructor
  · intro h
    refine ⟨fun n i stack w hreach hi args callee rest hop hstack => ?_,
      fun n i stack w hreach hi hop target rest hstack hnil other hheld => ?_⟩
    · by_contra hchain
      push Not at hchain
      refine h n i stack w hreach hi ?_
      rw [hop, hstack]
      exact .call args callee rest hchain
    · by_contra hother
      refine h n i stack w hreach hi ?_
      rw [hop, hstack]
      exact .enter target rest other hnil hother hheld
  · rintro ⟨hcalls, hfree⟩ n i stack w hreach hi hendless
    generalize hop : i.op = op at hendless
    cases hendless with
    | call args callee rest hchain =>
      obtain ⟨m, hm⟩ := hcalls n i _ w hreach hi args callee rest hop rfl
      obtain ⟨v, hv⟩ := hchain m
      exact hm v hv
    | enter target rest other hnil hother hheld =>
      exact hother (hfree n i _ w hreach hi hop target rest rfl hnil other hheld)

/-- A run that comes to an operation that has no end does not end. -/
theorem Reaches.not_ends {w₀ : World} {n : Nat} {i : Instruction} (h : Reaches c w₀ n stack w)
    (hi : c.code[n]? = some i) (hendless : Endless w i.op stack) : ¬Ends c w₀ (c.run w₀) := by
  obtain ⟨cause, hstep⟩ := hendless.step_eq c
  -- a native function may give the same error, but the run does not come to a call of it
  have hcall : ∀ {n' i' stack' w' err w''}, Reaches c w₀ n' stack' w' → c.code[n']? = some i' →
      ¬CallFails w' i'.op stack' err w'' := by
    intro n' i' stack' w' err w'' h' hi' hfails
    obtain rfl : n' = n :=
      Nat.le_antisymm (h.le_of_error hi hstep h') (h'.le_of_error hi' (hfails.step_eq c) h)
    obtain ⟨rfl, rfl⟩ := h.unique h'
    cases hi.symm.trans hi'
    exact hfails.not_endless hendless
  rw [h.run_of_error hi hstep]
  generalize hr : EStateM.Result.error _ w = r
  intro hends
  cases hends with
  | returned => cases hr
  | refused _ _ _ hfault =>
    injection hr with herr
    injection herr with _ hcause
    injection hcause with hstalled
    exact hfault cause hstalled.symm
  | failed h' hi' hfails => exact hcall h' hi' hfails
  | placed h' hi' hfails => exact hcall h' hi' hfails
  | ranOut => cases hr

/-- The run ends unless it comes to an operation that has no end. -/
theorem ends_iff (c : Chunk) (w₀ : World) : Ends c w₀ (c.run w₀) ↔ CallsEnd c w₀ ∧ MonitorsFree c w₀ := by
  rw [← not_endless_iff]
  constructor
  · intro hends n i stack w h hi hendless
    exact h.not_ends hi hendless hends
  · intro hfree
    rcases ends_or_endless c w₀ with hends | ⟨n, i, stack, w, h, hi, hendless⟩
    · exact hends
    · exact absurd hendless (hfree n i stack w h hi)

theorem Reaches.run_of_ret_with_code {w₀ : World} {n : Nat} {i : Instruction} (h : Reaches c w₀ n stack w)
    (hi : c.code[n]? = some i) (hret : i.op = .ret) (rest : List Instruction) :
    Chunk.run { c with code := c.code.take (n + 1) ++ rest } w₀ =
      .ok (stack.headD .nil) { w with log := w₀.log ++ [.running c.source (n + 1 + rest.length)] } := by
  have hlt : n < c.code.length := (List.getElem?_eq_some_iff.mp hi).1
  have hcode : ∀ k < n + 1, (c.code.take (n + 1) ++ rest)[k]? = c.code[k]? := by
    intro k hk
    rw [List.getElem?_append_left (by rw [List.length_take]; omega), List.getElem?_take_of_lt hk]
  have hlength : (c.code.take (n + 1) ++ rest).length = n + 1 + rest.length := by
    rw [List.length_append, List.length_take]
    omega
  rw [← hlength]
  exact (h.with_code fun k hk => hcode k (Nat.lt_succ_of_lt hk)).run_of_ret
    ((hcode n (Nat.lt_succ_self n)).trans hi) hret

/-- Any code can be run. The run ends exactly if no call that it comes to goes on from var to var for ever, and no
monitor that it comes to enter is another thread's. It ends by returning what is on top of the stack, whatever
instructions follow the return; or at the first instruction that fails, which is where the error is located and has
changed nothing, but for the host if a native function failed; or by running out of instructions. Nothing is ever taken
from below the stack: an instruction that needs more than there is fails, and what was left on the stack is what was
taken from it and what is there. Native functions are given their arguments and the host only, and are taken to return:
one that fails has written to no var, binding, namespace or monitor. -/
theorem any_code_ends_safely (c : Chunk) (w₀ : World) :
    (Ends c w₀ (c.run w₀) ↔ CallsEnd c w₀ ∧ MonitorsFree c w₀) ∧
    (∀ n i stack w, Reaches c w₀ n stack w → c.code[n]? = some i → i.op = .ret → ∀ rest,
      Chunk.run { c with code := c.code.take (n + 1) ++ rest } w₀ =
        .ok (stack.headD .nil) { w with log := w₀.log ++ [.running c.source (n + 1 + rest.length)] }) ∧
    ∀ n stack w, Reaches c w₀ n stack w →
      stack.length + ((c.code.take n).map (·.op.takes)).sum = ((c.code.take n).map (·.op.leaves)).sum ∧
      ∀ i, c.code[n]? = some i → stack.length < i.op.takes →
        c.run w₀ = .error (.located { file := c.source, line := i.span.line } { fault := .internal .underflow }) w := by
  refine ⟨ends_iff c w₀, fun n i stack w h hi hret rest => h.run_of_ret_with_code hi hret rest,
    fun n stack w h => ⟨h.depth, fun i hi hshort => ?_⟩⟩
  exact h.run_of_error hi (step_of_short c hshort w)

/-- Code that enters a monitor and calls a number, code with a return in its middle, and code that takes three values
where there is one. -/
theorem any_code_ends_safely_hand_written :
    let w := World.start {} .watching
    let entering : Chunk := {
      source := "a.clv"
      constants := [.int 1]
      code := [{ op := .const 0 }, { op := .monitorEnter }, { op := .const 0 }, { op := .call 0 }] }
    let code : List Instruction := [{ op := .constNil }, { op := .dup }, { op := .makeVector 2 }, { op := .ret }]
    let short : Chunk :=
      { source := "a.clv", code := [{ op := .constNil }, { op := .makeVector 3, span := { line := 4 } }] }
    Ends entering w (entering.run w) ∧
    (∀ rest, ∃ w', Chunk.run { source := "a.clv", code := code ++ rest } w = .ok (.vector [.nil, .nil]) w') ∧
    ∃ w', short.run w = .error (.located { file := "a.clv", line := 4 } { fault := .internal .underflow }) w' := by
  intro w entering code short
  refine ⟨?_, fun rest => ?_, ?_⟩
  · have henter : Reaches entering w 1 [.int 1] _ := Reaches.start.next rfl (by decide) rfl
    have hcall : Reaches entering w 3 [.int 1] _ :=
      (henter.next rfl (by decide) rfl).next rfl (by decide) rfl
    refine (any_code_ends_safely entering w).1.mpr
      ⟨fun n i stack w' h hi args callee rest hop hstack => ?_,
        fun n i stack w' h hi hop target rest hstack _ other hheld => ?_⟩
    · obtain rfl : n = 3 := by rcases n with _ | _ | _ | _ | n <;> cases hi <;> first | rfl | cases hop
      cases hi
      obtain rfl : args = [] := List.length_eq_zero_iff.mp (Op.call.inj hop).symm
      obtain ⟨rfl, -⟩ := hcall.unique h
      cases hstack
      exact ⟨0, by simp [World.follow]⟩
    · obtain rfl : n = 1 := by rcases n with _ | _ | _ | _ | n <;> cases hi <;> first | rfl | cases hop
      obtain ⟨rfl, rfl⟩ := henter.unique h
      cases hstack
      -- nobody has entered a monitor yet
      cases hheld
  · have hreach : Reaches { source := "a.clv", code } w 3 [.vector [.nil, .nil]] _ :=
      ((Reaches.start.next rfl (by decide) rfl).next rfl (by decide) rfl).next rfl (by decide) rfl
    exact ⟨_, (any_code_ends_safely { source := "a.clv", code } w).2.1 3 _ _ _ hreach rfl rfl rest⟩
  · have hreach : Reaches short w 1 [.nil] _ := Reaches.start.next rfl (by decide) rfl
    exact ⟨_, ((any_code_ends_safely short w).2.2 1 _ _ hreach).2 _ rfl (by decide)⟩

/-- Code that enters the monitor of `1` does not end where another thread has entered it, though it calls nothing. -/
theorem entering_kept_monitor_never_ends :
    let start := World.start {} .watching
    let w := (Exec.finalWorld (enterMonitor (.int 1)) start.startThread).resumeThread start
    let c : Chunk := {
      source := "a.clv"
      constants := [.int 1]
      code := [{ op := .const 0 }, { op := .monitorEnter }, { op := .constNil }, { op := .ret }] }
    CallsEnd c w ∧ ¬Ends c w (c.run w) := by
  intro start w c
  constructor
  · intro n i stack w' _ hi args callee rest hop
    rcases n with _ | _ | _ | _ | n <;> cases hi <;> cases hop
  · have henter : Reaches c w 1 [.int 1] _ := Reaches.start.next rfl (by decide) rfl
    exact henter.not_ends rfl (.enter (.int 1) [] start.nextThread (by simp) (by decide) (by decide +kernel))

end Machine
end LispCore
