import LispCore.Code
import LispCore.Monitor
import LispCore.Native

/-!
# The stack machine

The machine runs a chunk from its first instruction to the first return. It trusts nothing: indices, the
depth of the stack and the kinds of the values on it are checked, and an error is located at the line of the
failing instruction. The stack is a list with its top first.
-/

namespace LispCore

abbrev Stack := List Value

namespace Machine

/-- Takes the topmost value. -/
def pop : Stack → Except Fault (Value × Stack)
  | [] => .error (.internal .underflow)
  | value :: rest => .ok (value, rest)

/-- Takes the topmost value, which has to be a var. -/
def popVar (stack : Stack) : Except Fault (Var × Stack) := do
  match ← pop stack with
  | (.var v, rest) => .ok (v, rest)
  | (other, _) => .error (.internal (.expectedVar other.kind))

/-- Takes the `n` topmost values, the lowest of them first. -/
def popMany (n : Nat) (stack : Stack) : Except Fault (List Value × Stack) :=
  if stack.length < n then .error (.internal .underflow)
  else .ok ((stack.take n).reverse, stack.drop n)

/-- Neighbours as pairs; a last one without a partner is dropped. -/
def pairUp : List Value → List (Value × Value)
  | k :: v :: rest => (k, v) :: pairUp rest
  | _ => []

def constant (c : Chunk) (index : Nat) : Except Fault Value :=
  match c.constants[index]? with
  | some value => .ok value
  | none => .error (.internal .constantIndex)

def varAt (c : Chunk) (index : Nat) : Except Fault Var :=
  match c.vars[index]? with
  | some v => .ok v
  | none => .error (.internal .varIndex)

/-- One operation other than a return. -/
def step (c : Chunk) (op : Op) (stack : Stack) : Exec Stack := do
  match op with
  | .const index => return (← Exec.ofExcept (constant c index)) :: stack
  | .constNil => return .nil :: stack
  | .emptyCollection kind => return kind.empty :: stack
  | .pushVar index => return .var (← Exec.ofExcept (varAt c index)) :: stack
  | .derefVar index =>
    let v ← Exec.ofExcept (varAt c index)
    return (← deref v) :: stack
  | .setDynamic =>
    match ← Exec.ofExcept (pop stack) with
    | (.var v, _) =>
      modify (·.setDynamic v)
      return stack
    | _ => Exec.fail (.internal .dynamicNeedsVar)
  | .setMetadata =>
    let (metadata, rest) ← Exec.ofExcept (pop stack)
    let (v, rest) ← Exec.ofExcept (popVar rest)
    match metadata with
    | .map entries =>
      modify (·.setMetadata v entries)
      return rest
    | other => Exec.fail (.typeMismatch "map" other.kind.name)
  | .bindRoot =>
    let (value, rest) ← Exec.ofExcept (pop stack)
    let (v, rest) ← Exec.ofExcept (popVar rest)
    modify (·.bindRoot v value)
    return rest
  | .makeVector count =>
    let (items, rest) ← Exec.ofExcept (popMany count stack)
    return .vector items :: rest
  | .makeSet count =>
    let (items, rest) ← Exec.ofExcept (popMany count stack)
    return .set (Value.setOf items) :: rest
  | .makeMap pairs =>
    let (items, rest) ← Exec.ofExcept (popMany (pairs * 2) stack)
    return .map (← Exec.ofExcept (Value.mapOf (pairUp items))) :: rest
  | .call argCount =>
    let (args, rest) ← Exec.ofExcept (popMany argCount stack)
    let (callee, rest) ← Exec.ofExcept (pop rest)
    return (← apply callee args) :: rest
  | .monitorEnter =>
    let (target, rest) ← Exec.ofExcept (pop stack)
    enterMonitor target
    return rest
  | .dup =>
    let (top, _) ← Exec.ofExcept (pop stack)
    return top :: stack
  | .pop =>
    let (_, rest) ← Exec.ofExcept (pop stack)
    return rest
  | .ret => return stack

/-- Runs instructions in turn, up to the first return or failure. -/
def runCode (c : Chunk) : List Instruction → Stack → Exec Value
  | [], _ => Exec.fail (.internal .noReturn)
  | i :: rest, stack =>
    match i.op with
    | .ret => pure (stack.headD .nil)
    | op => do
      let stack ← Exec.locating { file := c.source, line := i.span.line } (step c op stack)
      runCode c rest stack

end Machine

/-- Runs a chunk on an empty stack. -/
def Chunk.run (c : Chunk) : Exec Value := do
  modify (·.note (.running c.source c.code.length))
  Machine.runCode c c.code []

end LispCore
