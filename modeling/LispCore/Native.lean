import LispCore.Binding
import LispCore.Namespace

/-!
# Calls

A native function checks its argument count and then does its work on the host. A var can be called too: the
call goes to its current value, and so on along a chain of vars. A chain that comes back to a var it has
passed has no end; on any other, every var but perhaps the last has a cell, which bounds the search.
-/

namespace LispCore

namespace World

/-- The native function that a callee leads to, following at most `steps` vars. -/
def callee (w : World) : Nat → Value → Except Fault Native
  | _, .func f => .ok f
  | 0, .var _ => .error (.stalled .varCycle)
  | steps + 1, .var v => do w.callee steps (← w.deref v)
  | _, other => .error (.typeMismatch "function" other.kind.name)

/-- A new native function. -/
def createNative (w : World) (name : String) (arity : Arity) (body : NativeBody) : Native × World :=
  let f : Native := { id := w.nextId, name, arity }
  (f, { w with nextId := w.nextId + 1, natives := Table.insert w.natives f.id body })

/-- Defines a native function in the current namespace. -/
def defineNative (w : World) (name : String) (arity : Arity) (body : NativeBody) : Var × World :=
  let (v, w) := w.intern w.current name
  let (f, w) := w.createNative name arity body
  (v, w.bindRoot v (.func f))

/-- A host object that differs from all others. -/
def createObject (w : World) (label : String) : HostObject × World :=
  ({ id := w.host.nextObject, label },
    { w with host := { w.host with nextObject := w.host.nextObject + 1 } })

end World

/-- Calls a native function. -/
def callNative (f : Native) (args : List Value) : Exec Value := fun w =>
  if f.arity.accepts args.length then
    match Table.get? w.natives f.id with
    | none => .error (.of (.internal .noBody)) w
    | some body =>
      match body args (w.host.record (.called f args)) with
      | .ok value host => .ok value { w with host }
      | .error e host => .error e { w with host }
  else .error (.of (.arity (.wrongCount f args.length))) w

/-- Calls what a value leads to. -/
def apply (callee : Value) (args : List Value) : Exec Value := do
  let w ← get
  let f ← Exec.ofExcept (w.callee (w.cells.length + 1) callee)
  callNative f args

end LispCore
