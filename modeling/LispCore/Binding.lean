import LispCore.World

/-!
# Values of vars

A dynamic var may be bound on a thread; the innermost binding hides the root value there. Pushing bindings
gives a guard, and dropping the guard takes the innermost binding of each of its vars away again.
-/

namespace LispCore

/-- The vars to be unbound when the guard is dropped, once for each time they were bound. -/
structure Guard where
  vars : List Var
deriving DecidableEq

namespace World

/-- The running thread's innermost binding of a var. -/
def binding? (w : World) (v : Var) : Option Value :=
  (Table.get? w.bindings v).bind (·.head?)

def pushBinding (w : World) (v : Var) (value : Value) : World :=
  { w with bindings := Table.insert w.bindings v (value :: (Table.get? w.bindings v).getD []) }

/-- Takes the innermost binding of a var away. A var without bindings is not kept. -/
def popBinding (w : World) (v : Var) : World :=
  match Table.get? w.bindings v with
  | some (_ :: rest@(_ :: _)) => { w with bindings := Table.insert w.bindings v rest }
  | _ => { w with bindings := Table.erase w.bindings v }

/-- Binds the given vars in order, if all of them are dynamic. -/
def pushBindings (w : World) (bindings : List (Var × Value)) : Except Fault (Guard × World) :=
  match bindings.find? fun b => !(w.cell b.1).dynamic with
  | some (v, _) => .error (.runtime (.notDynamic v))
  | none => .ok (⟨bindings.map (·.1)⟩, bindings.foldl (fun w b => w.pushBinding b.1 b.2) w)

/-- Takes back the bindings that a guard stands for. -/
def dropGuard (w : World) (guard : Guard) : World :=
  guard.vars.foldl popBinding w

/-- A new thread takes over. It starts without bindings. -/
def startThread (w : World) : World :=
  { w with thread := w.nextThread, nextThread := w.nextThread + 1, bindings := [] }

/-- The thread that ran in `before` goes on, with the bindings it had. Those of the other thread are gone. -/
def resumeThread (w before : World) : World :=
  { w with thread := before.thread, bindings := before.bindings }

/-- The current value of a var: of a dynamic one the innermost binding if there is one, else the root. -/
def deref (w : World) (v : Var) : Except Fault Value :=
  let bound := if (w.cell v).dynamic then w.binding? v else none
  match bound, (w.cell v).root with
  | some value, _ => .ok value
  | none, some value => .ok value
  | none, none => .error (.runtime (.unbound v))

end World

/-- The current value of a var. -/
def deref (v : Var) : Exec Value := do
  Exec.ofExcept ((← get).deref v)

/-- Binds vars on the running thread. -/
def pushBindings (bindings : List (Var × Value)) : Exec Guard := fun w =>
  match w.pushBindings bindings with
  | .ok (guard, w') => .ok guard w'
  | .error fault => .error (.of fault) w

end LispCore
