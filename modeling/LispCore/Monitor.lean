import LispCore.World

/-!
# Monitors

Every value but nil has a monitor, and equal values share one. A thread may enter a monitor that nobody owns
or that it owns already; nothing ever leaves one.
-/

namespace LispCore

/-- The monitors that have been entered. -/
abbrev Monitors := Table Value Monitor

/-- Why a monitor could not be entered. -/
inductive EnterRefusal where
  | nilTarget
  | kept
deriving DecidableEq

namespace Monitors

/-- Enters the monitor of `target` on a thread. Of equal values the first that was entered stays the key. -/
def enter (ms : Monitors) (thread : ThreadId) (target : Value) : Except EnterRefusal Monitors :=
  match target with
  | .nil => .error .nilTarget
  | _ =>
    match Table.get? ms target with
    | none => .ok (Table.insert ms target { owner := thread, depth := 1 })
    | some m =>
      if m.owner = thread then .ok (Table.modify ms target fun m => { m with depth := m.depth + 1 })
      else .error .kept

/-- How often the monitor of `target` was entered. -/
def depth (ms : Monitors) (target : Value) : Nat :=
  ((Table.get? ms target).map (·.depth)).getD 0

/-- Whether the thread owns the monitor of `target`. -/
def heldBy (ms : Monitors) (thread : ThreadId) (target : Value) : Bool :=
  (Table.get? ms target).any (·.owner == thread)

end Monitors

/-- Enters the monitor of `target` on the running thread. -/
def enterMonitor (target : Value) : Exec Unit := fun w =>
  match Monitors.enter w.monitors w.thread target with
  | .ok monitors =>
    let w := { w with monitors }
    match w.audience with
    | .watching => .ok () (w.record (.entered target))
    | .absent => .ok () w
  | .error .nilTarget => .error (.of (.runtime .nilMonitor)) w
  | .error .kept => .error (.of (.stalled .monitorKept)) w

end LispCore
