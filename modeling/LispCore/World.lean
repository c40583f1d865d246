import LispCore.Error
import LispCore.Log

/-!
# The world

Everything about a session that can change, in one value: namespaces, the cells of vars, the bindings of the
running thread, monitors, native functions, and what was recorded on the way. A computation in the world
(`Exec`) ends with a value or an error, and with the world as it is then in either case: a failure undoes
nothing.

The world changes only through the named updates below and in the modules on namespaces, bindings, monitors
and natives.
-/

namespace LispCore

/-! ### Traces -/

/-- What happened outside the session's own data. -/
inductive Event where
  | called (f : Native) (args : List Value)
  | marked (args : List Value)
  | entered (target : Value)

/-- What native functions may change: the trace, and the supply of object identities. -/
structure HostState where
  events : List Event := []
  nextObject : Nat := 0

def HostState.record (h : HostState) (e : Event) : HostState :=
  { h with events := h.events ++ [e] }

/-- The work of a native function. It is given its arguments and the host, and neither reads nor writes vars, bindings
or namespaces. -/
abbrev NativeBody := List Value → EStateM Error HostState Value

/-! ### Parts of the world -/

/-- What changes of a var: its root value if it has one, its metadata, and whether it is dynamic. -/
structure Cell where
  root : Option Value := none
  metadata : Table Key Value := []
  dynamic : Bool := false

/-- The names of a namespace, with the vars they are mapped to, and its short names for other namespaces. -/
structure Namespace where
  mappings : Table String Var := []
  aliases : Table String String := []

/-- A thread, by its number. -/
abbrev ThreadId := Nat

/-- Who owns a monitor, and how often they entered it. -/
structure Monitor where
  owner : ThreadId
  depth : Nat
deriving DecidableEq, Inhabited

/-- Whether warnings and monitor entries are kept for whoever watches the session, or warnings only logged. -/
inductive Audience where
  | watching
  | absent
deriving DecidableEq, Inhabited

structure World where
  namespaces : Table String Namespace := []
  current : String := "user"
  /-- The first number that no var and no native function has. -/
  nextId : Nat := 0
  cells : Table Var Cell := []
  thread : ThreadId := 0
  /-- The first number that no thread has. -/
  nextThread : Nat := 1
  /-- For each var that the running thread has bound, its values, the innermost first. -/
  bindings : Table Var (List Value) := []
  monitors : Table Value Monitor := []
  natives : Table Nat NativeBody := []
  host : HostState := {}
  audience : Audience := .watching
  warnings : List Warning := []
  log : List LogRecord := []

/-- A computation in the world. -/
abbrev Exec := EStateM Error World

namespace World

/-! ### Vars -/

/-- The cell of a var. One that was never written is unbound. -/
def cell (w : World) (v : Var) : Cell :=
  (Table.get? w.cells v).getD {}

def setCell (w : World) (v : Var) (c : Cell) : World :=
  { w with cells := Table.insert w.cells v c }

def bindRoot (w : World) (v : Var) (value : Value) : World :=
  w.setCell v { w.cell v with root := some value }

def setMetadata (w : World) (v : Var) (metadata : Table Key Value) : World :=
  w.setCell v { w.cell v with metadata }

/-- Puts one entry into a var's metadata. -/
def addTag (w : World) (v : Var) (k : Key) (value : Value) : World :=
  w.setMetadata v (Table.insert (w.cell v).metadata k value)

def setDynamic (w : World) (v : Var) : World :=
  w.setCell v { w.cell v with dynamic := true }

/-- Sets the dynamic flag if asked to; it is never taken back. -/
def markDynamic (w : World) (v : Var) (dynamic : Bool) : World :=
  if dynamic then w.setDynamic v else w

/-! ### Records -/

def note (w : World) (r : LogRecord) : World :=
  { w with log := w.log ++ [r] }

def record (w : World) (e : Event) : World :=
  { w with host := w.host.record e }

/-- Takes a warning: it is kept for an audience, and only logged without one. -/
def warn (w : World) (warning : Warning) : World :=
  match w.audience with
  | .watching => { w with warnings := w.warnings ++ [warning] }.note (.collected warning.symbol)
  | .absent => w.note (.warned warning)

end World

namespace Exec

variable {α : Type}

/-- Fails with a fault of which nothing more is known. -/
def fail (fault : Fault) : Exec α :=
  throw (.of fault)

/-- Goes on with a result, or fails with its fault. -/
def ofExcept : Except Fault α → Exec α
  | .ok a => pure a
  | .error fault => fail fault

/-- Goes on with a result, or fails as it did. -/
def ofResult : Except Failure α → Exec α
  | .ok a => pure a
  | .error failure => throw (.plain failure)

/-- Runs `x`; its errors are changed by `f`. -/
def adapt (f : Error → Error) (x : Exec α) : Exec α :=
  x.adaptExcept f

/-- Runs `x`; an error without a position gets this one. -/
def locating (pos : SourcePos) (x : Exec α) : Exec α :=
  adapt (Error.locate pos) x

end Exec

end LispCore
