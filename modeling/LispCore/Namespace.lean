import LispCore.World

/-!
# Namespaces

Namespaces map names to vars. A namespace may map a name to a var of another one (`refer`); interning the
name there replaces such a mapping by a var of its own, and never replaces a var that the namespace owns.
-/

namespace LispCore

namespace World

/-- The namespace of that name; one that does not exist has no names. -/
def namespaceAt (w : World) (ns : String) : Namespace :=
  (Table.get? w.namespaces ns).getD {}

def hasNs (w : World) (ns : String) : Bool :=
  Table.contains w.namespaces ns

def setNs (w : World) (ns : String) (data : Namespace) : World :=
  { w with namespaces := Table.insert w.namespaces ns data }

/-- Makes the namespace if it does not exist. -/
def ensureNs (w : World) (ns : String) : World :=
  if w.hasNs ns then w else w.setNs ns {}

/-- Makes `ns` the current namespace. -/
def enterNs (w : World) (ns : String) : World :=
  { w.ensureNs ns with current := ns }

/-- The namespace that a qualifier denotes: what it is short for in `ns`, or else the namespace of that name
if there is one. What an alias stands for need not exist. -/
def resolveNs (w : World) (ns : String) (qualifier : String) : Option String :=
  match Table.get? (w.namespaceAt ns).aliases qualifier with
  | some target => some target
  | none => if w.hasNs qualifier then some qualifier else none

/-- The var that a namespace maps a name to. -/
def lookup (w : World) (ns : String) (name : String) : Option Var :=
  Table.get? (w.namespaceAt ns).mappings name

/-- Maps a name to a var, whoever owns it. -/
def refer (w : World) (ns : String) (name : String) (v : Var) : World :=
  let data := w.namespaceAt ns
  w.setNs ns { data with mappings := Table.insert data.mappings name v }

/-- Makes `short` stand for the namespace `target` in `ns`. -/
def addAlias (w : World) (ns : String) (short : String) (target : String) : World :=
  let data := w.namespaceAt ns
  w.setNs ns { data with aliases := Table.insert data.aliases short target }

/-- A new unbound var, mapped to its name in the namespace that owns it. -/
def createVar (w : World) (ns : String) (name : String) : Var × World :=
  let v : Var := { id := w.nextId, ns, name }
  (v, ({ w with nextId := w.nextId + 1 }.note (.interned v)).refer ns name v)

/-- The var of that name which the namespace owns, made now if the name is free or refers elsewhere. -/
def intern (w : World) (ns : String) (name : String) : Var × World :=
  match w.lookup ns name with
  | some v =>
    if v.ns = ns then (v, w) else (w.note (.replaced name v ns)).createVar ns name
  | none => w.createVar ns name

/-- The vars that a namespace maps names to and owns. -/
def interned (w : World) (ns : String) : List Var :=
  ((w.namespaceAt ns).mappings.map (·.2)).filter (·.ns == ns)

/-- The var that a symbol names in the namespace `ns`. With `create`, a name that would belong to `ns` itself
is interned there. -/
def resolveVar (w : World) (ns : String) (sym : Symbol) (create : Bool) :
    Except Fault (Option Var × World) :=
  match sym.ns with
  | some qualifier =>
    match w.resolveNs ns qualifier with
    | none => .error (.lookup (.noNamespace qualifier))
    | some target =>
      if target = ns ∧ create then
        let (v, w) := w.intern ns sym.name
        .ok (some v, w)
      else .ok (w.lookup target sym.name, w)
  | none =>
    match w.lookup ns sym.name with
    | some v => .ok (some v, w)
    | none =>
      if create then
        let (v, w) := w.intern ns sym.name
        .ok (some v, w)
      else .ok (none, w)

end World

/-- Resolves a symbol in `ns`; see `World.resolveVar`. -/
def resolveVar (ns : String) (sym : Symbol) (create : Bool) : Exec (Option Var) := fun w =>
  match w.resolveVar ns sym create with
  | .ok (v, w') => .ok v w'
  | .error fault => .error (.of fault) w

/-- Interns a name in `ns`. -/
def intern (ns : String) (name : String) : Exec Var := fun w =>
  let (v, w) := w.intern ns name
  .ok v w

end LispCore
