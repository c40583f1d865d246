import LispCore.Arity
import LispCore.Form

/-!
# Values

What programs compute with. Vars, native functions and host objects have an identity: they are handles that
carry what never changes of them, and everything that does change is kept in the world. Maps have each key
once and sets each element once, up to `==`; they are built by insertion.
-/

namespace LispCore

/-- A var: a named cell owned by a namespace. Two vars of one name are told apart by their number. -/
structure Var where
  id : Nat
  ns : String
  name : String
deriving DecidableEq, Inhabited

namespace Var

/-- `ns/name`. -/
def qualifiedName (v : Var) : String :=
  v.ns ++ "/" ++ v.name

/-- `#'ns/name`. -/
def text (v : Var) : String :=
  "#'" ++ v.qualifiedName

end Var

/-- A native function: its identity, the name under which it was made, and how many arguments it takes. -/
structure Native where
  id : Nat
  name : String
  arity : Arity
deriving DecidableEq, Inhabited

/-- An object of the host that programs can only pass around. -/
structure HostObject where
  id : Nat
  label : String
deriving DecidableEq, Inhabited

inductive Value where
  | nil
  | bool (b : Bool)
  | int (n : Int64)
  | float (x : Binary64)
  | string (text : String)
  | keyword (name : String)
  | symbol (sym : Symbol)
  | list (items : List Value)
  | vector (items : List Value)
  | map (entries : List (Key × Value))
  | set (items : List Value)
  | var (v : Var)
  | func (f : Native)
  | object (o : HostObject)

instance : Inhabited Value := ⟨.nil⟩

/-! ### Kinds -/

/-- The kinds of value, which are also the types that analysis can know in advance. -/
inductive ValueKind where
  | nil | bool | int | float | string | keyword | symbol | list | vector | map | set | var | func | object
deriving DecidableEq, Inhabited

/-- The word for a kind in type errors. The two kinds of number share one. -/
def ValueKind.name : ValueKind → String
  | .nil => "nil"
  | .bool => "bool"
  | .int | .float => "number"
  | .string => "str"
  | .keyword => "keyword"
  | .symbol => "symbol"
  | .list => "list"
  | .vector => "vector"
  | .map => "map"
  | .set => "set"
  | .var => "var"
  | .func => "function"
  | .object => "object"

/-- The kinds of collection. -/
inductive CollKind where
  | list | vector | map | set
deriving DecidableEq, Inhabited

namespace CollKind

def name : CollKind → String
  | .list => "list"
  | .vector => "vector"
  | .map => "map"
  | .set => "set"

/-- The kind of the values of a collection kind. -/
def valueKind : CollKind → ValueKind
  | .list => .list
  | .vector => .vector
  | .map => .map
  | .set => .set

/-- The collection of this kind with nothing in it. -/
def empty : CollKind → Value
  | .list => .list []
  | .vector => .vector []
  | .map => .map []
  | .set => .set []

end CollKind

namespace Value

def kind : Value → ValueKind
  | .nil => .nil
  | .bool _ => .bool
  | .int _ => .int
  | .float _ => .float
  | .string _ => .string
  | .keyword _ => .keyword
  | .symbol _ => .symbol
  | .list _ => .list
  | .vector _ => .vector
  | .map _ => .map
  | .set _ => .set
  | .var _ => .var
  | .func _ => .func
  | .object _ => .object

def collKind? : Value → Option CollKind
  | .list _ => some .list
  | .vector _ => some .vector
  | .map _ => some .map
  | .set _ => some .set
  | _ => none

/-- The number of elements or entries of a collection. -/
def count? : Value → Option Nat
  | .list items | .vector items | .set items => some items.length
  | .map entries => some entries.length
  | _ => none

/-- Everything but nil and false counts as true. -/
def isTruthy : Value → Bool
  | .nil => false
  | .bool b => b
  | _ => true

/-! ### Equality

A list and a vector with equal items are equal. Floats compare by their bits, symbols without their
metadata, maps and sets without regard to order, and handles by identity. -/

mutual

def beq : Value → Value → Bool
  | .nil, .nil => true
  | .bool a, .bool b => a == b
  | .int a, .int b => a == b
  | .float a, .float b => a == b
  | .string a, .string b => a == b
  | .keyword a, .keyword b => a == b
  | .symbol a, .symbol b => a == b
  | .list as, .list bs => beqAll as bs
  | .list as, .vector bs => beqAll as bs
  | .vector as, .list bs => beqAll as bs
  | .vector as, .vector bs => beqAll as bs
  | .map as, .map bs => as.length == bs.length && entriesWithin as bs
  | .set as, .set bs => as.length == bs.length && itemsWithin as bs
  | .var a, .var b => a == b
  | .func a, .func b => a == b
  | .object a, .object b => a == b
  | _, _ => false

/-- Equal item by item. -/
def beqAll : List Value → List Value → Bool
  | [], [] => true
  | a :: as, b :: bs => beq a b && beqAll as bs
  | _, _ => false

/-- Each item of the first list equals some item of the second. -/
def itemsWithin : List Value → List Value → Bool
  | [], _ => true
  | a :: as, bs => bs.any (fun b => beq a b) && itemsWithin as bs

/-- Each entry of the first table is in the second: an equal value under an equal key. -/
def entriesWithin : List (Key × Value) → List (Key × Value) → Bool
  | [], _ => true
  | (k, a) :: as, bs => (Table.get? bs k).any (fun b => beq a b) && entriesWithin as bs

end

instance : BEq Value := ⟨beq⟩

/-! ### Building sets -/

/-- Puts an item into a set, in the place of an equal one or else at the end. -/
def insertItem : List Value → Value → List Value
  | [], a => [a]
  | b :: rest, a => if a == b then a :: rest else b :: insertItem rest a

/-- The set of the given items: of equal ones the last stays. -/
def setOf (items : List Value) : List Value :=
  items.foldl insertItem []

end Value

/-! ### Keys as values -/

/-- The value that a key is. -/
def Key.toValue : Key → Value
  | .keyword name => .keyword name
  | .symbol sym => .symbol sym
  | .string text => .string text
  | .int n => .int n
  | .bool b => .bool b

/-- The key that a value is, if it can be one. -/
def Key.ofValue? : Value → Option Key
  | .keyword name => some (.keyword name)
  | .symbol sym => some (.symbol sym)
  | .string text => some (.string text)
  | .int n => some (.int n)
  | .bool b => some (.bool b)
  | _ => none

end LispCore
