import LispCore.Binary64
import LispCore.Span
import LispCore.Table

/-!
# Forms

Source data: what a reader makes of program text, before it means anything. A symbol may carry metadata,
itself source data, so symbols, the keys of a map and forms are defined together.
-/

namespace LispCore

mutual

/-- A name, perhaps in a namespace, perhaps with metadata. -/
structure Symbol where
  ns : Option String
  name : String
  metadata : Option (List (Key × Form)) := none

/-- What may stand as the key of a map. -/
inductive Key where
  | keyword (name : String)
  | symbol (sym : Symbol)
  | string (text : String)
  | int (n : Int64)
  | bool (b : Bool)

/-- A form with the span at which it was read. Maps and sets keep their entries as written. -/
inductive Form where
  | nil (span : Span := {})
  | bool (b : Bool) (span : Span := {})
  | int (n : Int64) (span : Span := {})
  | float (x : Binary64) (span : Span := {})
  | string (text : String) (span : Span := {})
  | keyword (name : String) (span : Span := {})
  | symbol (sym : Symbol) (span : Span := {})
  | list (items : List Form) (span : Span := {})
  | vector (items : List Form) (span : Span := {})
  | map (entries : List (Form × Form)) (span : Span := {})
  | set (items : List Form) (span : Span := {})

end

instance : Inhabited Symbol := ⟨{ ns := none, name := "" }⟩
instance : Inhabited Key := ⟨.bool false⟩
instance : Inhabited Form := ⟨.nil⟩

/-! ### Symbols -/

namespace Symbol

/-- A symbol without a namespace. -/
def unqualified (name : String) : Symbol :=
  { ns := none, name }

/-- Reads a symbol: the text is cut at its first slash if there is something on both sides of it. -/
def parse (text : String) : Symbol :=
  match text.toList.span (· != '/') with
  | (ns@(_ :: _), _ :: name@(_ :: _)) => { ns := some (String.ofList ns), name := String.ofList name }
  | _ => unqualified text

/-- `ns/name`, or the name alone. -/
def text (sym : Symbol) : String :=
  match sym.ns with
  | some ns => ns ++ "/" ++ sym.name
  | none => sym.name

def isQualified (sym : Symbol) : Bool :=
  sym.ns.isSome

/-- The bare name, without namespace and metadata. -/
def withoutNs (sym : Symbol) : Symbol :=
  unqualified sym.name

/-- Whether a text starts with one star and ends with another. -/
def wearsEarmuffs (text : String) : Bool :=
  match text.toList with
  | '*' :: rest => rest.getLast? == some '*'
  | _ => false

/-- Whether the name, whatever the namespace, is written between stars. -/
def isEarmuffed (sym : Symbol) : Bool :=
  wearsEarmuffs sym.name

/-- Symbols are equal when namespace and name are; metadata does not count. -/
instance : BEq Symbol :=
  ⟨fun a b => a.ns == b.ns && a.name == b.name⟩

end Symbol

/-- Keys are equal when they are of one kind and have equal contents. -/
def Key.beq : Key → Key → Bool
  | .keyword a, .keyword b => a == b
  | .symbol a, .symbol b => a == b
  | .string a, .string b => a == b
  | .int a, .int b => a == b
  | .bool a, .bool b => a == b
  | _, _ => false

instance : BEq Key := ⟨Key.beq⟩

/-- The metadata form under a keyword. -/
def Symbol.tag? (sym : Symbol) (name : String) : Option Form :=
  sym.metadata.bind fun entries => Table.get? entries (.keyword name)

/-! ### Parts and kinds of a form -/

namespace Form

def span : Form → Span
  | .nil span => span
  | .bool _ span => span
  | .int _ span => span
  | .float _ span => span
  | .string _ span => span
  | .keyword _ span => span
  | .symbol _ span => span
  | .list _ span => span
  | .vector _ span => span
  | .map _ span => span
  | .set _ span => span

/-- The word for the kind of a form in messages. -/
def kindName : Form → String
  | .nil _ => "nil"
  | .bool _ _ => "bool"
  | .int _ _ | .float _ _ => "number"
  | .string _ _ => "string"
  | .keyword _ _ => "keyword"
  | .symbol _ _ => "symbol"
  | .list _ _ => "list"
  | .vector _ _ => "vector"
  | .map _ _ => "map"
  | .set _ _ => "set"

def symbol? : Form → Option Symbol
  | .symbol sym _ => some sym
  | _ => none

def items? : Form → Option (List Form)
  | .list items _ => some items
  | _ => none

/-- Whether the form, taken as a literal, is neither nil nor false. -/
def isTruthy : Form → Bool
  | .nil _ => false
  | .bool b _ => b
  | _ => true

/-- The form `(quote form)`. -/
def quote (form : Form) : Form :=
  .list [.symbol (.unqualified "quote"), form]

/-- The data under one `quote`, or the form itself. -/
def unquote : Form → Form
  | .list [.symbol sym span, data] outer =>
    if sym.ns.isNone && sym.name == "quote" then data else .list [.symbol sym span, data] outer
  | form => form

/-! ### Equality

Forms are equal when they have the same shape, the same spans and equal atoms; floats compare as numbers
and symbols without their metadata. -/

mutual

def beq : Form → Form → Bool
  | .nil s, .nil t => s == t
  | .bool a s, .bool b t => a == b && s == t
  | .int a s, .int b t => a == b && s == t
  | .float a s, .float b t => a.numericEq b && s == t
  | .string a s, .string b t => a == b && s == t
  | .keyword a s, .keyword b t => a == b && s == t
  | .symbol a s, .symbol b t => a == b && s == t
  | .list a s, .list b t => beqAll a b && s == t
  | .vector a s, .vector b t => beqAll a b && s == t
  | .map a s, .map b t => beqEntries a b && s == t
  | .set a s, .set b t => beqAll a b && s == t
  | _, _ => false

def beqAll : List Form → List Form → Bool
  | [], [] => true
  | a :: as, b :: bs => beq a b && beqAll as bs
  | _, _ => false

def beqEntries : List (Form × Form) → List (Form × Form) → Bool
  | [], [] => true
  | (k, a) :: as, (l, b) :: bs => beq k l && beq a b && beqEntries as bs
  | _, _ => false

end

instance : BEq Form := ⟨beq⟩

end Form

end LispCore
