import LispCore.Decimal
import LispCore.Text
import LispCore.Value

/-!
# Canonical text

A text for keys, forms and values that depends on nothing but the data: entries of maps and elements of sets
are sorted by their own texts, floats are given by their bits, and the metadata of symbols is shown. Forms
keep the entries of their maps and sets as written; metadata is a map and is sorted.
-/

namespace LispCore.Canonical

/-- The texts between brackets, with a separator between each two. -/
def bracket (left separator right : String) (texts : List String) : String :=
  left ++ separator.intercalate texts ++ right

/-- Texts in increasing order. -/
def sorted (texts : List String) : List String :=
  texts.mergeSort fun a b => decide (a ≤ b)

/-- Texts of keys with the texts of their values, in increasing order of the former, as one map. -/
def sortedMap (entries : List (String × String)) : String :=
  let inOrder := entries.mergeSort fun a b => decide (a.1 ≤ b.1)
  bracket "\x7b" ", " "\x7d" (inOrder.map fun e => e.1 ++ " " ++ e.2)

/-- A symbol's namespace and name. -/
def symbolName (ns : Option String) (name : String) : String :=
  match ns with
  | some ns => "'" ++ Text.canonical ns ++ "/" ++ Text.canonical name
  | none => "'" ++ Text.canonical name

mutual

def ofSymbol : Symbol → String
  | ⟨ns, name, none⟩ => symbolName ns name
  | ⟨ns, name, some entries⟩ => symbolName ns name ++ "^" ++ sortedMap (ofTags entries)

def ofKey : Key → String
  | .keyword name => ":" ++ Text.canonical name
  | .symbol sym => ofSymbol sym
  | .string text => Text.canonical text
  | .int n => toString n
  | .bool b => toString b

def ofForm : Form → String
  | .nil _ => "nil"
  | .bool b _ => toString b
  | .int n _ => toString n
  | .float x _ => "f:" ++ x.hex
  | .string text _ => Text.canonical text
  | .keyword name _ => ":" ++ Text.canonical name
  | .symbol sym _ => ofSymbol sym
  | .list items _ => bracket "(" " " ")" (ofForms items)
  | .vector items _ => bracket "[" " " "]" (ofForms items)
  | .map entries _ => bracket "\x7b" ", " "\x7d" (ofPairs entries)
  | .set items _ => bracket "#\x7b" " " "\x7d" (ofForms items)

def ofForms : List Form → List String
  | [] => []
  | form :: rest => ofForm form :: ofForms rest

def ofPairs : List (Form × Form) → List String
  | [] => []
  | (k, form) :: rest => (ofForm k ++ " " ++ ofForm form) :: ofPairs rest

def ofTags : List (Key × Form) → List (String × String)
  | [] => []
  | (k, form) :: rest => (ofKey k, ofForm form) :: ofTags rest

end

mutual

def ofValue : Value → String
  | .nil => "nil"
  | .bool b => toString b
  | .int n => toString n
  | .float x => "f:" ++ x.hex
  | .string text => Text.canonical text
  | .keyword name => ":" ++ Text.canonical name
  | .symbol sym => ofSymbol sym
  | .list items => bracket "(" " " ")" (ofValues items)
  | .vector items => bracket "[" " " "]" (ofValues items)
  | .map entries => sortedMap (ofEntries entries)
  | .set items => bracket "#\x7b" " " "\x7d" (sorted (ofValues items))
  | .var v => "#var " ++ Text.canonical v.qualifiedName
  | .func f => "#fn " ++ Text.canonical f.name
  | .object o => "#obj " ++ Text.canonical o.label

def ofValues : List Value → List String
  | [] => []
  | v :: rest => ofValue v :: ofValues rest

def ofEntries : List (Key × Value) → List (String × String)
  | [] => []
  | (k, v) :: rest => (ofKey k, ofValue v) :: ofEntries rest

end

end LispCore.Canonical
