import LispCore.Decimal
import LispCore.Text
import LispCore.Value

/-!
# Displayed text

How keys and values are shown to a user. The entries of a map and the elements of a set come in no
particular order, so the text of a value that holds one with two or more is fixed only up to that order.
-/

namespace LispCore

/-- How a key is shown. -/
def Key.text : Key → String
  | .keyword name => ":" ++ name
  | .symbol sym => sym.text
  | .string text => Text.quoted text
  | .int n => toString n
  | .bool b => toString b

namespace Value

mutual

/-- How a value is shown. -/
def text : Value → String
  | .nil => "nil"
  | .bool b => toString b
  | .int n => toString n
  | .float x => x.text
  | .string s => Text.quoted s
  | .keyword name => ":" ++ name
  | .symbol sym => sym.text
  | .list items => "(" ++ " ".intercalate (texts items) ++ ")"
  | .vector items => "[" ++ " ".intercalate (texts items) ++ "]"
  | .map entries => "\x7b" ++ ", ".intercalate (entryTexts entries) ++ "\x7d"
  | .set items => "#\x7b" ++ " ".intercalate (texts items) ++ "\x7d"
  | .var v => v.text
  | .func f => "#<fn " ++ f.name ++ ">"
  | .object o => "#<object " ++ o.label ++ ">"

def texts : List Value → List String
  | [] => []
  | v :: rest => text v :: texts rest

def entryTexts : List (Key × Value) → List String
  | [] => []
  | (k, v) :: rest => (k.text ++ " " ++ text v) :: entryTexts rest

end

mutual

/-- Whether every map and set in the value has fewer than two entries, so that its text is fixed. -/
def hasFixedText : Value → Bool
  | .list items | .vector items => allFixed items
  | .set items => items.length < 2 && allFixed items
  | .map entries => entries.length < 2 && entriesFixed entries
  | _ => true

def allFixed : List Value → Bool
  | [] => true
  | v :: rest => hasFixedText v && allFixed rest

def entriesFixed : List (Key × Value) → Bool
  | [] => true
  | (_, v) :: rest => hasFixedText v && entriesFixed rest

end

end Value

end LispCore
