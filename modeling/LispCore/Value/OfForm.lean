import LispCore.Error

/-!
# Source data as a value

`Form.toValue` takes a form as quoted data. It fails only at a map key that cannot be one, and the failure
has the span of that key.
-/

namespace LispCore.Form

mutual

/-- The value of a form taken as data. -/
def toValue : Form → Except Failure Value
  | .nil _ => pure .nil
  | .bool b _ => pure (.bool b)
  | .int n _ => pure (.int n)
  | .float x _ => pure (.float x)
  | .string text _ => pure (.string text)
  | .keyword name _ => pure (.keyword name)
  | .symbol sym _ => pure (.symbol sym)
  | .list items _ => do return .list (← toValues items)
  | .vector items _ => do return .vector (← toValues items)
  | .set items _ => do return .set (Value.setOf (← toValues items))
  | .map entries _ => do return .map (Table.ofList (← toEntries entries))

/-- The values of several forms, in order. -/
def toValues : List Form → Except Failure (List Value)
  | [] => pure []
  | form :: rest => do
    let value ← toValue form
    return value :: (← toValues rest)

/-- The entries of a map, each key before its value. -/
def toEntries : List (Form × Form) → Except Failure (List (Key × Value))
  | [] => pure []
  | (k, form) :: rest => do
    let key ← (Key.ofValue (← toValue k)).mapError fun fault => { fault, span := some k.span }
    let value ← toValue form
    return (key, value) :: (← toEntries rest)

end

end LispCore.Form
