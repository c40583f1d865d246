import LispCore.Error

/-!
# Expression nodes

What analysis makes of a form. Every node can be run directly and can be compiled; a node of which the kind
of the result is known in advance says so (`Expr.staticKind?`).
-/

namespace LispCore

/-- A node. A definition has its var, whether it declares the var dynamic, the expressions of the var's
metadata, perhaps an initial value, and the position for errors. -/
inductive Expr where
  | define (target : Var) (dynamic : Bool) (tags : List (Key × Expr)) (init : Option Expr) (pos : SourcePos)
  | empty (kind : CollKind)
  | enter (target : Expr)
  | const (value : Value)
  | ref (v : Var)
  | vector (items : List Expr)
  | set (items : List Expr)
  | map (entries : List (Expr × Expr))
  | invoke (callee : Expr) (args : List Expr) (pos : SourcePos)
  | body (exprs : List Expr)

namespace Expr

instance : Inhabited Expr := ⟨.const .nil⟩

/-- The word for the kind of a node. -/
def kindName : Expr → String
  | .define _ _ _ _ _ => "def"
  | .empty _ => "empty"
  | .enter _ => "monitor-enter"
  | .const _ => "constant"
  | .ref _ => "var"
  | .vector _ | .set _ | .map _ => "collection"
  | .invoke _ _ _ => "invoke"
  | .body _ => "do"

mutual

/-- The kind of the value that the node yields whenever it yields one, where that is known. -/
def staticKind? : Expr → Option ValueKind
  | .define _ _ _ _ _ => some .var
  | .empty kind => some kind.valueKind
  | .enter _ => none
  | .const value => some value.kind
  | .ref _ => none
  | .vector _ => some .vector
  | .set _ => some .set
  | .map _ => some .map
  | .invoke _ _ _ => none
  | .body exprs => lastKind? exprs

/-- The kind of the last expression's value; without any it is nil. -/
def lastKind? : List Expr → Option ValueKind
  | [] => some .nil
  | [e] => staticKind? e
  | _ :: rest => lastKind? rest

end

/-- The node of a value taken literally. An empty collection has a node of its own. -/
def ofLiteral (value : Value) : Expr :=
  match value.collKind?, value.count? with
  | some kind, some 0 => .empty kind
  | _, _ => .const value

/-- The node of an empty collection. -/
def ofEmpty (value : Value) : Except Fault Expr :=
  match value.collKind? with
  | none => .error (.internal (.notACollection value.kind))
  | some kind => if value.count? = some 0 then .ok (.empty kind) else .error (.internal (.notEmpty kind))

end Expr

end LispCore
