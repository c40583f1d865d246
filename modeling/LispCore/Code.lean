import LispCore.Value

/-!
# Code of the stack machine

A chunk is a straight line of instructions with the constants and vars that they name by index. Building a
chunk only appends to it.
-/

namespace LispCore

/-- What an instruction does. -/
inductive Op where
  | const (index : Nat)
  | constNil
  | emptyCollection (kind : CollKind)
  | pushVar (index : Nat)
  | derefVar (index : Nat)
  | setDynamic
  | setMetadata
  | bindRoot
  | makeVector (count : Nat)
  | makeSet (count : Nat)
  | makeMap (pairs : Nat)
  | call (argCount : Nat)
  | monitorEnter
  | dup
  | pop
  | ret
deriving DecidableEq

/-- An operation and the span that its errors are reported at. -/
structure Instruction where
  op : Op
  span : Span := {}
deriving DecidableEq

structure Chunk where
  source : String
  code : List Instruction := []
  constants : List Value := []
  vars : List Var := []

namespace Chunk

/-- Appends an instruction. -/
def push (c : Chunk) (op : Op) (span : Span) : Chunk :=
  { c with code := c.code ++ [{ op, span }] }

def addConst (c : Chunk) (value : Value) : Chunk :=
  { c with constants := c.constants ++ [value] }

/-- Appends a var to the var table, unless it is there. -/
def addVar (c : Chunk) (v : Var) : Chunk :=
  if v ∈ c.vars then c else { c with vars := c.vars ++ [v] }

/-- The index at which `addVar` leaves a var. -/
def varIndex (c : Chunk) (v : Var) : Nat :=
  c.vars.idxOf v

/-- Appends code that pushes a constant. Nil needs no entry in the constant table. -/
def pushConst (c : Chunk) (value : Value) (span : Span) : Chunk :=
  match value with
  | .nil => c.push .constNil span
  | _ => (c.addConst value).push (.const c.constants.length) span

/-- Appends an instruction that names a var. -/
def pushVarOp (c : Chunk) (op : Nat → Op) (v : Var) (span : Span) : Chunk :=
  (c.addVar v).push (op (c.varIndex v)) span

end Chunk

end LispCore
