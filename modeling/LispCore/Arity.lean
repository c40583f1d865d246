/-!
# Arities

How many arguments a native function takes: at least `min`, and at most `max` if there is a bound.
-/

namespace LispCore

/-- A range of argument counts that is not empty. -/
structure Arity where
  min : Nat
  max : Option Nat
  min_le_max : ∀ m ∈ max, min ≤ m
deriving DecidableEq

namespace Arity

/-- What is said of bounds that cross. -/
def crossedBounds : String := "min arity cannot exceed max arity"

/-- The arity with the given bounds, unless they cross. -/
def ofBounds? (min : Nat) (max : Option Nat) : Option Arity :=
  if h : ∀ m ∈ max, min ≤ m then some ⟨min, max, h⟩ else none

/-- Exactly `n` arguments. -/
def exactly (n : Nat) : Arity :=
  ⟨n, some n, by simp⟩

/-- `n` arguments or more. -/
def atLeast (n : Nat) : Arity :=
  ⟨n, none, by simp⟩

instance : Inhabited Arity := ⟨atLeast 0⟩

def accepts (arity : Arity) (count : Nat) : Bool :=
  arity.min ≤ count && arity.max.all (count ≤ ·)

/-- `n`, `n..m` or `n+`. -/
def text (arity : Arity) : String :=
  match arity.max with
  | some max => if max = arity.min then toString max else toString arity.min ++ ".." ++ toString max
  | none => toString arity.min ++ "+"

end Arity

end LispCore
