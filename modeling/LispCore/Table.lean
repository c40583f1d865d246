/-!
# Tables

A finite map kept as the list of its entries, in the order in which the keys came. Keys are compared by
`==`, which may be coarser than equality: an insertion under an equal key puts the new key and the new
value in the place of the old ones.
-/

namespace LispCore

/-- A finite map, as the list of its entries. -/
abbrev Table (κ α : Type) := List (κ × α)

namespace Table

variable {κ α : Type} [BEq κ]

/-- The value under a key equal to `k`. -/
def get? (t : Table κ α) (k : κ) : Option α :=
  t.lookup k

/-- Whether some key equals `k`. -/
def contains (t : Table κ α) (k : κ) : Bool :=
  (t.get? k).isSome

/-- Puts `a` under `k`, in the place of an equal key or else at the end. -/
def insert : Table κ α → κ → α → Table κ α
  | [], k, a => [(k, a)]
  | e :: rest, k, a => if k == e.1 then (k, a) :: rest else e :: insert rest k a

/-- Changes the value under a key equal to `k`; the key stays as it is. -/
def modify : Table κ α → κ → (α → α) → Table κ α
  | [], _, _ => []
  | e :: rest, k, f => if k == e.1 then (e.1, f e.2) :: rest else e :: modify rest k f

/-- Removes every entry whose key equals `k`. -/
def erase (t : Table κ α) (k : κ) : Table κ α :=
  t.filter fun e => !(k == e.1)

/-- The table got by inserting the entries one after the other. -/
def ofList (entries : List (κ × α)) : Table κ α :=
  entries.foldl (fun t e => insert t e.1 e.2) []

end Table

end LispCore
