import LispCore.Expr
import LispCore.Monitor
import LispCore.Native

/-!
# Direct evaluation

Running a node by walking it. Parts are run from left to right; the first failure ends the run. What
becomes of an error that leaves a definition or a call is a parameter, `blame`: direct evaluation gives it
their position, unless it has one already.

A definition has two effects on its var, a root value and metadata, and `DefOrder` says which comes first.
Direct evaluation computes the initial value first; compiled code computes the metadata first.
-/

namespace LispCore

/-- Which part of a definition runs first. -/
inductive DefOrder where
  | initFirst
  | tagsFirst
deriving DecidableEq

/-- Runs a definition, given how to compute its metadata and its initial value. -/
def runDefinition (order : DefOrder) (target : Var) (dynamic : Bool) (tags : Exec (Table Key Value))
    (init : Exec (Option Value)) : Exec Value := do
  let bindInit : Exec Unit := do
    match ← init with
    | some value => modify (·.bindRoot target value)
    | none => pure ()
  let storeTags : Exec Unit := do
    let metadata ← tags
    modify (·.setMetadata target metadata)
  match order with
  | .initFirst =>
    bindInit
    storeTags
    modify (·.markDynamic target dynamic)
  | .tagsFirst =>
    modify (·.markDynamic target dynamic)
    storeTags
    bindInit
  return .var target

namespace Expr

mutual

/-- The value of a node, where `blame pos` is done to an error that leaves a definition or a call at `pos`. -/
def evalWith (blame : SourcePos → Error → Error) (order : DefOrder) : Expr → Exec Value
  | .define target dynamic tags init pos =>
    Exec.adapt (blame pos) <| runDefinition order target dynamic
      (Table.ofList <$> evalTags blame order tags)
      (match init with
        | some e => some <$> evalWith blame order e
        | none => pure none)
  | .empty kind => pure kind.empty
  | .enter target => do
    enterMonitor (← evalWith blame order target)
    return .nil
  | .const value => pure value
  | .ref v => deref v
  | .vector items => do return .vector (← evalAll blame order items)
  | .set items => do return .set (Value.setOf (← evalAll blame order items))
  | .map entries => do
    return .map (← Exec.ofExcept (Value.mapOf (← evalEntries blame order entries)))
  | .invoke callee args pos =>
    Exec.adapt (blame pos) do
      let callee ← evalWith blame order callee
      apply callee (← evalAll blame order args)
  | .body exprs => evalBody blame order exprs

/-- The values of several nodes, in order. -/
def evalAll (blame : SourcePos → Error → Error) (order : DefOrder) : List Expr → Exec (List Value)
  | [] => pure []
  | e :: rest => do
    let value ← evalWith blame order e
    return value :: (← evalAll blame order rest)

/-- The entries of a map, each key before its value. -/
def evalEntries (blame : SourcePos → Error → Error) (order : DefOrder) :
    List (Expr × Expr) → Exec (List (Value × Value))
  | [] => pure []
  | (k, e) :: rest => do
    let key ← evalWith blame order k
    let value ← evalWith blame order e
    return (key, value) :: (← evalEntries blame order rest)

/-- The entries of a definition's metadata. -/
def evalTags (blame : SourcePos → Error → Error) (order : DefOrder) :
    List (Key × Expr) → Exec (List (Key × Value))
  | [] => pure []
  | (k, e) :: rest => do
    let value ← evalWith blame order e
    return (k, value) :: (← evalTags blame order rest)

/-- The value of the last of several nodes; nil without any. -/
def evalBody (blame : SourcePos → Error → Error) (order : DefOrder) : List Expr → Exec Value
  | [] => pure .nil
  | [e] => evalWith blame order e
  | e :: rest => do
    let _ ← evalWith blame order e
    evalBody blame order rest

end

/-- The value of a node; errors get the position of the innermost definition or call that they leave. -/
def evalIn (order : DefOrder) (e : Expr) : Exec Value :=
  e.evalWith Error.locate order

/-- Direct evaluation. -/
def eval (e : Expr) : Exec Value :=
  e.evalIn .initFirst

end Expr

end LispCore
