import LispCore.Code
import LispCore.Expr
import LispCore.World

/-!
# Compiling nodes

The code of a node leaves the node's value on the stack, or nothing if the value is not used. Instructions
carry the span of the innermost definition or call that they belong to, or else the span of the whole form.
-/

namespace LispCore

/-- What becomes of a node's value. -/
inductive Usage where
  | discarded
  | value
  | tailReturn
deriving DecidableEq, Inhabited

/-- Drops the value on top of the stack if it is not used. -/
def Chunk.finish (c : Chunk) (usage : Usage) (span : Span) : Chunk :=
  match usage with
  | .discarded => c.push .pop span
  | .value | .tailReturn => c

namespace Expr

mutual

/-- Appends the code of a node. -/
def emit (usage : Usage) (span : Span) : Expr → Chunk → Chunk
  | .define target dynamic tags init pos, c =>
    let c := c.pushVarOp .pushVar target pos.span
    let c := if dynamic then c.push .setDynamic pos.span else c
    let c := emitTags pos.span tags (c.push .dup pos.span)
    let c := (c.push (.makeMap tags.length) pos.span).push .setMetadata pos.span
    let c :=
      match init with
      | some e => (emit .value pos.span e (c.push .dup pos.span)).push .bindRoot pos.span
      | none => c
    c.finish usage pos.span
  | .empty kind, c => (c.push (.emptyCollection kind) span).finish usage span
  | .enter target, c =>
    (((emit .value span target c).push .monitorEnter span).push .constNil span).finish usage span
  | .const value, c => (c.pushConst value span).finish usage span
  | .ref v, c => (c.pushVarOp .derefVar v span).finish usage span
  | .vector items, c => ((emitAll span items c).push (.makeVector items.length) span).finish usage span
  | .set items, c => ((emitAll span items c).push (.makeSet items.length) span).finish usage span
  | .map entries, c => ((emitEntries span entries c).push (.makeMap entries.length) span).finish usage span
  | .invoke callee args pos, c =>
    let c := emitAll pos.span args (emit .value pos.span callee c)
    (c.push (.call args.length) pos.span).finish usage pos.span
  | .body exprs, c => emitBody usage span exprs c

/-- Appends code that leaves the values of several nodes on the stack, the last on top. -/
def emitAll (span : Span) : List Expr → Chunk → Chunk
  | [], c => c
  | e :: rest, c => emitAll span rest (emit .value span e c)

/-- Appends code for the entries of a map, each key under its value. -/
def emitEntries (span : Span) : List (Expr × Expr) → Chunk → Chunk
  | [], c => c
  | (k, e) :: rest, c => emitEntries span rest (emit .value span e (emit .value span k c))

/-- Appends code for the entries of a definition's metadata. -/
def emitTags (span : Span) : List (Key × Expr) → Chunk → Chunk
  | [], c => c
  | (k, e) :: rest, c => emitTags span rest (emit .value span e (c.pushConst k.toValue span))

/-- Appends code that runs several nodes and uses the value of the last. -/
def emitBody (usage : Usage) (span : Span) : List Expr → Chunk → Chunk
  | [], c => (c.pushConst .nil span).finish usage span
  | [e], c => emit usage span e c
  | e :: rest, c => emitBody usage span rest (emit .discarded span e c)

end

/-- The code of a node on its own, without a return. -/
def fragment (e : Expr) (usage : Usage) (source : String) (span : Span) : Chunk :=
  e.emit usage span { source }

/-- The chunk of a whole form: its value is returned. -/
def toChunk (e : Expr) (source : String) (span : Span) : Chunk :=
  (e.fragment .tailReturn source span).push .ret span

end Expr

/-- Compiles a whole form. -/
def compileTopLevel (e : Expr) (source : String) (span : Span) : Exec Chunk := do
  let c := e.toChunk source span
  modify (·.note (.compiled source span.line c.code.length))
  return c

end LispCore
