import LispCore.Expr
import LispCore.Namespace
import LispCore.Value.OfForm

/-!
# Analysis

Analysis turns a form into a node, left to right, in a context that fixes the namespace, the source and the
line. It resolves names as it meets them: the target of a definition is interned before the rest of the
definition is analysed, so a definition may refer to itself. It runs nothing. Its failures have the span of
the form to blame.
-/

namespace LispCore

/-- Where a form is analysed. -/
structure Context where
  ns : String
  source : Option String := none
  line : Nat := 0
  warnOnEarmuffs : Bool := true
deriving DecidableEq

namespace Context

def sourcePath (ctx : Context) : String :=
  ctx.source.getD noSourceFile

/-- The position that nodes made in this context report. -/
def pos (ctx : Context) : SourcePos :=
  { file := ctx.sourcePath, line := ctx.line }

/-- Fails at a span of the context's source. -/
def fail {α : Type} (ctx : Context) (span : Span) (fault : Fault) : Exec α :=
  throw (.plain { fault, span := some span, file := some ctx.sourcePath })

/-- Runs `x`; its failures get a span and the context's source, where they have none. -/
def blaming {α : Type} (ctx : Context) (span : Span) (x : Exec α) : Exec α :=
  Exec.adapt (fun e => (e.withSpan span).withFile (some ctx.sourcePath)) x

/-- The metadata that every definition gets: line and file, and the docstring if there is one. -/
def ownTags (ctx : Context) (doc : Option String) : Table Key Value :=
  [(.keyword "line", .int (Int64.ofNat ctx.line)), (.keyword "file", .string ctx.sourcePath)] ++
    doc.toList.map fun text => (.keyword "doc", .string text)

end Context

/-! ### Special forms -/

/-- The forms that are not calls, by the symbol at their head. -/
inductive SpecialForm where
  | define | enter | quote | body
deriving DecidableEq

namespace SpecialForm

def name : SpecialForm → String
  | .define => "def"
  | .enter => "monitor-enter"
  | .quote => "quote"
  | .body => "do"

/-- All special forms. -/
def all : List SpecialForm := [.define, .enter, .quote, .body]

def ofName? (name : String) : Option SpecialForm :=
  all.find? (·.name == name)

/-- The special form that a list with this head is. A qualified symbol is never one. -/
def ofHead? : Form → Option SpecialForm
  | .symbol sym _ => if sym.isQualified then none else ofName? sym.name
  | _ => none

end SpecialForm

/-! ### Names -/

/-- The var that a symbol refers to. -/
def analyzeSymbol (ctx : Context) (sym : Symbol) (span : Span) : Exec Expr := do
  match ← ctx.blaming span (resolveVar ctx.ns sym false) with
  | some v => return .ref v
  | none => ctx.fail span (.lookup (.unresolved sym.text))

/-- The var that a definition of this symbol defines: always one that the context's namespace owns. -/
def resolveTarget (ctx : Context) (sym : Symbol) (span : Span) : Exec Var := do
  match ← ctx.blaming span (resolveVar ctx.ns sym true) with
  | none => ctx.fail span (.lookup .noQualifiedVar)
  | some v =>
    if v.ns = ctx.ns then return v
    else if sym.isQualified then ctx.fail span (.lookup .foreignDef)
    else intern ctx.ns sym.name

/-! ### Definitions -/

/-- Whether a definition of this symbol declares its var dynamic. -/
def Symbol.declaresDynamic (sym : Symbol) : Bool :=
  (sym.tag? "dynamic").any Form.isTruthy

/-- The argument lists in the symbol's metadata, with one quote taken off. -/
def Symbol.arglists? (sym : Symbol) : Option Form :=
  ((sym.tag? "arglists").filter Form.isTruthy).map Form.unquote

/-- Declares a var dynamic as its symbol says, or warns that only its name looks so. -/
def declareDynamic (ctx : Context) (sym : Symbol) (v : Var) : Exec Unit :=
  if sym.declaresDynamic then modify (·.setDynamic v)
  else if ctx.warnOnEarmuffs && sym.isEarmuffed then modify (·.warn { symbol := sym.text, pos := ctx.pos })
  else pure ()

/-- Puts the argument lists of a definition into its var's metadata. -/
def attachArglists (sym : Symbol) (v : Var) : Exec Unit :=
  match sym.arglists? with
  | none => pure ()
  | some form => do
    let arglists ← Exec.ofResult form.toValue
    modify (·.addTag v (.keyword "arglists") arglists)

/-- A definition, given how to analyse its target's metadata and its initial value, and the metadata `own` that
it gets by itself. The var is resolved and declared first. -/
def analyzeDefinition (ctx : Context) (own : Table Key Value) (target : Form)
    (tags : Exec (List (Key × Expr))) (init : Exec (Option Expr)) : Exec Expr :=
  match target with
  | .symbol sym span => do
    let v ← resolveTarget ctx sym span
    declareDynamic ctx sym v
    attachArglists sym v
    let tags ← tags
    let init ← init
    return .define v sym.declaresDynamic (tags ++ own.map fun t => (t.1, .const t.2)) init ctx.pos
  | other => ctx.fail other.span (.parse .defTarget)

/-- Quoted data. -/
def analyzeQuote (ctx : Context) (span : Span) : List Form → Exec Expr
  | [data] => do return .ofLiteral (← Exec.ofResult data.toValue)
  | _ => ctx.fail span (.parse .quoteCount)

/-! ### Forms -/

mutual

/-- The node of a form. -/
def analyze (ctx : Context) : Form → Exec Expr
  | .nil _ => pure (.const .nil)
  | .bool b _ => pure (.const (.bool b))
  | .int n _ => pure (.const (.int n))
  | .float x _ => pure (.const (.float x))
  | .string text _ => pure (.const (.string text))
  | .keyword name _ => pure (.const (.keyword name))
  | .symbol sym span => analyzeSymbol ctx sym span
  | .list [] _ => pure (.empty .list)
  | .list (head :: args) span =>
    match SpecialForm.ofHead? head with
    | some .define => analyzeDef ctx span args
    | some .enter => analyzeEnter ctx span args
    | some .quote => analyzeQuote ctx span args
    | some .body => do return .body (← analyzeAll ctx args)
    | none => do
      let callee ← analyze ctx head
      return .invoke callee (← analyzeAll ctx args) ctx.pos
  | .vector [] _ => pure (.empty .vector)
  | .vector (item :: items) _ => do
    let first ← analyze ctx item
    return .vector (first :: (← analyzeAll ctx items))
  | .set [] _ => pure (.empty .set)
  | .set (item :: items) _ => do
    let first ← analyze ctx item
    return .set (first :: (← analyzeAll ctx items))
  | .map [] _ => pure (.empty .map)
  | .map ((k, form) :: entries) _ => do
    let key ← analyze ctx k
    let value ← analyze ctx form
    return .map ((key, value) :: (← analyzeEntries ctx entries))

/-- `(def target)`, `(def target init)` or `(def target doc init)`. -/
def analyzeDef (ctx : Context) (span : Span) : List Form → Exec Expr
  | [target] =>
    let own := ctx.ownTags none
    analyzeDefinition ctx own target (analyzeTarget ctx own target) (pure none)
  | [target, init] =>
    let own := ctx.ownTags none
    analyzeDefinition ctx own target (analyzeTarget ctx own target) (some <$> analyze ctx init)
  | [target, .string doc _, init] =>
    let own := ctx.ownTags (some doc)
    analyzeDefinition ctx own target (analyzeTarget ctx own target) (some <$> analyze ctx init)
  | [] => ctx.fail span (.parse .defTooFew)
  | _ => ctx.fail span (.parse .defTooMany)

/-- `(monitor-enter target)`. -/
def analyzeEnter (ctx : Context) (span : Span) : List Form → Exec Expr
  | [target] => do return .enter (← analyze ctx target)
  | args => ctx.fail span (.parse (.enterCount args.length))

/-- The metadata of a definition's target, without the entries under the keys in `own`. -/
def analyzeTarget (ctx : Context) (own : Table Key Value) : Form → Exec (List (Key × Expr))
  | .symbol ⟨_, _, some entries⟩ _ => analyzeTags ctx own entries
  | _ => pure []

/-- Metadata entries, except those under the keys in `own`. -/
def analyzeTags (ctx : Context) (own : Table Key Value) : List (Key × Form) → Exec (List (Key × Expr))
  | [] => pure []
  | (k, form) :: rest =>
    if Table.contains own k then analyzeTags ctx own rest
    else do
      let e ← analyze ctx form
      return (k, e) :: (← analyzeTags ctx own rest)

/-- Several forms, in order. -/
def analyzeAll (ctx : Context) : List Form → Exec (List Expr)
  | [] => pure []
  | form :: rest => do
    let e ← analyze ctx form
    return e :: (← analyzeAll ctx rest)

/-- The entries of a map, each key before its value. -/
def analyzeEntries (ctx : Context) : List (Form × Form) → Exec (List (Expr × Expr))
  | [] => pure []
  | (k, form) :: rest => do
    let key ← analyze ctx k
    let value ← analyze ctx form
    return (key, value) :: (← analyzeEntries ctx rest)

end

/-! ### One kind of form only -/

/-- Takes a list as the given special form, whatever its head. -/
def SpecialForm.analyze (ctx : Context) (special : SpecialForm) : Form → Exec Expr
  | .list items span =>
    match special with
    | .define => analyzeDef ctx span items.tail
    | .enter => analyzeEnter ctx span items.tail
    | .quote => analyzeQuote ctx span items.tail
    | .body => do return .body (← analyzeAll ctx items.tail)
  | other => ctx.fail other.span (.parse (.notAList special.name))

/-- Takes a list as a call, whatever its head. -/
def analyzeInvocation (ctx : Context) : Form → Exec Expr
  | .list (head :: args) _ => do
    let callee ← analyze ctx head
    return .invoke callee (← analyzeAll ctx args) ctx.pos
  | other => ctx.fail other.span (.parse .noCallee)

/-- A vector, set or map. -/
def analyzeCollection (ctx : Context) : Form → Exec Expr
  | form@(.vector _ _) | form@(.set _ _) | form@(.map _ _) => analyze ctx form
  | other => ctx.fail other.span (.parse (.notACollection other.kindName))

/-- Metadata as a map node. -/
def analyzeMetadata (ctx : Context) (metadata : List (Key × Form)) : Exec Expr := do
  let tags ← analyzeTags ctx [] metadata
  return .map (tags.map fun t => (.const t.1.toValue, t.2))

end LispCore
