import LispCore.Value

/-!
# Errors

A fault is a cause; its wording is in `Fault.message` and nowhere else. A failure is a fault with the place
in the source that is known for it. An error is a failure, or a failure located at the position of the
construct that was running; a located error keeps its position for good, so positions never nest.
-/

namespace LispCore

/-- Malformed forms. -/
inductive ParseFault where
  | notAList (construct : String)
  | defTooMany
  | defTooFew
  | defTarget
  | enterCount (given : Nat)
  | quoteCount
  | noCallee
  | notACollection (kind : String)
  | reported (message : String)
deriving DecidableEq

/-- Names that cannot be resolved. -/
inductive LookupFault where
  | noNamespace (name : String)
  | noQualifiedVar
  | foreignDef
  | unresolved (sym : String)
  | reported (message : String)
deriving DecidableEq

/-- Broken rules of the machine and of the node constructors. -/
inductive InternalFault where
  | notACollection (kind : ValueKind)
  | notEmpty (kind : CollKind)
  | constantIndex
  | varIndex
  | underflow
  | dynamicNeedsVar
  | expectedVar (got : ValueKind)
  | noReturn
  | noBody
  | reported (message : String)
deriving DecidableEq

/-- Failures of running programs. -/
inductive RuntimeFault where
  | unbound (v : Var)
  | notDynamic (v : Var)
  | nilMonitor
  | reported (message : String)
deriving DecidableEq

/-- A call with the wrong number of arguments. -/
inductive ArityFault where
  | wrongCount (f : Native) (given : Nat)
  | reported (message : String)
deriving DecidableEq

/-- What would never come to an end: a call through vars that lead back to each other, and entering a monitor
that another thread keeps. -/
inductive Stall where
  | varCycle
  | monitorKept
deriving DecidableEq

/-- The causes of failure. -/
inductive Fault where
  | parse (cause : ParseFault)
  | lookup (cause : LookupFault)
  | internal (cause : InternalFault)
  | runtime (cause : RuntimeFault)
  | arity (cause : ArityFault)
  | typeMismatch (expected actual : String)
  | thrown (message : String)
  | stalled (cause : Stall)
deriving DecidableEq

/-! ### Wording -/

def ParseFault.message : ParseFault → String
  | .notAList construct => construct ++ " expects a list form"
  | .defTooMany => "Too many arguments to def"
  | .defTooFew => "Too few arguments to def"
  | .defTarget => "First argument to def must be a Symbol"
  | .enterCount given => "monitor-enter expects exactly 1 argument, got " ++ toString given
  | .quoteCount => "Wrong number of args to quote"
  | .noCallee => "invocation needs a callee"
  | .notACollection kind => "expected a collection literal, got " ++ kind
  | .reported message => message

def LookupFault.message : LookupFault → String
  | .noNamespace name => "No such namespace: " ++ name
  | .noQualifiedVar => "Can't refer to qualified var that doesn't exist"
  | .foreignDef => "Can't create defs outside of current namespace"
  | .unresolved sym => "Unable to resolve symbol: " ++ sym ++ " in this context"
  | .reported message => message

def InternalFault.message : InternalFault → String
  | .notACollection kind => "Unknown collection type: " ++ kind.name
  | .notEmpty kind => "empty literal built from non-empty " ++ kind.name
  | .constantIndex => "constant index out of range"
  | .varIndex => "var index out of range"
  | .underflow => "stack underflow"
  | .dynamicNeedsVar => "SetDynamic expects a var"
  | .expectedVar got => "expected var on stack, got " ++ got.name
  | .noReturn => "chunk ended without Return"
  | .noBody => "native function without a body"
  | .reported message => message

def RuntimeFault.message : RuntimeFault → String
  | .unbound v => "Unbound var: " ++ v.text
  | .notDynamic v => "Can't dynamically bind non-dynamic var: " ++ v.text
  | .nilMonitor => "monitor-enter: target is nil"
  | .reported message => message

def ArityFault.message : ArityFault → String
  | .wrongCount f given =>
    f.name ++ " expects " ++ f.arity.text ++ " args, got " ++ toString given
  | .reported message => message

def Stall.message : Stall → String
  | .varCycle => "call through vars that lead back to each other"
  | .monitorKept => "monitor kept by another thread"

def Fault.message : Fault → String
  | .parse cause => "Parse error: " ++ cause.message
  | .lookup cause => "Lookup error: " ++ cause.message
  | .internal cause => "Internal error: " ++ cause.message
  | .runtime cause => "Runtime error: " ++ cause.message
  | .arity cause => "Arity mismatch: " ++ cause.message
  | .typeMismatch expected actual => "Type mismatch: expected " ++ expected ++ ", got " ++ actual
  | .thrown message => "Thrown: " ++ message
  | .stalled cause => "Stalled: " ++ cause.message

/-! ### Failures and errors -/

/-- A fault with the place in the source that is known for it. -/
structure Failure where
  fault : Fault
  span : Option Span := none
  file : Option String := none
deriving DecidableEq

/-- A failure, perhaps located at the position of a running construct. -/
inductive Error where
  | plain (failure : Failure)
  | located (pos : SourcePos) (cause : Failure)
deriving DecidableEq

namespace Error

/-- The bare error of a fault. -/
def of (fault : Fault) : Error :=
  .plain { fault }

/-- Gives an error a position, unless it has one. -/
def locate (pos : SourcePos) : Error → Error
  | .plain failure => .located pos failure
  | .located p cause => .located p cause

/-- Gives a plain failure a span, unless it has one. -/
def withSpan (span : Span) : Error → Error
  | .plain failure => .plain { failure with span := failure.span.or (some span) }
  | .located pos cause => .located pos cause

/-- Gives a plain failure a file, unless it has one. -/
def withFile (file : Option String) : Error → Error
  | .plain failure => .plain { failure with file := failure.file.or file }
  | .located pos cause => .located pos cause

/-- The failure under the position. -/
def rootCause : Error → Failure
  | .plain failure => failure
  | .located _ cause => cause

def file? : Error → Option String
  | .plain failure => failure.file
  | .located pos _ => some pos.file

def span? : Error → Option Span
  | .plain failure => failure.span
  | .located _ _ => none

def position? : Error → Option SourcePos
  | .plain _ => none
  | .located pos _ => some pos

def message : Error → String
  | .plain failure => failure.fault.message
  | .located pos cause => cause.fault.message ++ " (" ++ pos.text ++ ")"

/-- The mark, in red, before a reported error. -/
def tag : String := "\x1b[31m[ERROR]\x1b[0m"

/-- The lines of a report: the message, and where it belongs if that is known. -/
def report : Error → List String
  | .located pos cause => [tag ++ " " ++ cause.fault.message, "  at " ++ pos.text]
  | .plain failure =>
    let place :=
      match failure.span, failure.file with
      | some span, file =>
        ["  at " ++ file.getD noSourceFile ++ ":" ++ toString span.line ++ ":" ++ toString span.col]
      | none, some file => ["  at " ++ file]
      | none, none => []
    (tag ++ " " ++ failure.fault.message) :: place

end Error

/-! ### Keys -/

/-- The key that a value is, or the type error that it cannot be one. -/
def Key.ofValue (v : Value) : Except Fault Key :=
  match Key.ofValue? v with
  | some key => .ok key
  | none => .error (.typeMismatch "map key" v.kind.name)

/-- The map with the given entries: of equal keys the last stays. -/
def Value.mapOf (entries : List (Value × Value)) : Except Fault (Table Key Value) := do
  let keyed ← entries.mapM fun (k, v) => do return (← Key.ofValue k, v)
  return Table.ofList keyed

end LispCore
