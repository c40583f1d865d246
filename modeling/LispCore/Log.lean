import LispCore.Options
import LispCore.Value

/-!
# Warnings and log

There is one warning: a definition whose name is written between stars, as dynamic vars are, but which is not
declared dynamic. What a session notes of its own work are records; their wording is in `LogRecord.message`.
-/

namespace LispCore

/-! ### Warnings -/

/-- That `symbol` looks dynamic and is not, and where it was defined. -/
structure Warning where
  symbol : String
  pos : SourcePos
deriving DecidableEq

namespace Warning

def message (w : Warning) : String :=
  w.symbol ++ " not declared dynamic and thus is not dynamically rebindable, but its name suggests " ++
    "otherwise. Please either indicate ^:dynamic " ++ w.symbol ++ " or change the name."

/-- The message with its position. -/
def text (w : Warning) : String :=
  w.message ++ " (" ++ w.pos.text ++ ")"

end Warning

/-! ### Records -/

inductive LogRecord where
  | replaced (name : String) (old : Var) (ns : String)
  | interned (v : Var)
  | evaluating (nodeKind : String) (line : Nat) (engine : Engine)
  | compiled (source : String) (line : Nat) (instructions : Nat)
  | running (source : String) (instructions : Nat)
  | collected (symbol : String)
  | warned (warning : Warning)
deriving DecidableEq

/-- The parts of the system that log. -/
inductive LogSource where
  | namespaces | session | compiler | machine | diagnostics
deriving DecidableEq

inductive LogLevel where
  | debug | warn
deriving DecidableEq

namespace LogRecord

def level : LogRecord → LogLevel
  | .warned _ => .warn
  | _ => .debug

def source : LogRecord → LogSource
  | .replaced _ _ _ | .interned _ => .namespaces
  | .evaluating _ _ _ => .session
  | .compiled _ _ _ => .compiler
  | .running _ _ => .machine
  | .collected _ | .warned _ => .diagnostics

def message : LogRecord → String
  | .replaced name old ns =>
    name ++ " already refers to " ++ old.text ++ " in namespace " ++ ns ++ ", being replaced"
  | .interned v => "interned " ++ v.text
  | .evaluating nodeKind line engine =>
    "evaluating " ++ nodeKind ++ " form at line " ++ toString line ++ " via " ++ engine.name
  | .compiled source line instructions =>
    "compiled top-level form at " ++ source ++ ":" ++ toString line ++ " into " ++ toString instructions ++
      " instructions"
  | .running source instructions =>
    "running chunk from " ++ source ++ " (" ++ toString instructions ++ " instructions)"
  | .collected symbol => "collected warning for " ++ symbol
  | .warned warning => warning.text

end LogRecord

end LispCore
