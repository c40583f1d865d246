import LispCore.Native
import LispCore.Value.Canonical

/-!
# Standard native functions

A small set of native functions: enough to leave a trace, to fail in every way, to compute, and to make
objects. `standardNatives` lists them with the names and arities under which a session offers them.
-/

namespace LispCore

/-- The error that a program asks for by the name of its kind. -/
def Error.ofKind? (kind message : String) : Option Error :=
  match kind with
  | "parse" => some (.of (.parse (.reported message)))
  | "lookup" => some (.of (.lookup (.reported message)))
  | "internal" => some (.of (.internal (.reported message)))
  | "runtime" | "from_str" | "from_string" => some (.of (.runtime (.reported message)))
  | "arity" => some (.of (.arity (.reported message)))
  | "thrown" => some (.of (.thrown message))
  | "type" => some (.of (.typeMismatch message "thing"))
  | "compiler" => some ((Error.of (.thrown message)).locate { file := "native.clv", line := 99 })
  | _ => none

/-- The text of an event, for those that are shown. -/
def Event.text? : Event → Option String
  | .called _ _ => none
  | .marked args => some ("mark " ++ " ".intercalate (args.map Canonical.ofValue))
  | .entered target => some ("enter " ++ Canonical.ofValue target)

/-- What the standard native functions do. -/
inductive Behavior where
  | mark | fail | sum | list | raise | object
deriving DecidableEq

namespace Behavior

def ofName? : String → Option Behavior
  | "mark" => some .mark
  | "fail" => some .fail
  | "sum" => some .sum
  | "list" => some .list
  | "throw" => some .raise
  | "obj" => some .object
  | _ => none

/-- Adds whole numbers from the left, in sixty-four bits. -/
def add (total : Int) : List Value → Except Fault Int
  | [] => .ok total
  | .int n :: rest =>
    let next := total + n.toInt
    if -(2 ^ 63) ≤ next ∧ next < 2 ^ 63 then add next rest else .error (.thrown "overflow")
  | other :: _ => .error (.typeMismatch "number" other.kind.name)

def body : Behavior → NativeBody
  | .mark => fun args => do
    modify (·.record (.marked args))
    return args.headD .nil
  | .fail => fun _ => throw (.of (.thrown "boom"))
  | .sum => fun args =>
    match add 0 args with
    | .ok total => return .int (Int64.ofInt total)
    | .error fault => throw (.of fault)
  | .list => fun args => return .list args
  | .raise => fun args =>
    match args with
    | [.keyword kind, .string message] =>
      throw ((Error.ofKind? kind message).getD (.of (.thrown "bad throw")))
    | _ => throw (.of (.thrown "bad throw"))
  | .object => fun args => do
    match args with
    | [.string label] =>
      let host ← get
      set { host with nextObject := host.nextObject + 1 }
      return .object { id := host.nextObject, label }
    | _ => throw (.of (.thrown "bad obj"))

end Behavior

/-- The standard native functions, in the order in which a session defines them. -/
def standardNatives : List (String × Arity × Behavior) :=
  [("mark", .exactly 1, .mark), ("fail", .exactly 0, .fail), ("+", .atLeast 0, .sum),
    ("list", .atLeast 0, .list), ("throw", .exactly 2, .raise), ("obj", .exactly 1, .object),
    ("opt", ⟨1, some 3, by simp⟩, .list)]

/-- Defines the standard native functions in the current namespace. -/
def World.withStandardNatives (w : World) : World :=
  standardNatives.foldl (fun w (name, arity, behavior) => (w.defineNative name arity behavior.body).2) w

end LispCore
