import LispCore.Span

/-!
# Options of a session

Which engine runs the forms, whether suspicious names are warned about, the name of the source, and the
namespace in which the session starts.
-/

namespace LispCore

/-! ### Switches -/

namespace Text

/-- The white space characters. -/
def isBlank (c : Char) : Bool :=
  let n := c.toNat
  (9 ≤ n && n ≤ 13) || n == 0x20 || n == 0x85 || n == 0xa0 || n == 0x1680 || (0x2000 ≤ n && n ≤ 0x200a) ||
    n == 0x2028 || n == 0x2029 || n == 0x202f || n == 0x205f || n == 0x3000

/-- The characters without the blanks at either end. -/
def trim (cs : List Char) : List Char :=
  ((cs.dropWhile isBlank).reverse.dropWhile isBlank).reverse

/-- The texts that turn a switch on. -/
def onWords : List String := ["1", "true", "yes", "on"]

/-- Whether a setting turns its switch on. A setting that is absent does not. -/
def isOn (setting : Option String) : Bool :=
  setting.any fun text => onWords.contains (String.ofList ((trim text.toList).map Char.toLower))

end Text

/-! ### Options -/

/-- The two ways to run an analysed form: by walking its nodes, or by compiling it for the stack machine. -/
inductive Engine where
  | direct
  | machine
deriving DecidableEq, Inhabited

/-- The word for an engine in the log. -/
def Engine.name : Engine → String
  | .direct => "eval"
  | .machine => "vm"

structure Options where
  engine : Engine := .direct
  warnOnEarmuffs : Bool := true
  source : Option String := none
  ns : String := "user"
deriving DecidableEq, Inhabited

namespace Options

/-- The source name that positions report. -/
def sourcePath (options : Options) : String :=
  options.source.getD noSourceFile

/-- The options that two settings of the environment ask for: one turns the machine on, the other turns the
warnings off. -/
def ofSettings (machine noEarmuffWarnings : Option String) : Options :=
  { engine := if Text.isOn machine then .machine else .direct
    warnOnEarmuffs := !Text.isOn noEarmuffWarnings }

end Options

end LispCore
