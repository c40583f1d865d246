/-!
# Places in source text

A span is where a form was read; a source position is the file and line that an error report names.
-/

namespace LispCore

/-- Where a form starts: line, column, and index in the text. Data made without a reader has the zero span. -/
structure Span where
  line : Nat := 0
  col : Nat := 0
  index : Nat := 0
deriving DecidableEq, Inhabited

namespace Span

/-- The span of a whole line. -/
def ofLine (line : Nat) : Span :=
  { line, col := 1, index := 0 }

/-- `line:column:index`. -/
def text (span : Span) : String :=
  toString span.line ++ ":" ++ toString span.col ++ ":" ++ toString span.index

end Span

/-- The name reported for a form that came from no file. -/
def noSourceFile : String := "NO_SOURCE_FILE"

/-- A file and a line of it. -/
structure SourcePos where
  file : String
  line : Nat
deriving DecidableEq, Inhabited

namespace SourcePos

/-- The span that stands for the position in compiled code: its line, without a column. -/
def span (pos : SourcePos) : Span :=
  Span.ofLine pos.line

/-- `file:line`. -/
def text (pos : SourcePos) : String :=
  pos.file ++ ":" ++ toString pos.line

end SourcePos

end LispCore
