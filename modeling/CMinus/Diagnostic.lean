import CMinus.Token

namespace CMinus

/-! What `DiagnosticEngine` knows of the source, and how it shows a diagnostic.  The offsets
of the lines are a table that its constructor fills. -/

structure DiagnosticEngine where
  fileName : String
  source : List Char
  lineStarts : List Nat

namespace DiagnosticEngine

def kReset : String := "\x1b[0m"
def kBold : String := "\x1b[1m"
def kRed : String := "\x1b[1;31m"
def kMagenta : String := "\x1b[1;35m"
def kCyan : String := "\x1b[1;36m"

def levelText : DiagLevel → String
  | .error => "error"
  | .warning => "warning"
  | .note => "note"

def levelColor : DiagLevel → String
  | .error => kRed
  | .warning => kMagenta
  | .note => kCyan

/-- The loop of the constructor, from offset `i` on. -/
def lineStartsFrom (i : Nat) : List Char → List Nat
  | [] => []
  | c :: rest =>
      if c = '\n' then (i + 1) :: lineStartsFrom (i + 1) rest else lineStartsFrom (i + 1) rest

def create (fileName : String) (source : List Char) : DiagnosticEngine where
  fileName := fileName
  source := source
  lineStarts := 0 :: lineStartsFrom 0 source

variable (engine : DiagnosticEngine)

def offset (loc : SourceLocation) : Nat :=
  engine.lineStarts.getD (loc.line - 1) 0 + (loc.column - 1)

/-- `source_.find('\n', start)`, or the end. -/
def lineEnd (start : Nat) : Nat :=
  match (engine.source.drop start).findIdx? (· = '\n') with
  | some length => start + length
  | none => engine.source.length

def lineText (line : Nat) : List Char :=
  if line < 1 ∨ engine.lineStarts.length < line then []
  else
    let start := engine.lineStarts.getD (line - 1) 0
    let stop := engine.lineEnd start
    -- a trailing carriage return is no part of the line
    let stop := if start < stop ∧ engine.source[stop - 1]? = some '\r' then stop - 1 else stop
    (engine.source.drop start).take (stop - start)

/-- What stands before the caret. -/
def caretIndent (text : List Char) (column : Nat) : List Char :=
  (List.range (column - 1)).map fun i => if text[i]? = some '\t' then '\t' else ' '

def heading (d : Diagnostic) (bold color reset : String) : String :=
  bold ++ engine.fileName ++
    (if d.loc.isValid then ":" ++ toString d.loc.line ++ ":" ++ toString d.loc.column else "") ++
    ": " ++ reset ++ color ++ levelText d.level ++ ": " ++ reset ++ bold ++ d.message ++ reset ++ "\n"

def render (d : Diagnostic) (useColor : Bool) : String :=
  let color := if useColor then levelColor d.level else ""
  let bold := if useColor then kBold else ""
  let reset := if useColor then kReset else ""
  let head := engine.heading d bold color reset
  if d.loc.isValid then
    let text := engine.lineText d.loc.line
    if text = [] ∧ d.loc.column ≤ 1 then head
    else
      head ++ "  " ++ String.ofList text ++ "\n  " ++
        String.ofList (caretIndent text d.loc.column) ++ color ++ "^" ++ reset ++ "\n"
  else head

def print (diags : Diagnostics) (useColor : Bool) : String :=
  String.join (diags.map fun d => engine.render d useColor)

end DiagnosticEngine

end CMinus
