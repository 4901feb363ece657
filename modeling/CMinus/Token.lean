import Mathlib.Logic.Basic

namespace CMinus

/-! Tokens and diagnostics.  A `std::string` is a `String` whose characters stand
for its bytes. -/

structure SourceLocation where
  line : Nat := 0
  column : Nat := 0
deriving Repr, DecidableEq, Inhabited

def SourceLocation.isValid (loc : SourceLocation) : Bool :=
  0 < loc.line

inductive TokenKind where
  | endOfFile
  | error
  | kwElse
  | kwIf
  | kwInt
  | kwReturn
  | kwVoid
  | kwWhile
  | identifier
  | number
  | plus
  | minus
  | star
  | slash
  | less
  | lessEqual
  | greater
  | greaterEqual
  | equalEqual
  | bangEqual
  | assign
  | semicolon
  | comma
  | lParen
  | rParen
  | lBracket
  | rBracket
  | lBrace
  | rBrace
deriving Repr, DecidableEq, Inhabited

def tokenKindSpelling : TokenKind → String
  | .endOfFile => "end of file"
  | .error => "invalid token"
  | .kwElse => "else"
  | .kwIf => "if"
  | .kwInt => "int"
  | .kwReturn => "return"
  | .kwVoid => "void"
  | .kwWhile => "while"
  | .identifier => "identifier"
  | .number => "number"
  | .plus => "+"
  | .minus => "-"
  | .star => "*"
  | .slash => "/"
  | .less => "<"
  | .lessEqual => "<="
  | .greater => ">"
  | .greaterEqual => ">="
  | .equalEqual => "=="
  | .bangEqual => "!="
  | .assign => "="
  | .semicolon => ";"
  | .comma => ","
  | .lParen => "("
  | .rParen => ")"
  | .lBracket => "["
  | .rBracket => "]"
  | .lBrace => "\x7b"
  | .rBrace => "\x7d"

/-! Rules 5, 21, 23 and 25 as tests on a token kind. -/

def TokenKind.isTypeSpecifier : TokenKind → Bool
  | .kwInt | .kwVoid => true
  | _ => false

def TokenKind.isRelop : TokenKind → Bool
  | .less | .lessEqual | .greater | .greaterEqual | .equalEqual | .bangEqual => true
  | _ => false

def TokenKind.isAddop : TokenKind → Bool
  | .plus | .minus => true
  | _ => false

def TokenKind.isMulop : TokenKind → Bool
  | .star | .slash => true
  | _ => false

structure Token where
  kind : TokenKind := .endOfFile
  lexeme : String := ""
  value : Int := 0
  loc : SourceLocation := {}
deriving Repr, DecidableEq, Inhabited

def Token.is (tok : Token) (kind : TokenKind) : Bool :=
  decide (tok.kind = kind)

@[simp] theorem Token.is_eq_true {tok : Token} {kind : TokenKind} :
    tok.is kind = true ↔ tok.kind = kind := by
  simp [Token.is]

@[simp] theorem Token.is_eq_false {tok : Token} {kind : TokenKind} :
    tok.is kind = false ↔ tok.kind ≠ kind := by
  simp [Token.is]

inductive DiagLevel where
  | error
  | warning
  | note
deriving Repr, DecidableEq, Inhabited

structure Diagnostic where
  level : DiagLevel
  loc : SourceLocation
  message : String
deriving Repr, DecidableEq, Inhabited

/-! `DiagnosticEngine` is the list of what it has collected, in order of arrival;
its two counters are the numbers of errors and of warnings in that list. -/

abbrev Diagnostics := List Diagnostic

namespace Diagnostics

def add (diags : Diagnostics) (level : DiagLevel) (loc : SourceLocation)
    (message : String) : Diagnostics :=
  diags ++ [⟨level, loc, message⟩]

def error (diags : Diagnostics) (loc : SourceLocation) (message : String) :
    Diagnostics :=
  diags.add .error loc message

def warning (diags : Diagnostics) (loc : SourceLocation) (message : String) :
    Diagnostics :=
  diags.add .warning loc message

def note (diags : Diagnostics) (loc : SourceLocation) (message : String) :
    Diagnostics :=
  diags.add .note loc message

def errorCount (diags : Diagnostics) : Nat :=
  diags.countP (fun d => d.level = .error)

def hasErrors (diags : Diagnostics) : Bool :=
  0 < diags.errorCount

@[simp] theorem errorCount_nil : errorCount [] = 0 := rfl

@[simp] theorem errorCount_append (first second : Diagnostics) :
    errorCount (first ++ second) = first.errorCount + second.errorCount := by
  simp [errorCount]

@[simp] theorem errorCount_error (diags : Diagnostics) (loc : SourceLocation)
    (message : String) :
    (diags.error loc message).errorCount = diags.errorCount + 1 := by
  simp [error, add, errorCount]

@[simp] theorem errorCount_warning (diags : Diagnostics) (loc : SourceLocation)
    (message : String) :
    (diags.warning loc message).errorCount = diags.errorCount := by
  simp [warning, add, errorCount]

@[simp] theorem errorCount_note (diags : Diagnostics) (loc : SourceLocation)
    (message : String) :
    (diags.note loc message).errorCount = diags.errorCount := by
  simp [note, add, errorCount]

@[simp] theorem hasErrors_eq_false {diags : Diagnostics} :
    diags.hasErrors = false ↔ diags.errorCount = 0 := by
  simp [hasErrors]

end Diagnostics

end CMinus
