import Mathlib.Algebra.Group.Nat.Defs
import CMinus.Token

namespace CMinus

/-! The scanner.  `source` is what is left to read: `source_` from `pos_` on. -/

structure Lexer where
  source : List Char
  loc : SourceLocation := { line := 1, column := 1 }
  diags : Diagnostics := []
deriving Repr, Inhabited

def isLetter (c : Char) : Bool :=
  ('a' ≤ c && c ≤ 'z') || ('A' ≤ c && c ≤ 'Z')

def isDigit (c : Char) : Bool :=
  '0' ≤ c && c ≤ '9'

def isSpace (c : Char) : Bool :=
  c = ' ' || c = '\t' || c = '\n' || c = '\r' || c = '\x0c' || c = '\x0b'

def keywordOrIdentifier (text : String) : TokenKind :=
  if text = "else" then .kwElse
  else if text = "if" then .kwIf
  else if text = "int" then .kwInt
  else if text = "return" then .kwReturn
  else if text = "void" then .kwVoid
  else if text = "while" then .kwWhile
  else .identifier

def hexDigit (n : Nat) : Char :=
  if n < 10 then Char.ofNat ('0'.toNat + n) else Char.ofNat ('a'.toNat + (n - 10))

def describeChar (c : Char) : String :=
  if 0x20 ≤ c.toNat ∧ c.toNat < 0x7f then String.singleton c
  else "\\x" ++ String.ofList [hexDigit (c.toNat / 16 % 16), hexDigit (c.toNat % 16)]

namespace Lexer

/-! `here()` after one more character. -/

def past (loc : SourceLocation) (c : Char) : SourceLocation :=
  if c = '\n' then { line := loc.line + 1, column := 1 }
  else { loc with column := loc.column + 1 }

def digitValue (c : Char) : Nat := c.toNat - '0'.toNat

def decimalValue (text : List Char) : Nat :=
  text.foldl (fun value c => 10 * value + digitValue c) 0

/-! `std::from_chars` into a `long long`: no value when it is out of range. -/

def fromChars (text : List Char) : Option Int :=
  if decimalValue text < 2 ^ 63 then some (decimalValue text : Nat) else none

inductive State where
  | start
  | inIdentifier
  | inNumber
  | afterSlash
  | inComment
  | inCommentStar
  | afterLess
  | afterGreater
  | afterAssign
  | afterBang
deriving Repr, DecidableEq, Inhabited

def error (lx : Lexer) (loc : SourceLocation) (message : String) : Lexer :=
  { lx with diags := lx.diags.error loc message }

def make (kind : TokenKind) (loc : SourceLocation) (lexeme : String) : Token :=
  { kind := kind, loc := loc, lexeme := lexeme }

def singleCharacter : Char → Option TokenKind
  | '+' => some .plus
  | '-' => some .minus
  | '*' => some .star
  | ';' => some .semicolon
  | ',' => some .comma
  | '(' => some .lParen
  | ')' => some .rParen
  | '[' => some .lBracket
  | ']' => some .rBracket
  | '\x7b' => some .lBrace
  | '\x7d' => some .rBrace
  | _ => none

def twoCharacters : Char → Option State
  | '/' => some .afterSlash
  | '<' => some .afterLess
  | '>' => some .afterGreater
  | '=' => some .afterAssign
  | '!' => some .afterBang
  | _ => none

def finishNumber (start : SourceLocation) (text : List Char) (lx : Lexer) :
    Token × Lexer :=
  let tok := make .number start (String.ofList text)
  match fromChars text with
  | some value => ({ tok with value := value }, lx)
  | none =>
      (tok, lx.error start
        ("integer constant '" ++ String.ofList text ++ "' is too large"))

/-! The loop of `Lexer::next`.  Every turn that stays in the loop consumes one
character, so the recursion is on what is left of the source. -/

def nextFrom (state : State) (start : SourceLocation) (text : List Char)
    (loc : SourceLocation) (diags : Diagnostics) : List Char → Token × Lexer
  | [] =>
      let lx : Lexer := { source := [], loc := loc, diags := diags }
      match state with
      | .start => (make .endOfFile loc "", lx)
      | .inIdentifier =>
          (make (keywordOrIdentifier (String.ofList text)) start (String.ofList text), lx)
      | .inNumber => finishNumber start text lx
      | .afterSlash => (make .slash start "/", lx)
      | .inComment | .inCommentStar =>
          (make .endOfFile loc "", lx.error start "unterminated comment")
      | .afterLess => (make .less start "<", lx)
      | .afterGreater => (make .greater start ">", lx)
      | .afterAssign => (make .assign start "=", lx)
      | .afterBang =>
          (make .error start "!",
            lx.error start "'!' is not an operator in C-; did you mean '!='?")
  | c :: rest =>
      let here : Lexer := { source := c :: rest, loc := loc, diags := diags }
      let next : Lexer := { source := rest, loc := past loc c, diags := diags }
      match state with
      | .start =>
          if isLetter c then nextFrom .inIdentifier loc [c] next.loc diags rest
          else if isDigit c then nextFrom .inNumber loc [c] next.loc diags rest
          else if isSpace c then nextFrom .start loc [] next.loc diags rest
          else match twoCharacters c with
            | some state => nextFrom state loc [] next.loc diags rest
            | none =>
                match singleCharacter c with
                | some kind => (make kind loc (String.singleton c), next)
                | none =>
                    (make .error loc (String.singleton c), next.error loc
                      ("invalid character '" ++ describeChar c ++ "' in source file"))
      | .inIdentifier =>
          if isLetter c then
            nextFrom .inIdentifier start (text ++ [c]) next.loc diags rest
          else
            (make (keywordOrIdentifier (String.ofList text)) start (String.ofList text),
              here)
      | .inNumber =>
          if isDigit c then nextFrom .inNumber start (text ++ [c]) next.loc diags rest
          else finishNumber start text here
      | .afterSlash =>
          if c = '*' then nextFrom .inComment start text next.loc diags rest
          else (make .slash start "/", here)
      | .inComment =>
          if c = '*' then nextFrom .inCommentStar start text next.loc diags rest
          else nextFrom .inComment start text next.loc diags rest
      | .inCommentStar =>
          if c = '/' then nextFrom .start start text next.loc diags rest
          else if c = '*' then nextFrom .inCommentStar start text next.loc diags rest
          else nextFrom .inComment start text next.loc diags rest
      | .afterLess =>
          if c = '=' then (make .lessEqual start "<=", next)
          else (make .less start "<", here)
      | .afterGreater =>
          if c = '=' then (make .greaterEqual start ">=", next)
          else (make .greater start ">", here)
      | .afterAssign =>
          if c = '=' then (make .equalEqual start "==", next)
          else (make .assign start "=", here)
      | .afterBang =>
          if c = '=' then (make .bangEqual start "!=", next)
          else (make .error start "!",
            here.error start "'!' is not an operator in C-; did you mean '!='?")

def next (lx : Lexer) : Token × Lexer :=
  nextFrom .start lx.loc [] lx.loc lx.diags lx.source

/-! `limit` bounds the number of tokens; a token other than the last consumes at
least one character of the source. -/

def tokenizeFrom : Nat → Lexer → List Token × Lexer
  | 0, lx => ([], lx)
  | limit + 1, lx =>
      let scanned := lx.next
      if scanned.1.is .endOfFile then ([scanned.1], scanned.2)
      else
        let more := tokenizeFrom limit scanned.2
        (scanned.1 :: more.1, more.2)

def tokenize (lx : Lexer) : List Token × Lexer :=
  tokenizeFrom (lx.source.length + 1) lx

end Lexer

end CMinus
