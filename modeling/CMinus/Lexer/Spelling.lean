import CMinus.Lexer
import Mathlib.Data.List.Infix

namespace CMinus

/-! The lexical conventions: how each kind of token is spelled. -/

def TokenKind.isKeyword : TokenKind → Bool
  | .kwElse | .kwIf | .kwInt | .kwReturn | .kwVoid | .kwWhile => true
  | _ => false

def TokenKind.isWord (kind : TokenKind) : Bool := kind.isKeyword || kind = .identifier

def TokenKind.isSymbol : TokenKind → Bool
  | .plus | .minus | .star | .slash | .less | .lessEqual | .greater | .greaterEqual
  | .equalEqual | .bangEqual | .assign | .semicolon | .comma | .lParen | .rParen
  | .lBracket | .rBracket | .lBrace | .rBrace => true
  | _ => false

def TokenKind.spelling (kind : TokenKind) : List Char := (tokenKindSpelling kind).toList

namespace Lexer

inductive Spelling : List Char → TokenKind → Prop
  | keyword {kind : TokenKind} : kind.isKeyword = true → Spelling kind.spelling kind
  | identifier {text : List Char} : text ≠ [] → (∀ c ∈ text, isLetter c = true) →
      (∀ kind : TokenKind, kind.isKeyword = true → text ≠ kind.spelling) →
      Spelling text .identifier
  | number {text : List Char} : text ≠ [] → (∀ c ∈ text, isDigit c = true) →
      Spelling text .number
  | symbol {kind : TokenKind} : kind.isSymbol = true → Spelling kind.spelling kind

/-- A comment runs to the first `*/` behind its `/*`. -/
inductive Comment : List Char → Prop
  | mk {body : List Char} : ¬ ['*', '/'] <:+: body ++ ['*'] →
      Comment ('/' :: '*' :: (body ++ ['*', '/']))

inductive Gap : List Char → Prop
  | nil : Gap []
  | space {c : Char} {gap : List Char} : isSpace c = true → Gap gap → Gap (c :: gap)
  | comment {text gap : List Char} : Comment text → Gap gap → Gap (text ++ gap)

def pastAll (loc : SourceLocation) (text : List Char) : SourceLocation :=
  text.foldl past loc

@[simp] theorem pastAll_nil (loc : SourceLocation) : pastAll loc [] = loc := rfl

@[simp] theorem pastAll_cons (loc : SourceLocation) (c : Char) (text : List Char) :
    pastAll loc (c :: text) = pastAll (past loc c) text := rfl

@[simp] theorem pastAll_append (loc : SourceLocation) (first second : List Char) :
    pastAll loc (first ++ second) = pastAll (pastAll loc first) second := by
  simp [pastAll]

/-- The first lexeme of `input` by maximal munch. -/
structure Longest (text : List Char) (kind : TokenKind) (input : List Char) : Prop where
  spelling : Spelling text kind
  atFront : text <+: input
  longest : ∀ other kind', Spelling other kind' → other <+: input →
    other.length ≤ text.length
  noComment : ¬ ['/', '*'] <+: input

def fitsLongLong (text : List Char) : Bool := decimalValue text < 2 ^ 63

def tokenFor (kind : TokenKind) (loc : SourceLocation) (text : List Char) : Token :=
  { kind := kind, loc := loc, lexeme := String.ofList text,
    value := if kind = .number ∧ fitsLongLong text then (decimalValue text : Nat) else 0 }

def errorsFor (kind : TokenKind) (loc : SourceLocation) (text : List Char) : Diagnostics :=
  if kind = .number ∧ fitsLongLong text = false then
    [⟨.error, loc, "integer constant '" ++ String.ofList text ++ "' is too large"⟩]
  else []

def errorToken (loc : SourceLocation) (c : Char) : Token :=
  { kind := .error, loc := loc, lexeme := String.singleton c }

/-- `Tokenized loc source tokens diags`: `source`, which starts at `loc`, is cut into gaps
and the lexemes of the tokens, and these are the errors in it. -/
inductive Tokenized : SourceLocation → List Char → List Token → Diagnostics → Prop
  | last {loc : SourceLocation} {gap : List Char} : Gap gap →
      Tokenized loc gap [{ kind := .endOfFile, loc := pastAll loc gap }] []
  | unterminated {loc : SourceLocation} {gap body : List Char} : Gap gap →
      ¬ ['*', '/'] <:+: body →
      Tokenized loc (gap ++ '/' :: '*' :: body)
        [{ kind := .endOfFile, loc := pastAll loc (gap ++ '/' :: '*' :: body) }]
        [⟨.error, pastAll loc gap, "unterminated comment"⟩]
  | token {loc : SourceLocation} {gap text rest : List Char} {kind : TokenKind}
      {tokens : List Token} {diags : Diagnostics} : Gap gap →
      Longest text kind (text ++ rest) →
      Tokenized (pastAll loc (gap ++ text)) rest tokens diags →
      Tokenized loc (gap ++ (text ++ rest)) (tokenFor kind (pastAll loc gap) text :: tokens)
        (errorsFor kind (pastAll loc gap) text ++ diags)
  | invalid {loc : SourceLocation} {gap rest : List Char} {c : Char}
      {tokens : List Token} {diags : Diagnostics} : Gap gap → isSpace c = false →
      (∀ text kind, Spelling text kind → text.head? ≠ some c) →
      Tokenized (pastAll loc (gap ++ [c])) rest tokens diags →
      Tokenized loc (gap ++ (c :: rest)) (errorToken (pastAll loc gap) c :: tokens)
        (⟨.error, pastAll loc gap,
          "invalid character '" ++ describeChar c ++ "' in source file"⟩ :: diags)
  | bang {loc : SourceLocation} {gap rest : List Char} {tokens : List Token}
      {diags : Diagnostics} : Gap gap → rest.head? ≠ some '=' →
      Tokenized (pastAll loc (gap ++ ['!'])) rest tokens diags →
      Tokenized loc (gap ++ ('!' :: rest)) (errorToken (pastAll loc gap) '!' :: tokens)
        (⟨.error, pastAll loc gap,
          "'!' is not an operator in C-; did you mean '!='?"⟩ :: diags)

/-! The first character of a spelling tells its sort. -/

theorem keyword_letters {kind : TokenKind} (h : kind.isKeyword = true) :
    kind.spelling ≠ [] ∧ ∀ c ∈ kind.spelling, isLetter c = true := by
  have hall : kind.spelling ≠ [] ∧ kind.spelling.all isLetter = true := by
    cases kind <;> first | exact absurd h (by decide) | decide
  exact ⟨hall.1, fun c hc => List.all_eq_true.mp hall.2 c hc⟩

theorem symbol_head {kind : TokenKind} (h : kind.isSymbol = true) :
    ∃ c rest, kind.spelling = c :: rest ∧ isLetter c = false ∧ isDigit c = false ∧
      isSpace c = false := by
  cases kind <;>
    first
    | exact absurd h (by decide)
    | exact ⟨_, _, rfl, by decide, by decide, by decide⟩

theorem Spelling.ne_nil {text : List Char} {kind : TokenKind} (h : Spelling text kind) :
    text ≠ [] := by
  cases h with
  | keyword h => exact (keyword_letters h).1
  | identifier h _ _ => exact h
  | number h _ => exact h
  | symbol h =>
      obtain ⟨c, rest, htext, -⟩ := symbol_head h
      simp [htext]

theorem digit_not_letter {c : Char} (h : isDigit c = true) : isLetter c = false := by
  simp only [isDigit, isLetter, Bool.and_eq_true, decide_eq_true_eq, Bool.or_eq_false_iff,
    Bool.and_eq_false_iff, decide_eq_false_iff_not, Char.le_def, UInt32.le_iff_toNat_le] at *
  have : ('9' : Char).val.toNat = 57 := rfl
  have : ('A' : Char).val.toNat = 65 := rfl
  have : ('a' : Char).val.toNat = 97 := rfl
  omega

theorem Spelling.of_letter {c : Char} {text : List Char} {kind : TokenKind}
    (h : Spelling (c :: text) kind) (hc : isLetter c = true) :
    kind.isWord = true ∧ ∀ d ∈ c :: text, isLetter d = true := by
  generalize hall : c :: text = all at h
  cases h with
  | keyword h => exact ⟨by simp [TokenKind.isWord, h], (keyword_letters h).2⟩
  | identifier _ h _ => exact ⟨rfl, h⟩
  | number _ h =>
      have hdigit := digit_not_letter (h c (by simp [← hall]))
      rw [hc] at hdigit
      cases hdigit
  | symbol h =>
      obtain ⟨d, rest, htext, hd, -⟩ := symbol_head h
      rw [htext] at hall
      cases hall
      rw [hc] at hd
      cases hd

theorem Spelling.of_digit {c : Char} {text : List Char} {kind : TokenKind}
    (h : Spelling (c :: text) kind) (hc : isDigit c = true) :
    kind = .number ∧ ∀ d ∈ c :: text, isDigit d = true := by
  have hletter := digit_not_letter hc
  generalize hall : c :: text = all at h
  cases h with
  | keyword h =>
      have := (keyword_letters h).2 c (by simp [← hall])
      rw [hletter] at this
      cases this
  | identifier _ h _ =>
      have := h c (by simp [← hall])
      rw [hletter] at this
      cases this
  | number _ h => exact ⟨rfl, h⟩
  | symbol h =>
      obtain ⟨d, rest, htext, -, hd, -⟩ := symbol_head h
      rw [htext] at hall
      cases hall
      rw [hc] at hd
      cases hd

theorem Spelling.of_other {c : Char} {text : List Char} {kind : TokenKind}
    (h : Spelling (c :: text) kind) (hletter : isLetter c = false)
    (hdigit : isDigit c = false) : kind.isSymbol = true ∧ c :: text = kind.spelling := by
  generalize hall : c :: text = all at h
  cases h with
  | keyword h =>
      have := (keyword_letters h).2 c (by simp [← hall])
      rw [hletter] at this
      cases this
  | identifier _ h _ =>
      have := h c (by simp [← hall])
      rw [hletter] at this
      cases this
  | number _ h =>
      have := h c (by simp [← hall])
      rw [hdigit] at this
      cases this
  | symbol h => exact ⟨h, rfl⟩

/-! A word is spelled one way. -/

theorem spelling_word {text : List Char} (hne : text ≠ [])
    (hletters : ∀ c ∈ text, isLetter c = true) :
    Spelling text (keywordOrIdentifier (String.ofList text)) := by
  have hkeyword : ∀ kind : TokenKind, kind.isKeyword = true →
      String.ofList text = tokenKindSpelling kind → Spelling text kind := by
    intro kind hkind htext
    have hlist : text = kind.spelling := by
      have := congrArg String.toList htext
      rwa [String.toList_ofList] at this
    rw [hlist]
    exact .keyword hkind
  unfold keywordOrIdentifier
  split
  · next h => exact hkeyword .kwElse rfl h
  split
  · next h => exact hkeyword .kwIf rfl h
  split
  · next h => exact hkeyword .kwInt rfl h
  split
  · next h => exact hkeyword .kwReturn rfl h
  split
  · next h => exact hkeyword .kwVoid rfl h
  split
  · next h => exact hkeyword .kwWhile rfl h
  apply Spelling.identifier hne hletters
  intro kind hkind htext
  have hspelled : String.ofList text = tokenKindSpelling kind := by
    rw [htext, TokenKind.spelling, String.ofList_toList]
  cases kind <;> contradiction

theorem keywordOrIdentifier_isWord (text : String) :
    (keywordOrIdentifier text).isWord = true := by
  unfold keywordOrIdentifier
  repeat' split
  all_goals rfl

theorem symbol_not_word {kind : TokenKind} (h : kind.isSymbol = true) :
    kind.isWord = false := by
  cases kind <;> first | exact absurd h (by decide) | rfl

theorem Spelling.word_kind {text : List Char} {kind : TokenKind} (h : Spelling text kind)
    (hword : kind.isWord = true) : keywordOrIdentifier (String.ofList text) = kind := by
  cases h with
  | keyword h => cases kind <;> first | exact absurd h (by decide) | decide
  | identifier hne hletters hother =>
      have hspelled := spelling_word hne hletters
      have hfound := keywordOrIdentifier_isWord (String.ofList text)
      generalize keywordOrIdentifier (String.ofList text) = found at hspelled hfound
      cases hspelled with
      | keyword h => exact absurd rfl (hother _ h)
      | identifier _ _ _ => rfl
      | number _ _ => cases hfound
      | symbol h =>
          rw [symbol_not_word h] at hfound
          cases hfound
  | number _ _ => cases hword
  | symbol h =>
      rw [symbol_not_word h] at hword
      cases hword

/-! Where a lexeme ends: the next character does not continue it. -/

def continues : TokenKind → Char → Bool
  | .number, c => isDigit c
  | .less, c | .greater, c | .assign, c => c = '='
  | .slash, c => c = '*'
  | kind, c => kind.isWord && isLetter c

def Boundary (kind : TokenKind) (rest : List Char) : Prop :=
  ∀ c, rest.head? = some c → continues kind c = false

theorem continues_word {kind : TokenKind} (h : kind.isWord = true) (c : Char) :
    continues kind c = isLetter c := by
  cases kind <;> first | exact absurd h (by decide) | rfl

/-- A prefix all of whose characters pass a test ends where the test first fails. -/
theorem length_le_of_boundary {text rest other : List Char} {test : Char → Bool}
    (hother : ∀ c ∈ other, test c = true) (hstarts : other <+: text ++ rest)
    (hrest : ∀ c, rest.head? = some c → test c = false) : other.length ≤ text.length := by
  rcases List.prefix_or_prefix_of_prefix hstarts (List.prefix_append text rest) with h | h
  · exact h.length_le
  · obtain ⟨more, rfl⟩ := h
    rw [List.prefix_append_right_inj] at hstarts
    cases more with
    | nil => simp
    | cons c more =>
        obtain ⟨tail, rfl⟩ := hstarts
        have htest := hrest c rfl
        rw [hother c (by simp)] at htest
        cases htest

theorem symbol_length {kind : TokenKind} (h : kind.isSymbol = true) :
    kind.spelling.length ≤ 2 := by
  cases kind <;> first | exact absurd h (by decide) | decide

theorem symbol_two {kind : TokenKind} {c d : Char} {more : List Char}
    (h : kind.isSymbol = true) (hspell : kind.spelling = c :: d :: more) :
    d = '=' ∧ (c = '<' ∨ c = '>' ∨ c = '=' ∨ c = '!') := by
  cases kind <;>
    first
    | exact absurd h (by decide)
    | (simp only [TokenKind.spelling, tokenKindSpelling] at hspell
       simp at hspell
       done)
    | (simp only [TokenKind.spelling, tokenKindSpelling] at hspell
       simp at hspell
       simp [← hspell.1, ← hspell.2.1])

theorem continues_of_two {kind : TokenKind} {c : Char} (h : kind.isSymbol = true)
    (hspell : kind.spelling = [c]) (hc : c = '<' ∨ c = '>' ∨ c = '=' ∨ c = '!') :
    continues kind '=' = true := by
  cases kind <;>
    first
    | exact absurd h (by decide)
    | rfl
    | (simp only [TokenKind.spelling, tokenKindSpelling] at hspell
       simp at hspell
       done)
    | (simp only [TokenKind.spelling, tokenKindSpelling] at hspell
       simp at hspell
       simp [← hspell] at hc)

theorem slash_of_head {kind : TokenKind} {more : List Char} (h : kind.isSymbol = true)
    (hspell : kind.spelling = '/' :: more) : kind = .slash ∧ more = [] := by
  cases kind <;>
    first
    | exact absurd h (by decide)
    | (simp only [TokenKind.spelling, tokenKindSpelling] at hspell
       simp at hspell
       done)
    | (simp only [TokenKind.spelling, tokenKindSpelling] at hspell
       simp at hspell
       simp [hspell])

theorem longest_of_boundary {text rest : List Char} {kind : TokenKind}
    (h : Spelling text kind) (hrest : Boundary kind rest) :
    Longest text kind (text ++ rest) := by
  obtain ⟨c, text, rfl⟩ := List.exists_cons_of_ne_nil h.ne_nil
  have hhead : ∀ {other : List Char} {kind' : TokenKind}, Spelling other kind' →
      other <+: c :: text ++ rest → ∃ more, other = c :: more := by
    intro other kind' hother hstarts
    obtain ⟨d, more, rfl⟩ := List.exists_cons_of_ne_nil hother.ne_nil
    obtain ⟨tail, htail⟩ := hstarts
    simp only [List.cons_append, List.cons.injEq] at htail
    exact ⟨more, by rw [htail.1]⟩
  by_cases hletter : isLetter c = true
  · obtain ⟨hword, hall⟩ := h.of_letter hletter
    refine ⟨h, List.prefix_append _ _, fun other kind' hother hstarts => ?_, ?_⟩
    · obtain ⟨more, rfl⟩ := hhead hother hstarts
      apply length_le_of_boundary (hother.of_letter hletter).2 hstarts
      intro d hd
      rw [← continues_word hword]
      exact hrest d hd
    · intro hcomment
      rw [List.cons_append, List.cons_prefix_cons] at hcomment
      rw [← hcomment.1] at hletter
      cases hletter
  have hletter : isLetter c = false := by simpa using hletter
  by_cases hdigit : isDigit c = true
  · obtain ⟨rfl, hall⟩ := h.of_digit hdigit
    refine ⟨h, List.prefix_append _ _, fun other kind' hother hstarts => ?_, ?_⟩
    · obtain ⟨more, rfl⟩ := hhead hother hstarts
      exact length_le_of_boundary (hother.of_digit hdigit).2 hstarts hrest
    · intro hcomment
      rw [List.cons_append, List.cons_prefix_cons] at hcomment
      rw [← hcomment.1] at hdigit
      cases hdigit
  have hdigit : isDigit c = false := by simpa using hdigit
  obtain ⟨hsymbol, hspell⟩ := h.of_other hletter hdigit
  refine ⟨h, List.prefix_append _ _, fun other kind' hother hstarts => ?_, ?_⟩
  · obtain ⟨more, rfl⟩ := hhead hother hstarts
    obtain ⟨hsymbol', hspell'⟩ := hother.of_other hletter hdigit
    have hlength := symbol_length hsymbol'
    rw [← hspell'] at hlength
    cases text with
    | cons d text =>
        simp only [List.length_cons] at hlength ⊢
        omega
    | nil =>
        cases more with
        | nil => simp
        | cons d more =>
            -- a symbol of two characters would continue the one at hand
            obtain ⟨rfl, hc⟩ := symbol_two hsymbol' hspell'.symm
            obtain ⟨tail, rfl⟩ : ∃ tail, rest = '=' :: tail := by
              obtain ⟨tail, htail⟩ := hstarts
              simp only [List.cons_append, List.nil_append, List.cons.injEq, true_and] at htail
              exact ⟨more ++ tail, htail.symm⟩
            have hcontinues := hrest '=' rfl
            rw [continues_of_two hsymbol hspell.symm hc] at hcontinues
            cases hcontinues
  · intro hcomment
    rw [List.cons_append, List.cons_prefix_cons] at hcomment
    obtain ⟨rfl, hstar⟩ := hcomment
    obtain ⟨rfl, rfl⟩ := slash_of_head hsymbol hspell.symm
    obtain ⟨tail, rfl⟩ := hstar
    have hcontinues := hrest '*' rfl
    cases hcontinues

end Lexer

end CMinus
