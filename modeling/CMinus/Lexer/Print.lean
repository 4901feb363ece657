import CMinus.Lexer.Scan

namespace CMinus

namespace Lexer

/-! Printing: valid lexemes, and a separator behind each. -/

structure Lexeme where
  kind : TokenKind
  text : List Char
  spelling : Spelling text kind
  fits : kind = .number → fitsLongLong text = true

/-- Kind, lexeme and value. -/
abbrev Key := TokenKind × String × Int

def keyOf (tok : Token) : Key := (tok.kind, tok.lexeme, tok.value)

def Lexeme.key (lexeme : Lexeme) : Key :=
  (lexeme.kind, String.ofList lexeme.text,
    if lexeme.kind = .number then (decimalValue lexeme.text : Nat) else 0)

def endKey : Key := (.endOfFile, "", 0)

abbrev Item := Lexeme × List Char

def printed (items : List Item) : List Char :=
  items.flatMap fun item => item.1.text ++ item.2

def expected (items : List Item) : List Key :=
  items.map (fun item => item.1.key) ++ [endKey]

@[simp] theorem printed_nil : printed [] = [] := rfl

@[simp] theorem printed_cons (a : Lexeme) (sep : List Char) (items : List Item) :
    printed ((a, sep) :: items) = a.text ++ (sep ++ printed items) := by
  simp [printed]

@[simp] theorem expected_cons (a : Lexeme) (sep : List Char) (items : List Item) :
    expected ((a, sep) :: items) = a.key :: expected items := rfl

/-- Neighbours that must be kept apart. -/
def merges : TokenKind → TokenKind → Bool
  | .number, .number => true
  | .less, .assign | .less, .equalEqual | .greater, .assign | .greater, .equalEqual
  | .assign, .assign | .assign, .equalEqual => true
  | .slash, .star => true
  | first, second => first.isWord && second.isWord

/-- Every separator is a gap, and none is empty between neighbours that merge. -/
def Separated : List Item → Prop
  | [] => True
  | [(_, sep)] => Gap sep
  | (a, sep) :: (b, sep') :: items =>
      Gap sep ∧ (sep = [] → merges a.kind b.kind = false) ∧ Separated ((b, sep') :: items)

theorem Separated.gap {a : Lexeme} {sep : List Char} {items : List Item}
    (h : Separated ((a, sep) :: items)) : Gap sep := by
  cases items with
  | nil => exact h
  | cons item items => exact h.1

theorem Separated.tail {item : Item} {items : List Item}
    (h : Separated (item :: items)) : Separated items := by
  cases items with
  | nil => trivial
  | cons item items => exact h.2.2

/-! The neighbours that merge are those where the second continues the first. -/

theorem merges_word {first second : TokenKind} (h : second.isWord = true) :
    merges first second = first.isWord := by
  cases second <;>
    first
    | exact absurd h (by decide)
    | (cases first <;> rfl)

theorem continues_letter {c : Char} (kind : TokenKind) (h : isLetter c = true) :
    continues kind c = kind.isWord := by
  have hdigit : isDigit c = false := by
    cases hd : isDigit c with
    | false => rfl
    | true => exact absurd (digit_not_letter hd) (by simp [h])
  have hequal : c ≠ '=' := by
    rintro rfl
    cases h
  have hstar : c ≠ '*' := by
    rintro rfl
    cases h
  cases kind <;> simp [continues, TokenKind.isWord, TokenKind.isKeyword, *]

theorem continues_digit {c : Char} (kind : TokenKind) (h : isDigit c = true) :
    continues kind c = merges kind .number := by
  have hletter := digit_not_letter h
  have hequal : c ≠ '=' := by
    rintro rfl
    cases h
  have hstar : c ≠ '*' := by
    rintro rfl
    cases h
  cases kind <;> simp [continues, merges, TokenKind.isWord, TokenKind.isKeyword, *]

theorem continues_symbol {c : Char} {rest : List Char} {second : TokenKind}
    (first : TokenKind) (h : second.isSymbol = true) (hspell : second.spelling = c :: rest) :
    continues first c = merges first second := by
  have hhead : second.spelling.head? = some c := by rw [hspell]; rfl
  cases second <;>
    first
    | exact absurd h (by decide)
    | (cases hhead
       cases first <;> rfl)

theorem continues_head (kind : TokenKind) (b : Lexeme) {c : Char} {rest : List Char}
    (hb : b.text = c :: rest) : continues kind c = merges kind b.kind := by
  have hspell := b.spelling
  rw [hb] at hspell
  by_cases hletter : isLetter c = true
  · rw [continues_letter kind hletter, merges_word (hspell.of_letter hletter).1]
  have hletter : isLetter c = false := by simpa using hletter
  by_cases hdigit : isDigit c = true
  · rw [continues_digit kind hdigit, (hspell.of_digit hdigit).1]
  · obtain ⟨hsymbol, htext⟩ := hspell.of_other hletter (by simpa using hdigit)
    exact continues_symbol kind hsymbol htext.symm

theorem gap_head {gap : List Char} (h : Gap gap) :
    gap = [] ∨ ∃ c rest, gap = c :: rest ∧ ∀ kind, continues kind c = false := by
  have hkind : ∀ {c : Char}, isLetter c = false → isDigit c = false → c ≠ '=' → c ≠ '*' →
      ∀ kind, continues kind c = false := by
    intro c hletter hdigit hequal hstar kind
    cases kind <;> simp [continues, TokenKind.isWord, TokenKind.isKeyword, *]
  cases h with
  | nil => exact .inl rfl
  | @space c gap hc _ =>
      obtain ⟨hletter, hdigit⟩ := space_not_letter hc
      refine .inr ⟨c, gap, rfl, hkind hletter hdigit ?_ ?_⟩
      · rintro rfl
        cases hc
      · rintro rfl
        cases hc
  | comment hcomment _ =>
      cases hcomment
      exact .inr ⟨'/', _, rfl, hkind rfl rfl (by decide) (by decide)⟩

theorem Separated.boundary {a : Lexeme} {sep : List Char} {items : List Item}
    (h : Separated ((a, sep) :: items)) : Boundary a.kind (sep ++ printed items) := by
  rcases gap_head h.gap with rfl | ⟨c, rest, rfl, hc⟩
  · cases items with
    | nil =>
        intro c hc
        cases hc
    | cons item items =>
        obtain ⟨b, sep'⟩ := item
        obtain ⟨c, rest, hb⟩ := List.exists_cons_of_ne_nil b.spelling.ne_nil
        intro d hd
        rw [List.nil_append, printed_cons, hb] at hd
        cases hd
        rw [continues_head a.kind b hb]
        exact h.2.1 rfl
  · intro d hd
    cases hd
    exact hc a.kind

/-! Scanning what has been printed. -/

theorem tokenFor_key (a : Lexeme) (loc : SourceLocation) :
    keyOf (tokenFor a.kind loc a.text) = a.key := by
  by_cases hkind : a.kind = .number
  · simp [keyOf, tokenFor, Lexeme.key, hkind, a.fits hkind]
  · simp [keyOf, tokenFor, Lexeme.key, hkind]

theorem errorsFor_fits (a : Lexeme) (loc : SourceLocation) :
    errorsFor a.kind loc a.text = [] := by
  by_cases hkind : a.kind = .number
  · simp [errorsFor, hkind, a.fits hkind]
  · simp [errorsFor, hkind]

theorem next_lexeme {gap rest : List Char} (hgap : Gap gap) (a : Lexeme)
    (hrest : Boundary a.kind rest) (loc : SourceLocation) (diags : Diagnostics) :
    Lexer.next { source := gap ++ (a.text ++ rest), loc := loc, diags := diags } =
      (tokenFor a.kind (pastAll loc gap) a.text,
        { source := rest, loc := pastAll loc (gap ++ a.text), diags := diags }) := by
  rw [next, run_gap hgap, run_token a.spelling hrest, errorsFor_fits, List.append_nil,
    pastAll_append]

theorem next_end {gap : List Char} (hgap : Gap gap) (loc : SourceLocation)
    (diags : Diagnostics) :
    Lexer.next { source := gap, loc := loc, diags := diags } =
      ({ kind := .endOfFile, loc := pastAll loc gap },
        { source := [], loc := pastAll loc gap, diags := diags }) := by
  have hrun : nextFrom .start loc [] loc diags (gap ++ []) = _ := run_gap hgap
  rw [List.append_nil] at hrun
  exact hrun

theorem tokenizeFrom_printed {items : List Item} (h : Separated items) (limit : Nat)
    (gap : List Char) (hgap : Gap gap) (loc : SourceLocation) (diags : Diagnostics)
    (hlimit : (gap ++ printed items).length < limit) :
    ∃ tokens lx, tokenizeFrom limit
        { source := gap ++ printed items, loc := loc, diags := diags } = (tokens, lx) ∧
      lx.diags = diags ∧ tokens.map keyOf = expected items := by
  induction items generalizing limit gap loc with
  | nil =>
      obtain ⟨limit, rfl⟩ : ∃ m, limit = m + 1 := ⟨limit - 1, by omega⟩
      refine ⟨[{ kind := .endOfFile, loc := pastAll loc gap }],
        { source := [], loc := pastAll loc gap, diags := diags }, ?_, rfl, rfl⟩
      rw [printed_nil, List.append_nil]
      simp only [tokenizeFrom, next_end hgap, Token.is, decide_true, if_true]
  | cons item items ih =>
      obtain ⟨a, sep⟩ := item
      obtain ⟨limit, rfl⟩ : ∃ m, limit = m + 1 := ⟨limit - 1, by omega⟩
      have hlength := List.length_pos_iff.mpr a.spelling.ne_nil
      rw [printed_cons] at hlimit
      simp only [List.length_append] at hlimit
      obtain ⟨tokens, lx, hrun, hdiags, hkeys⟩ :=
        ih h.tail limit sep h.gap (pastAll loc (gap ++ a.text))
          (by rw [List.length_append]; omega)
      refine ⟨tokenFor a.kind (pastAll loc gap) a.text :: tokens, lx, ?_, hdiags, ?_⟩
      · rw [printed_cons, tokenizeFrom_step (next_lexeme hgap a h.boundary loc diags)
          a.spelling.ne_endOfFile, hrun]
      · rw [List.map_cons, tokenFor_key, hkeys, expected_cons]

/-! A merging pair other than `/` and `*` makes one longer lexeme. -/

theorem merges_cases {first second : TokenKind} (h : merges first second = true) :
    (first = .number ∧ second = .number) ∨ (first.isWord = true ∧ second.isWord = true) ∨
      (first = .slash ∧ second = .star) ∨
      ((first = .less ∨ first = .greater ∨ first = .assign) ∧
        (second = .assign ∨ second = .equalEqual)) := by
  unfold merges at h
  split at h <;> simp_all

theorem Spelling.letters {text : List Char} {kind : TokenKind} (h : Spelling text kind)
    (hword : kind.isWord = true) : ∀ c ∈ text, isLetter c = true := by
  obtain ⟨c, text, rfl⟩ := List.exists_cons_of_ne_nil h.ne_nil
  by_cases hletter : isLetter c = true
  · exact (h.of_letter hletter).2
  have hletter : isLetter c = false := by simpa using hletter
  by_cases hdigit : isDigit c = true
  · rw [(h.of_digit hdigit).1] at hword
    cases hword
  · rw [symbol_not_word (h.of_other hletter (by simpa using hdigit)).1] at hword
    cases hword

theorem Spelling.symbol_text {text : List Char} {kind : TokenKind} (h : Spelling text kind)
    (hsymbol : kind.isSymbol = true) : text = kind.spelling := by
  cases h with
  | keyword h => cases kind <;> first | exact absurd h (by decide) | cases hsymbol
  | identifier _ _ _ => cases hsymbol
  | number _ _ => cases hsymbol
  | symbol _ => rfl

theorem Spelling.digits {text : List Char} (h : Spelling text .number) :
    ∀ c ∈ text, isDigit c = true := by
  cases h with
  | keyword h => cases h
  | number _ h => exact h
  | symbol h => cases h

theorem longer_lexeme {a b : Lexeme} (h : merges a.kind b.kind = true)
    (ha : a.kind ≠ .slash) (rest : List Char) :
    ∃ longer kind, Spelling longer kind ∧ longer <+: a.text ++ (b.text ++ rest) ∧
      a.text.length < longer.length := by
  have hb := List.length_pos_iff.mpr b.spelling.ne_nil
  have hne : a.text ++ b.text ≠ [] := by simp [a.spelling.ne_nil]
  have hjoined : a.text ++ b.text <+: a.text ++ (b.text ++ rest) :=
    ⟨rest, List.append_assoc _ _ _⟩
  have hlength : a.text.length < (a.text ++ b.text).length := by
    rw [List.length_append]
    omega
  rcases merges_cases h with ⟨hka, hkb⟩ | ⟨hka, hkb⟩ | ⟨hka, -⟩ | ⟨hka, hkb⟩
  · refine ⟨a.text ++ b.text, .number, .number hne ?_, hjoined, hlength⟩
    intro c hc
    rcases List.mem_append.mp hc with hc | hc
    · exact Spelling.digits (hka ▸ a.spelling) c hc
    · exact Spelling.digits (hkb ▸ b.spelling) c hc
  · refine ⟨a.text ++ b.text, _, spelling_word hne ?_, hjoined, hlength⟩
    intro c hc
    rcases List.mem_append.mp hc with hc | hc
    · exact a.spelling.letters hka c hc
    · exact b.spelling.letters hkb c hc
  · exact absurd hka ha
  · obtain ⟨more, hbtext⟩ : ∃ more, b.text = '=' :: more := by
      rcases hkb with hkb | hkb
      · exact ⟨[], Spelling.symbol_text (hkb ▸ b.spelling) rfl⟩
      · exact ⟨['='], Spelling.symbol_text (hkb ▸ b.spelling) rfl⟩
    rw [hbtext]
    rcases hka with hka | hka | hka
    · have hatext : a.text = TokenKind.less.spelling :=
        Spelling.symbol_text (hka ▸ a.spelling) rfl
      rw [hatext]
      exact ⟨TokenKind.lessEqual.spelling, _, .symbol rfl, ⟨more ++ rest, rfl⟩, by decide⟩
    · have hatext : a.text = TokenKind.greater.spelling :=
        Spelling.symbol_text (hka ▸ a.spelling) rfl
      rw [hatext]
      exact ⟨TokenKind.greaterEqual.spelling, _, .symbol rfl, ⟨more ++ rest, rfl⟩, by decide⟩
    · have hatext : a.text = TokenKind.assign.spelling :=
        Spelling.symbol_text (hka ▸ a.spelling) rfl
      rw [hatext]
      exact ⟨TokenKind.equalEqual.spelling, _, .symbol rfl, ⟨more ++ rest, rfl⟩, by decide⟩

theorem next_merged {gap : List Char} (hgap : Gap gap) {a b : Lexeme}
    (h : merges a.kind b.kind = true) (ha : a.kind ≠ .slash) (rest : List Char)
    (loc : SourceLocation) (diags : Diagnostics) :
    ∃ tok lx, Lexer.next
        { source := gap ++ (a.text ++ (b.text ++ rest)), loc := loc, diags := diags } =
        (tok, lx) ∧ keyOf tok ≠ a.key := by
  obtain ⟨longer, kind', hlonger, hstarts, hlength⟩ := longer_lexeme h ha rest
  obtain ⟨c, text, htext⟩ := List.exists_cons_of_ne_nil a.spelling.ne_nil
  generalize hsource : b.text ++ rest = source at hstarts
  have hspell := a.spelling
  rw [htext] at hspell hstarts hlength ⊢
  have hcomment : ¬ ['/', '*'] <+: c :: (text ++ source) := by
    intro hcomment
    rw [List.cons_prefix_cons] at hcomment
    obtain ⟨rfl, -⟩ := hcomment
    obtain ⟨hsymbol, hspelled⟩ := hspell.of_other rfl rfl
    exact ha (slash_of_head hsymbol hspelled.symm).1
  rcases lexeme_split hcomment with ⟨word, tail, kind, heq, hword, hend⟩ | ⟨rfl, hne⟩ |
      ⟨hnone, -⟩
  · refine ⟨tokenFor kind (pastAll loc gap) word,
      { source := tail, loc := pastAll (pastAll loc gap) word,
        diags := diags ++ errorsFor kind (pastAll loc gap) word }, ?_, ?_⟩
    · rw [next, run_gap hgap, List.cons_append, heq, run_token hword hend]
    · intro hkey
      have hlongest := (longest_of_boundary hword hend).longest longer kind' hlonger
        (heq ▸ hstarts)
      have hlexeme : String.ofList word = String.ofList a.text :=
        congrArg (fun key : Key => key.2.1) hkey
      have hsame : word = a.text := by
        have := congrArg String.toList hlexeme
        rwa [String.toList_ofList, String.toList_ofList] at this
      rw [hsame, htext] at hlongest
      omega
  · -- a longer lexeme at `!` is `!=`
    obtain ⟨d, more, rfl⟩ : ∃ d more, longer = '!' :: d :: more := by
      obtain ⟨tail, htail⟩ := hstarts
      cases longer with
      | nil => simp at hlength
      | cons first longer =>
          cases longer with
          | nil => simp at hlength
          | cons d more =>
              simp only [List.cons_append, List.cons.injEq] at htail
              exact ⟨d, more, by rw [htail.1]⟩
    obtain ⟨hsymbol, hspelled⟩ := hlonger.of_other rfl rfl
    obtain ⟨rfl, -⟩ := symbol_two hsymbol hspelled.symm
    obtain ⟨tail, htail⟩ := hstarts
    simp only [List.cons_append, List.cons.injEq, true_and] at htail
    rw [← htail] at hne
    exact absurd rfl hne
  · exact absurd rfl (hnone _ _ hspell)

/-! `/` and `*` without a separator open a comment.  `afterClose` is what follows the
first `*/`. -/

def afterClose : List Char → Option (List Char)
  | [] => none
  | c :: source =>
      if c = '*' ∧ source.head? = some '/' then some source.tail else afterClose source

theorem afterClose_body {body rest : List Char} (h : ¬ ['*', '/'] <:+: body ++ ['*']) :
    afterClose (body ++ '*' :: '/' :: rest) = some rest := by
  induction body with
  | nil => rfl
  | cons c body ih =>
      have hskip : ¬(c = '*' ∧ (body ++ '*' :: '/' :: rest).head? = some '/') := by
        rintro ⟨rfl, hhead⟩
        cases body with
        | nil => cases hhead
        | cons d body =>
            cases hhead
            exact h (List.IsPrefix.isInfix ⟨body ++ ['*'], rfl⟩)
      rw [List.cons_append, afterClose, if_neg hskip]
      exact ih (not_infix_tail h)

theorem afterClose_skip {text rest : List Char} (h : ∀ c ∈ text, c ≠ '*') :
    afterClose (text ++ rest) = afterClose rest := by
  induction text with
  | nil => rfl
  | cons c text ih =>
      have hskip : ¬(c = '*' ∧ (text ++ rest).head? = some '/') :=
        fun hc => h c (by simp) hc.1
      rw [List.cons_append, afterClose, if_neg hskip]
      exact ih fun d hd => h d (by simp [hd])

/-- A gap none of whose comments begins with `/*/`. -/
inductive PlainGap : List Char → Prop
  | nil : PlainGap []
  | space {c : Char} {gap : List Char} : isSpace c = true → PlainGap gap →
      PlainGap (c :: gap)
  | comment {text gap : List Char} : Comment text → ¬ ['/', '*', '/'] <+: text →
      PlainGap gap → PlainGap (text ++ gap)

theorem PlainGap.gap {gap : List Char} (h : PlainGap gap) : Gap gap := by
  induction h with
  | nil => exact .nil
  | space hc _ ih => exact .space hc ih
  | comment hcomment _ _ ih => exact .comment hcomment ih

theorem Spelling.no_star {text : List Char} {kind : TokenKind} (h : Spelling text kind)
    (hkind : kind ≠ .star) : ∀ c ∈ text, c ≠ '*' := by
  have htest : ∀ {test : Char → Bool}, test '*' = false → (∀ c ∈ text, test c = true) →
      ∀ c ∈ text, c ≠ '*' := by
    rintro test hstar hall c hc rfl
    rw [hall _ hc] at hstar
    cases hstar
  cases h with
  | keyword h => exact htest rfl (keyword_letters h).2
  | identifier _ h _ => exact htest rfl h
  | number _ h => exact htest rfl h
  | symbol h =>
      have hall : kind.spelling.all (fun c => c != '*') = true := by
        cases kind <;>
          first
          | exact absurd h (by decide)
          | exact absurd rfl hkind
          | decide
      exact htest rfl (List.all_eq_true.mp hall)

theorem afterClose_comment {body rest : List Char} (h : ¬ ['*', '/'] <:+: body ++ ['*'])
    (hplain : ¬ ['/', '*', '/'] <+: '/' :: '*' :: (body ++ ['*', '/'])) :
    afterClose ('/' :: '*' :: (body ++ '*' :: '/' :: rest)) = some rest := by
  have hstar : ¬(('*' : Char) = '*' ∧ (body ++ '*' :: '/' :: rest).head? = some '/') := by
    rintro ⟨-, hhead⟩
    cases body with
    | nil => cases hhead
    | cons c body =>
        cases hhead
        exact hplain ⟨body ++ ['*', '/'], rfl⟩
  rw [afterClose, if_neg (by simp), afterClose, if_neg hstar]
  exact afterClose_body h

theorem afterClose_gap {sep tail rest : List Char} (h : PlainGap sep)
    (hclose : afterClose (sep ++ tail) = some rest) :
    (∃ gap, rest = gap ++ tail ∧ Gap gap) ∨ afterClose tail = some rest := by
  induction h with
  | nil => exact .inr hclose
  | @space c gap hc _ ih =>
      have hstar : ∀ d ∈ [c], d ≠ '*' := by
        intro d hd
        rw [List.mem_singleton.mp hd]
        rintro rfl
        cases hc
      apply ih
      rw [← hclose]
      exact (afterClose_skip hstar).symm
  | @comment text gap hcomment hplain hgap _ =>
      cases hcomment with
      | @mk body hbody =>
          have hsource : '/' :: '*' :: (body ++ ['*', '/']) ++ gap ++ tail =
              '/' :: '*' :: (body ++ '*' :: '/' :: (gap ++ tail)) := by simp
          rw [hsource, afterClose_comment hbody hplain] at hclose
          exact .inl ⟨gap, (Option.some.inj hclose).symm, hgap.gap⟩

/-- What a `*` closes with the character behind it: a `/` token, or the start of a
comment. -/
theorem star_closes {sep : List Char} {items : List Item} (hsep : PlainGap sep)
    (h : Separated items) (hplain : ∀ item ∈ items, PlainGap item.2)
    (hhead : (sep ++ printed items).head? = some '/') :
    (∃ gap items', (sep ++ printed items).tail = gap ++ printed items' ∧ Gap gap ∧
      Separated items' ∧ items'.length ≤ items.length) ∨
    ∃ rest', (sep ++ printed items).tail = '*' :: rest' := by
  cases hsep with
  | nil =>
      cases items with
      | nil => cases hhead
      | cons item items =>
          obtain ⟨b, sep⟩ := item
          obtain ⟨c, more, hb⟩ := List.exists_cons_of_ne_nil b.spelling.ne_nil
          rw [List.nil_append, printed_cons, hb] at hhead
          cases hhead
          have hspell := b.spelling
          rw [hb] at hspell
          obtain ⟨hsymbol, htext⟩ := hspell.of_other rfl rfl
          obtain ⟨-, rfl⟩ := slash_of_head hsymbol htext.symm
          left
          refine ⟨sep, items, ?_, (hplain (b, sep) (by simp)).gap, h.tail, by simp⟩
          rw [List.nil_append, printed_cons, hb]
          rfl
  | space hc _ =>
      cases hhead
      cases hc
  | comment hcomment _ _ =>
      cases hcomment
      exact .inr ⟨_, rfl⟩

/-- The first `*/` behind an open comment stands at the end of a separator's comment, or
is made of two tokens, or of a `*` and the comment behind it. -/
theorem afterClose_printed {items : List Item} (h : Separated items)
    (hplain : ∀ item ∈ items, PlainGap item.2) {sep rest : List Char} (hsep : PlainGap sep)
    (hclose : afterClose (sep ++ printed items) = some rest) :
    (∃ gap items', rest = gap ++ printed items' ∧ Gap gap ∧ Separated items' ∧
      items'.length ≤ items.length) ∨
    ∃ rest', rest = '*' :: rest' := by
  induction items generalizing sep with
  | nil =>
      rcases afterClose_gap hsep hclose with ⟨gap, rfl, hgap⟩ | hclose
      · exact .inl ⟨gap, [], rfl, hgap, h, by simp⟩
      · cases hclose
  | cons item items ih =>
      rcases afterClose_gap hsep hclose with ⟨gap, rfl, hgap⟩ | hclose
      · exact .inl ⟨gap, item :: items, rfl, hgap, h, by simp⟩
      obtain ⟨a, sep'⟩ := item
      have hsep' : PlainGap sep' := hplain (a, sep') (by simp)
      have hplain' : ∀ item ∈ items, PlainGap item.2 := fun item hitem =>
        hplain item (by simp [hitem])
      have hlonger : ((∃ gap items', rest = gap ++ printed items' ∧ Gap gap ∧
          Separated items' ∧ items'.length ≤ items.length) ∨ ∃ rest', rest = '*' :: rest') →
          (∃ gap items', rest = gap ++ printed items' ∧ Gap gap ∧ Separated items' ∧
            items'.length ≤ ((a, sep') :: items).length) ∨ ∃ rest', rest = '*' :: rest' := by
        rintro (⟨gap, items', heq, hgap, hitems', hle⟩ | hstar)
        · exact .inl ⟨gap, items', heq, hgap, hitems', hle.trans (by simp)⟩
        · exact .inr hstar
      apply hlonger
      rw [printed_cons] at hclose
      by_cases hkind : a.kind = .star
      · have hspell := a.spelling
        rw [hkind] at hspell
        rw [hspell.symbol_text rfl, show TokenKind.star.spelling = ['*'] from rfl,
          List.cons_append, List.nil_append, afterClose] at hclose
        by_cases hhead : (sep' ++ printed items).head? = some '/'
        · rw [if_pos ⟨rfl, hhead⟩] at hclose
          cases hclose
          exact star_closes hsep' h.tail hplain' hhead
        · rw [if_neg fun hc => hhead hc.2] at hclose
          exact ih h.tail hplain' hsep' hclose
      · rw [afterClose_skip (a.spelling.no_star hkind)] at hclose
        exact ih h.tail hplain' hsep' hclose

/-! The result for a merging pair without a separator. -/

@[simp] theorem printed_append (first second : List Item) :
    printed (first ++ second) = printed first ++ printed second := by
  simp [printed]

theorem expected_length (items : List Item) : (expected items).length = items.length + 1 := by
  simp [expected]

theorem tokenizeFrom_head (limit : Nat) (lx : Lexer) :
    (tokenizeFrom (limit + 1) lx).1.head? = some lx.next.1 := by
  rw [tokenizeFrom]
  split <;> rfl

theorem head_differs {limit : Nat} {lx : Lexer} {a : Lexeme} {sep : List Char}
    {items : List Item} (h : keyOf lx.next.1 ≠ a.key) :
    (tokenizeFrom (limit + 1) lx).1.map keyOf ≠ expected ((a, sep) :: items) := by
  intro heq
  have hhead := congrArg List.head? heq
  rw [List.head?_map, tokenizeFrom_head] at hhead
  exact h (Option.some.inj hhead)

theorem slashStar_differs {gap : List Char} (hgap : Gap gap) {a b : Lexeme}
    (ha : a.kind = .slash) (hb : b.kind = .star) {sep : List Char} {after : List Item}
    (hafter : Separated ((b, sep) :: after)) (hsep : PlainGap sep)
    (hplain : ∀ item ∈ after, PlainGap item.2) (limit : Nat) (loc : SourceLocation)
    (diags : Diagnostics)
    (hlimit : (gap ++ printed ((a, []) :: (b, sep) :: after)).length < limit + 1) :
    (tokenizeFrom (limit + 1)
      { source := gap ++ printed ((a, []) :: (b, sep) :: after), loc := loc,
        diags := diags }).1.map keyOf ≠ expected ((a, []) :: (b, sep) :: after) := by
  have hatext : a.text = ['/'] := Spelling.symbol_text (ha ▸ a.spelling) rfl
  have hbtext : b.text = ['*'] := Spelling.symbol_text (hb ▸ b.spelling) rfl
  have hkind : ∀ tok : Token, tok.kind ≠ .slash → keyOf tok ≠ a.key := by
    intro tok htok hkey
    exact htok ((congrArg Prod.fst hkey).trans ha)
  have hsource : printed ((a, []) :: (b, sep) :: after) =
      '/' :: '*' :: (sep ++ printed after) := by
    rw [printed_cons, printed_cons, hatext, hbtext]
    rfl
  rw [hsource] at hlimit ⊢
  rcases comment_split (sep ++ printed after) with hnone | ⟨body, rest, heq, hbody⟩
  · -- the comment runs to the end of the source
    apply head_differs
    apply hkind
    have hopen : nextFrom .inComment (pastAll loc gap) []
        (past (past (pastAll loc gap) '/') '*') diags (sep ++ printed after) = _ :=
      run_open.1 hnone
    have hnext : nextFrom .start loc [] loc diags
        (gap ++ '/' :: '*' :: (sep ++ printed after)) = _ := (run_gap hgap).trans hopen
    rw [next, hnext]
    simp
  · have hclose : afterClose (body ++ '*' :: '/' :: rest) = some rest := afterClose_body hbody
    rw [← heq] at hclose
    have hcomment : Gap (gap ++ '/' :: '*' :: (body ++ ['*', '/'])) := by
      have := Gap.comment (Comment.mk hbody) .nil
      rw [List.append_nil] at this
      exact gap_append hgap this
    have hsplit : gap ++ '/' :: '*' :: (sep ++ printed after) =
        gap ++ '/' :: '*' :: (body ++ ['*', '/']) ++ rest := by
      rw [heq]
      simp
    rw [hsplit] at hlimit ⊢
    rcases afterClose_printed hafter.tail hplain hsep hclose with
        ⟨gap', items', rfl, hgap', hitems', hle⟩ | ⟨rest', rfl⟩
    · -- scanning is back in step, and two tokens have been lost
      obtain ⟨tokens, lx, hrun, -, hkeys⟩ := tokenizeFrom_printed hitems' (limit + 1)
        (gap ++ '/' :: '*' :: (body ++ ['*', '/']) ++ gap') (gap_append hcomment hgap') loc
        diags (by rwa [List.append_assoc])
      rw [← List.append_assoc, hrun]
      intro hsame
      have hlength := congrArg List.length (hkeys.symm.trans hsame)
      rw [expected_length, expected_length] at hlength
      simp only [List.length_cons] at hlength
      omega
    · -- the comment ends inside another one, in front of a `*`
      apply head_differs
      apply hkind
      have hstar : nextFrom .start loc [] loc diags
          (gap ++ '/' :: '*' :: (body ++ ['*', '/']) ++ (['*'] ++ rest')) = _ :=
        (run_gap hcomment).trans
          (run_token (.symbol (show TokenKind.star.isSymbol from rfl)) fun _ _ => rfl)
      have hnext : nextFrom .start loc [] loc diags
          (gap ++ '/' :: '*' :: (body ++ ['*', '/']) ++ '*' :: rest') = _ := hstar
      rw [next, hnext]
      simp [tokenFor]

theorem boundary_append {kind : TokenKind} {first : List Char} (h : Boundary kind first)
    (hne : first ≠ []) (second : List Char) : Boundary kind (first ++ second) := by
  obtain ⟨c, first, rfl⟩ := List.exists_cons_of_ne_nil hne
  exact fun d hd => h d hd

theorem merged_differs {before after : List Item} {a b : Lexeme} {sep : List Char}
    (hbefore : Separated (before ++ [(a, [])])) (h : merges a.kind b.kind = true)
    (hafter : a.kind = .slash → Separated ((b, sep) :: after) ∧ PlainGap sep ∧
      ∀ item ∈ after, PlainGap item.2) (limit : Nat) (gap : List Char) (hgap : Gap gap)
    (loc : SourceLocation) (diags : Diagnostics)
    (hlimit : (gap ++ printed (before ++ (a, []) :: (b, sep) :: after)).length < limit) :
    (tokenizeFrom limit
      { source := gap ++ printed (before ++ (a, []) :: (b, sep) :: after), loc := loc,
        diags := diags }).1.map keyOf ≠ expected (before ++ (a, []) :: (b, sep) :: after) := by
  induction before generalizing limit gap loc with
  | nil =>
      obtain ⟨limit, rfl⟩ : ∃ m, limit = m + 1 := ⟨limit - 1, by omega⟩
      by_cases ha : a.kind = .slash
      · have hb : b.kind = .star := by
          rcases merges_cases h with ⟨hk, -⟩ | ⟨hk, -⟩ | ⟨-, hk⟩ | ⟨hk, -⟩
          · rw [ha] at hk
            cases hk
          · rw [ha] at hk
            cases hk
          · exact hk
          · rw [ha] at hk
            simp at hk
        obtain ⟨hafter, hsep, hplain⟩ := hafter ha
        exact slashStar_differs hgap ha hb hafter hsep hplain limit loc diags hlimit
      · apply head_differs
        obtain ⟨tok, lx, hnext, hkey⟩ :=
          next_merged hgap h ha (sep ++ printed after) loc diags
        rw [List.nil_append, printed_cons, printed_cons, List.nil_append, hnext]
        exact hkey
  | cons item before ih =>
      obtain ⟨x, sepx⟩ := item
      obtain ⟨limit, rfl⟩ : ∃ m, limit = m + 1 := ⟨limit - 1, by omega⟩
      have hbound : Boundary x.kind
          (sepx ++ printed (before ++ (a, []) :: (b, sep) :: after)) := by
        have hfirst := hbefore.boundary
        have hne : sepx ++ printed (before ++ [(a, [])]) ≠ [] := by
          simp [a.spelling.ne_nil]
        have := boundary_append hfirst hne (b.text ++ (sep ++ printed after))
        simpa using this
      have hlength := List.length_pos_iff.mpr x.spelling.ne_nil
      rw [List.cons_append, printed_cons] at hlimit
      simp only [List.length_append] at hlimit
      have hrest := ih hbefore.tail limit sepx hbefore.gap (pastAll loc (gap ++ x.text))
        (by rw [List.length_append]; omega)
      rw [List.cons_append, printed_cons, expected_cons,
        tokenizeFrom_step (next_lexeme hgap x hbound loc diags) x.spelling.ne_endOfFile]
      intro hsame
      exact hrest (List.cons.inj hsame).2

def symbolLexeme (kind : TokenKind) (h : kind.isSymbol = true) : Lexeme where
  kind := kind
  text := kind.spelling
  spelling := .symbol h
  fits := by
    rintro rfl
    cases h

theorem tokenize_printed :
    (∀ (gap : List Char) (items : List Item) (diags : Diagnostics), Gap gap →
      Separated items →
      ∃ tokens lx, tokenize { source := gap ++ printed items, diags := diags } =
          (tokens, lx) ∧
        lx.diags = diags ∧ tokens.map keyOf = expected items) ∧
    ∀ (gap : List Char) (before after : List Item) (a b : Lexeme) (sep : List Char)
      (diags : Diagnostics), Gap gap → Separated (before ++ [(a, [])]) →
      merges a.kind b.kind = true →
      (a.kind = .slash → Separated ((b, sep) :: after) ∧ PlainGap sep ∧
        ∀ item ∈ after, PlainGap item.2) →
      (tokenize { source := gap ++ printed (before ++ (a, []) :: (b, sep) :: after),
                  diags := diags }).1.map keyOf ≠
        expected (before ++ (a, []) :: (b, sep) :: after) := by
  constructor
  · intro gap items diags hgap hitems
    exact tokenizeFrom_printed hitems _ gap hgap _ diags (Nat.lt_succ_self _)
  · intro gap before after a b sep diags hgap hbefore h hafter
    exact merged_differs hbefore h hafter _ gap hgap _ diags (Nat.lt_succ_self _)

theorem tokenize_printed_lessAssign :
    let less := symbolLexeme .less rfl
    let assign := symbolLexeme .assign rfl
    (∃ tokens lx, tokenize { source := [] ++ printed [(less, [' ']), (assign, [])] } =
        (tokens, lx) ∧
      lx.diags = [] ∧ tokens.map keyOf = expected [(less, [' ']), (assign, [])]) ∧
    (tokenize { source := [] ++ printed ([] ++ (less, []) :: (assign, []) :: []) }).1.map
      keyOf ≠ expected ([] ++ (less, []) :: (assign, []) :: []) :=
  ⟨tokenize_printed.1 [] _ [] .nil ⟨.space rfl .nil, by simp, .nil⟩,
    tokenize_printed.2 [] [] [] _ _ [] [] .nil .nil rfl (by simp [symbolLexeme])⟩

/-! Behind `/` and `*` a comment that begins with `/*/` can give both tokens back. -/

theorem tokenize_slashStar_restored :
    let sep := "/*/ / * /*//**/".toList
    let items := [(symbolLexeme .slash rfl, []), (symbolLexeme .star rfl, sep)]
    Gap sep ∧ merges .slash .star = true ∧
      (tokenize { source := printed items }).1.map keyOf = expected items ∧
      (tokenize { source := printed items }).2.diags = [] := by
  refine ⟨?_, rfl, by decide +kernel, by decide +kernel⟩
  have hfirst : Comment "/*/ / * /*/".toList :=
    .mk (show ¬ ['*', '/'] <:+: "/ / * /".toList ++ ['*'] by decide)
  have hsecond : Comment "/**/".toList := .mk (show ¬ ['*', '/'] <:+: [] ++ ['*'] by decide)
  exact .comment hfirst (.comment hsecond .nil)

end Lexer

end CMinus
