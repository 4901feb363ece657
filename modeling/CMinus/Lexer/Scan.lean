import CMinus.Lexer.Spelling

namespace CMinus

namespace Lexer

/-! Runs of `next` over a gap and over a lexeme. -/

section Runs

variable {start : SourceLocation} {text : List Char} {loc : SourceLocation}
  {diags : Diagnostics}

theorem run_start (start' : SourceLocation) (text' : List Char) (source : List Char) :
    nextFrom .start start text loc diags source =
      nextFrom .start start' text' loc diags source := by
  cases source <;> rfl

theorem space_not_letter {c : Char} (h : isSpace c = true) :
    isLetter c = false ∧ isDigit c = false := by
  simp only [isSpace, Bool.or_eq_true, decide_eq_true_eq] at h
  rcases h with ((((rfl | rfl) | rfl) | rfl) | rfl) | rfl <;> decide

theorem run_space {c : Char} {rest : List Char} (hc : isSpace c = true) :
    nextFrom .start start text loc diags (c :: rest) =
      nextFrom .start start text (past loc c) diags rest := by
  obtain ⟨hletter, hdigit⟩ := space_not_letter hc
  simp only [nextFrom, hletter, hdigit, hc, Bool.false_eq_true, if_false, if_true]
  exact run_start _ _ _

/-- A tab and nothing after it. -/
example : nextFrom .start start text loc diags ['\t'] =
    (make .endOfFile (past loc '\t') "", { source := [], loc := past loc '\t', diags := diags }) := by
  rw [run_space rfl, nextFrom]

theorem not_infix_tail {c : Char} {close s : List Char} (h : ¬ close <:+: c :: s) :
    ¬ close <:+: s :=
  fun hs => h (hs.trans (List.suffix_cons c s).isInfix)

/-- The body of a comment is read to its end, from either of its two states. -/
theorem run_comment_body {body : List Char} (rest : List Char) :
    (¬ ['*', '/'] <:+: body ++ ['*'] →
      nextFrom .inComment start text loc diags (body ++ '*' :: '/' :: rest) =
        nextFrom .start start text (pastAll loc (body ++ ['*', '/'])) diags rest) ∧
    (¬ ['*', '/'] <:+: '*' :: (body ++ ['*']) →
      nextFrom .inCommentStar start text loc diags (body ++ '*' :: '/' :: rest) =
        nextFrom .start start text (pastAll loc (body ++ ['*', '/'])) diags rest) := by
  induction body generalizing loc with
  | nil =>
      constructor
      · intro _
        rfl
      · intro _
        rfl
  | cons c body ih =>
      constructor
      · intro h
        by_cases hstar : c = '*'
        · subst hstar
          exact ih.2 h
        · simp only [List.cons_append, nextFrom, if_neg hstar]
          exact ih.1 (not_infix_tail h)
      · intro h
        by_cases hslash : c = '/'
        · subst hslash
          exact absurd (List.IsPrefix.isInfix ⟨body ++ ['*'], rfl⟩) h
        · by_cases hstar : c = '*'
          · subst hstar
            exact ih.2 (not_infix_tail h)
          · simp only [List.cons_append, nextFrom, if_neg hslash, if_neg hstar]
            exact ih.1 (not_infix_tail (not_infix_tail h))

theorem run_comment {comment rest : List Char} (h : Comment comment) :
    nextFrom .start start text loc diags (comment ++ rest) =
      nextFrom .start start text (pastAll loc comment) diags rest := by
  cases h with
  | @mk body hbody =>
      have hrun : nextFrom .inComment loc [] (past (past loc '/') '*') diags
          (body ++ '*' :: '/' :: rest) = _ := (run_comment_body rest).1 hbody
      simp only [List.cons_append, List.append_assoc, List.nil_append, pastAll_cons]
      rw [run_start start text] at hrun
      exact hrun

theorem run_gap {gap rest : List Char} (h : Gap gap) :
    nextFrom .start start text loc diags (gap ++ rest) =
      nextFrom .start start text (pastAll loc gap) diags rest := by
  induction h generalizing loc with
  | nil => rfl
  | space hc _ ih => rw [List.cons_append, run_space hc, ih, pastAll_cons]
  | comment hcomment _ ih => rw [List.append_assoc, run_comment hcomment, ih, pastAll_append]

theorem run_open {body : List Char} :
    (¬ ['*', '/'] <:+: body →
      nextFrom .inComment start text loc diags body =
        ({ kind := .endOfFile, loc := pastAll loc body },
          { source := [], loc := pastAll loc body,
            diags := diags.error start "unterminated comment" })) ∧
    (¬ ['*', '/'] <:+: '*' :: body →
      nextFrom .inCommentStar start text loc diags body =
        ({ kind := .endOfFile, loc := pastAll loc body },
          { source := [], loc := pastAll loc body,
            diags := diags.error start "unterminated comment" })) := by
  induction body generalizing loc with
  | nil =>
      constructor
      · intro _
        rfl
      · intro _
        rfl
  | cons c body ih =>
      constructor
      · intro h
        by_cases hstar : c = '*'
        · subst hstar
          exact ih.2 h
        · simp only [nextFrom, if_neg hstar]
          exact ih.1 (not_infix_tail h)
      · intro h
        by_cases hslash : c = '/'
        · subst hslash
          exact absurd (List.IsPrefix.isInfix ⟨body, rfl⟩) h
        · by_cases hstar : c = '*'
          · subst hstar
            exact ih.2 (not_infix_tail h)
          · simp only [nextFrom, if_neg hslash, if_neg hstar]
            exact ih.1 (not_infix_tail (not_infix_tail h))

theorem run_letters {word rest : List Char} (hword : ∀ c ∈ word, isLetter c = true)
    (hrest : ∀ c, rest.head? = some c → isLetter c = false) :
    nextFrom .inIdentifier start text loc diags (word ++ rest) =
      (make (keywordOrIdentifier (String.ofList (text ++ word))) start
          (String.ofList (text ++ word)),
        { source := rest, loc := pastAll loc word, diags := diags }) := by
  induction word generalizing text loc with
  | nil =>
      cases rest with
      | nil => simp [nextFrom]
      | cons c rest => simp [nextFrom, hrest c rfl]
  | cons c word ih =>
      have hc := hword c (by simp)
      have hnext : nextFrom .inIdentifier start (text ++ [c]) (past loc c) diags
          (word ++ rest) = _ := ih fun d hd => hword d (by simp [hd])
      simp only [List.cons_append, nextFrom, hc, if_true, hnext, List.append_assoc,
        List.nil_append, pastAll_cons]

theorem run_digits {digits rest : List Char} (hdigits : ∀ c ∈ digits, isDigit c = true)
    (hrest : ∀ c, rest.head? = some c → isDigit c = false) :
    nextFrom .inNumber start text loc diags (digits ++ rest) =
      finishNumber start (text ++ digits)
        { source := rest, loc := pastAll loc digits, diags := diags } := by
  induction digits generalizing text loc with
  | nil =>
      cases rest with
      | nil => simp [nextFrom]
      | cons c rest => simp [nextFrom, hrest c rfl]
  | cons c digits ih =>
      have hc := hdigits c (by simp)
      have hnext : nextFrom .inNumber start (text ++ [c]) (past loc c) diags
          (digits ++ rest) = _ := ih fun d hd => hdigits d (by simp [hd])
      simp only [List.cons_append, nextFrom, hc, if_true, hnext, List.append_assoc,
        List.nil_append, pastAll_cons]

theorem finishNumber_eq {digits rest : List Char} {loc' : SourceLocation} :
    finishNumber loc digits { source := rest, loc := loc', diags := diags } =
      (tokenFor .number loc digits,
        { source := rest, loc := loc', diags := diags ++ errorsFor .number loc digits }) := by
  by_cases hfits : decimalValue digits < 2 ^ 63
  · have hvalue : fromChars digits = some (decimalValue digits : Nat) := if_pos hfits
    have hfits : fitsLongLong digits = true := decide_eq_true hfits
    simp [finishNumber, tokenFor, errorsFor, hvalue, hfits, make]
  · have hvalue : fromChars digits = none := if_neg hfits
    have hfits : fitsLongLong digits = false := decide_eq_false hfits
    simp [finishNumber, tokenFor, errorsFor, hvalue, hfits, make, error, Diagnostics.error,
      Diagnostics.add]

theorem run_symbol {kind : TokenKind} {rest : List Char} (h : kind.isSymbol = true)
    (hrest : Boundary kind rest) :
    nextFrom .start start text loc diags (kind.spelling ++ rest) =
      (tokenFor kind loc kind.spelling,
        { source := rest, loc := pastAll loc kind.spelling, diags := diags }) := by
  cases rest with
  | nil => cases kind <;> first | exact absurd h (by decide) | rfl
  | cons c rest =>
      have hc := hrest c rfl
      cases kind <;>
        first
        | exact absurd h (by decide)
        | rfl
        | exact if_neg (of_decide_eq_false hc)

theorem run_token {word rest : List Char} {kind : TokenKind} (h : Spelling word kind)
    (hrest : Boundary kind rest) :
    nextFrom .start start text loc diags (word ++ rest) =
      (tokenFor kind loc word,
        { source := rest, loc := pastAll loc word,
          diags := diags ++ errorsFor kind loc word }) := by
  obtain ⟨c, word, rfl⟩ := List.exists_cons_of_ne_nil h.ne_nil
  by_cases hletter : isLetter c = true
  · obtain ⟨hword, hall⟩ := h.of_letter hletter
    have hrun : nextFrom .inIdentifier loc [c] (past loc c) diags (word ++ rest) = _ :=
      run_letters (fun d hd => hall d (by simp [hd])) (fun d hd => by
        rw [← continues_word hword]
        exact hrest d hd)
    have hkind : kind ≠ .number := by
      rintro rfl
      cases hword
    have hfound : keywordOrIdentifier (String.ofList ([c] ++ word)) = kind :=
      h.word_kind hword
    rw [hfound] at hrun
    simp only [List.cons_append, nextFrom, hletter, if_true, hrun]
    simp [make, tokenFor, errorsFor, hkind]
  have hletter : isLetter c = false := by simpa using hletter
  by_cases hdigit : isDigit c = true
  · obtain ⟨rfl, hall⟩ := h.of_digit hdigit
    have hrun : nextFrom .inNumber loc [c] (past loc c) diags (word ++ rest) = _ :=
      run_digits (fun d hd => hall d (by simp [hd])) hrest
    simp only [List.cons_append, nextFrom, hletter, hdigit, Bool.false_eq_true, if_false,
      if_true, hrun, finishNumber_eq, List.nil_append, pastAll_cons]
  · have hdigit : isDigit c = false := by simpa using hdigit
    obtain ⟨hsymbol, hspell⟩ := h.of_other hletter hdigit
    have herrors : errorsFor kind loc (c :: word) = [] := by
      have hkind : kind ≠ .number := by
        rintro rfl
        cases hsymbol
      simp [errorsFor, hkind]
    rw [herrors, List.append_nil, hspell]
    exact run_symbol hsymbol hrest

end Runs

/-! Every source is cut at its front in one of these ways. -/

theorem comment_split (source : List Char) :
    ¬ ['*', '/'] <:+: source ∨
      ∃ body rest, source = body ++ '*' :: '/' :: rest ∧ ¬ ['*', '/'] <:+: body ++ ['*'] := by
  induction source with
  | nil => exact .inl (by simp)
  | cons c source ih =>
      by_cases hfront : ['*', '/'] <+: c :: source
      · obtain ⟨rest, hrest⟩ := hfront
        exact .inr ⟨[], rest, hrest.symm, by decide⟩
      · rcases ih with hnone | ⟨body, rest, rfl, hbody⟩
        · left
          rw [List.infix_cons_iff]
          exact fun h => h.elim hfront hnone
        · right
          refine ⟨c :: body, rest, rfl, ?_⟩
          rw [List.cons_append, List.infix_cons_iff]
          intro h
          rcases h with h | h
          · apply hfront
            apply h.trans
            exact ⟨'/' :: rest, by simp⟩
          · exact hbody h

theorem run_of_test {test : Char → Bool} {c : Char} (hc : test c = true) (rest : List Char) :
    ∃ word tail, c :: rest = word ++ tail ∧ word ≠ [] ∧ (∀ d ∈ word, test d = true) ∧
      ∀ d, tail.head? = some d → test d = false := by
  refine ⟨(c :: rest).takeWhile test, (c :: rest).dropWhile test,
    List.takeWhile_append_dropWhile.symm, by simp [hc], ?_, ?_⟩
  · exact fun d hd => List.all_eq_true.mp List.all_takeWhile d hd
  · intro d hd
    have hhead := List.head?_dropWhile_not test (c :: rest)
    simpa [hd] using hhead

theorem singleCharacter_spelling {c : Char} {kind : TokenKind}
    (h : singleCharacter c = some kind) :
    kind.isSymbol = true ∧ kind.spelling = [c] ∧ ∀ d, continues kind d = false := by
  unfold singleCharacter at h
  split at h <;> cases h <;> exact ⟨rfl, rfl, fun _ => rfl⟩

theorem symbol_front {kind : TokenKind} {c : Char} {more : List Char}
    (h : kind.isSymbol = true) (hspell : kind.spelling = c :: more) :
    singleCharacter c = some kind ∨ c = '/' ∨ c = '<' ∨ c = '>' ∨ c = '=' ∨ c = '!' := by
  have hhead : kind.spelling.head? = some c := by rw [hspell]; rfl
  cases kind <;>
    first
    | exact absurd h (by decide)
    | (cases hhead; decide)

/-- An operator that `=` may turn into another one. -/
theorem operator_split (one two : TokenKind) {c : Char} (rest : List Char)
    (hone : one.isSymbol = true ∧ one.spelling = [c])
    (htwo : two.isSymbol = true ∧ two.spelling = [c, '='])
    (hcontinues : ∀ d, continues one d = decide (d = '='))
    (hstops : ∀ d, continues two d = false) :
    ∃ word tail kind, c :: rest = word ++ tail ∧ Spelling word kind ∧ Boundary kind tail := by
  by_cases heq : rest.head? = some '='
  · obtain ⟨tail, rfl⟩ := List.head?_eq_some_iff.mp heq
    exact ⟨two.spelling, tail, two, by simp [htwo.2], .symbol htwo.1, fun d _ => hstops d⟩
  · refine ⟨one.spelling, rest, one, by simp [hone.2], .symbol hone.1, fun d hd => ?_⟩
    rw [hcontinues]
    apply decide_eq_false
    rintro rfl
    exact heq hd

theorem lexeme_split {c : Char} {rest : List Char}
    (hcomment : ¬ ['/', '*'] <+: c :: rest) :
    (∃ word tail kind, c :: rest = word ++ tail ∧ Spelling word kind ∧ Boundary kind tail) ∨
      (c = '!' ∧ rest.head? ≠ some '=') ∨
      ((∀ text kind, Spelling text kind → text.head? ≠ some c) ∧
        isLetter c = false ∧ isDigit c = false ∧ twoCharacters c = none ∧
        singleCharacter c = none) := by
  by_cases hletter : isLetter c = true
  · obtain ⟨word, tail, heq, hne, hall, htail⟩ := run_of_test hletter rest
    refine .inl ⟨word, tail, _, heq, spelling_word hne hall, fun d hd => ?_⟩
    rw [continues_word (keywordOrIdentifier_isWord _)]
    exact htail d hd
  by_cases hdigit : isDigit c = true
  · obtain ⟨word, tail, heq, hne, hall, htail⟩ := run_of_test hdigit rest
    exact .inl ⟨word, tail, .number, heq, .number hne hall, htail⟩
  have hletter : isLetter c = false := by simpa using hletter
  have hdigit : isDigit c = false := by simpa using hdigit
  cases hsingle : singleCharacter c with
  | some kind =>
      obtain ⟨hsymbol, hspell, hstops⟩ := singleCharacter_spelling hsingle
      exact .inl ⟨kind.spelling, rest, kind, by simp [hspell], .symbol hsymbol,
        fun d _ => hstops d⟩
  | none =>
      by_cases hslash : c = '/'
      · subst hslash
        refine .inl ⟨['/'], rest, .slash, rfl, .symbol (show TokenKind.slash.isSymbol from rfl), fun d hd => ?_⟩
        apply decide_eq_false
        rintro rfl
        obtain ⟨tail, rfl⟩ := List.head?_eq_some_iff.mp hd
        exact hcomment ⟨tail, rfl⟩
      by_cases hless : c = '<'
      · subst hless
        exact .inl (operator_split .less .lessEqual rest ⟨rfl, rfl⟩ ⟨rfl, rfl⟩
          (fun _ => rfl) fun _ => rfl)
      by_cases hgreater : c = '>'
      · subst hgreater
        exact .inl (operator_split .greater .greaterEqual rest ⟨rfl, rfl⟩
          ⟨rfl, rfl⟩ (fun _ => rfl) fun _ => rfl)
      by_cases hassign : c = '='
      · subst hassign
        exact .inl (operator_split .assign .equalEqual rest ⟨rfl, rfl⟩
          ⟨rfl, rfl⟩ (fun _ => rfl) fun _ => rfl)
      by_cases hbang : c = '!'
      · subst hbang
        by_cases heq : rest.head? = some '='
        · obtain ⟨tail, rfl⟩ := List.head?_eq_some_iff.mp heq
          exact .inl ⟨['!', '='], tail, .bangEqual, rfl, .symbol (show TokenKind.bangEqual.isSymbol from rfl),
            fun _ _ => rfl⟩
        · exact .inr (.inl ⟨rfl, heq⟩)
      · refine .inr (.inr ⟨fun text kind h hhead => ?_, hletter, hdigit, ?_, rfl⟩)
        · obtain ⟨more, rfl⟩ := List.head?_eq_some_iff.mp hhead
          obtain ⟨hsymbol, hspell⟩ := h.of_other hletter hdigit
          have hfront := symbol_front hsymbol hspell.symm
          simp_all
        · unfold twoCharacters
          split <;> first | contradiction | rfl

/-! What `next` finds at the front of a source. -/

theorem gap_append {first second : List Char} (h : Gap first) (h' : Gap second) :
    Gap (first ++ second) := by
  induction h with
  | nil => exact h'
  | space hc _ ih => exact .space hc ih
  | comment hcomment _ ih =>
      rw [List.append_assoc]
      exact .comment hcomment ih

/-- The longest gap.  It is followed by the end, by a comment without one, or by neither. -/
theorem gap_split (source : List Char) :
    ∃ gap rest, source = gap ++ rest ∧ Gap gap ∧ (∀ c, rest.head? = some c → isSpace c = false) ∧
      (¬ ['/', '*'] <+: rest ∨ ∃ body, rest = '/' :: '*' :: body ∧ ¬ ['*', '/'] <:+: body) := by
  induction hn : source.length using Nat.strong_induction_on generalizing source with
  | _ n ih =>
  subst hn
  have hmore : ∀ {first rest : List Char}, source = first ++ rest → Gap first → first ≠ [] →
      ∃ gap rest, source = gap ++ rest ∧ Gap gap ∧
        (∀ c, rest.head? = some c → isSpace c = false) ∧
        (¬ ['/', '*'] <+: rest ∨ ∃ body, rest = '/' :: '*' :: body ∧ ¬ ['*', '/'] <:+: body) := by
    intro first rest hsource hfirst hne
    have hpos := List.length_pos_iff.mpr hne
    have hlength : source.length = first.length + rest.length := by
      rw [hsource, List.length_append]
    obtain ⟨gap, rest', rfl, hgap, hhead, hend⟩ := ih rest.length (by omega) rest rfl
    refine ⟨first ++ gap, rest', ?_, gap_append hfirst hgap, hhead, hend⟩
    rw [hsource, List.append_assoc]
  cases source with
  | nil => exact ⟨[], [], rfl, .nil, nofun, .inl (by simp)⟩
  | cons c rest =>
      by_cases hspace : isSpace c = true
      · exact hmore (List.singleton_append).symm (.space hspace .nil) (List.cons_ne_nil _ _)
      · have hhead : ∀ d, (c :: rest).head? = some d → isSpace d = false := by
          intro d hd
          cases hd
          simpa using hspace
        by_cases hcomment : ['/', '*'] <+: c :: rest
        · obtain ⟨inner, hinner⟩ := hcomment
          rcases comment_split inner with hnone | ⟨body, rest', rfl, hbody⟩
          · exact ⟨[], c :: rest, rfl, .nil, hhead, .inr ⟨inner, hinner.symm, hnone⟩⟩
          · have hgap := Gap.comment (Comment.mk hbody) .nil
            rw [List.append_nil] at hgap
            have hsource : c :: rest = '/' :: '*' :: (body ++ ['*', '/']) ++ rest' := by
              rw [← hinner]
              simp
            exact hmore hsource hgap (List.cons_ne_nil _ _)
        · exact ⟨[], c :: rest, rfl, .nil, hhead, .inl hcomment⟩

inductive Reads (loc : SourceLocation) (diags : Diagnostics) : List Char → Token × Lexer → Prop
  | last {gap : List Char} : Gap gap →
      Reads loc diags gap ({ kind := .endOfFile, loc := pastAll loc gap },
        { source := [], loc := pastAll loc gap, diags := diags })
  | unterminated {gap body : List Char} : Gap gap → ¬ ['*', '/'] <:+: body →
      Reads loc diags (gap ++ '/' :: '*' :: body)
        ({ kind := .endOfFile, loc := pastAll loc (gap ++ '/' :: '*' :: body) },
          { source := [], loc := pastAll loc (gap ++ '/' :: '*' :: body),
            diags := diags.error (pastAll loc gap) "unterminated comment" })
  | token {gap text rest : List Char} {kind : TokenKind} : Gap gap → Spelling text kind →
      Boundary kind rest →
      Reads loc diags (gap ++ (text ++ rest)) (tokenFor kind (pastAll loc gap) text,
        { source := rest, loc := pastAll loc (gap ++ text),
          diags := diags ++ errorsFor kind (pastAll loc gap) text })
  | invalid {gap rest : List Char} {c : Char} : Gap gap → isSpace c = false →
      (∀ text kind, Spelling text kind → text.head? ≠ some c) →
      Reads loc diags (gap ++ c :: rest) (errorToken (pastAll loc gap) c,
        { source := rest, loc := pastAll loc (gap ++ [c]),
          diags := diags ++ [⟨.error, pastAll loc gap,
            "invalid character '" ++ describeChar c ++ "' in source file"⟩] })
  | bang {gap rest : List Char} : Gap gap → rest.head? ≠ some '=' →
      Reads loc diags (gap ++ '!' :: rest) (errorToken (pastAll loc gap) '!',
        { source := rest, loc := pastAll loc (gap ++ ['!']),
          diags := diags ++ [⟨.error, pastAll loc gap,
            "'!' is not an operator in C-; did you mean '!='?"⟩] })

/-- `next` at a byte that no token starts with, or at a `!` alone. -/
theorem run_invalid {c : Char} {rest : List Char} {loc : SourceLocation}
    {diags : Diagnostics} (hspace : isSpace c = false) (hletter : isLetter c = false)
    (hdigit : isDigit c = false) (htwo : twoCharacters c = none)
    (hsingle : singleCharacter c = none) :
    Lexer.next { source := c :: rest, loc := loc, diags := diags } =
      (errorToken loc c, { source := rest, loc := past loc c,
                           diags := diags ++ [⟨.error, loc, "invalid character '" ++
                            describeChar c ++ "' in source file"⟩] }) := by
  simp only [next, nextFrom, hletter, hdigit, hspace, htwo, hsingle, Bool.false_eq_true,
    if_false]
  rfl

theorem run_bang {rest : List Char} {loc : SourceLocation} {diags : Diagnostics}
    (hrest : rest.head? ≠ some '=') :
    Lexer.next { source := '!' :: rest, loc := loc, diags := diags } =
      (errorToken loc '!', { source := rest, loc := past loc '!',
                             diags := diags ++ [⟨.error, loc,
                              "'!' is not an operator in C-; did you mean '!='?"⟩] }) := by
  cases rest with
  | nil => rfl
  | cons c rest =>
      have hc : c ≠ '=' := by simpa using hrest
      exact if_neg hc

theorem next_reads (source : List Char) (loc : SourceLocation) (diags : Diagnostics) :
    Reads loc diags source (Lexer.next { source := source, loc := loc, diags := diags }) := by
  obtain ⟨gap, rest, rfl, hgap, hhead, hend⟩ := gap_split source
  have hnext : Lexer.next { source := gap ++ rest, loc := loc, diags := diags } =
      Lexer.next { source := rest, loc := pastAll loc gap, diags := diags } := by
    rw [next, run_gap hgap]
    exact run_start _ _ _
  rw [hnext]
  rcases hend with hcomment | ⟨body, rfl, hbody⟩
  · cases rest with
    | nil =>
        rw [List.append_nil]
        exact .last hgap
    | cons c rest =>
        rcases lexeme_split hcomment with ⟨word, tail, kind, heq, hspell, hboundary⟩ |
            ⟨rfl, hne⟩ | ⟨hnone, hletter, hdigit, htwo, hsingle⟩
        · have hrun : Lexer.next { source := word ++ tail, loc := pastAll loc gap, diags := diags } =
              _ := run_token hspell hboundary
          rw [heq, hrun, ← pastAll_append]
          exact .token hgap hspell hboundary
        · rw [run_bang hne]
          have hreads : Reads loc diags _ _ := .bang hgap hne
          rw [pastAll_append] at hreads
          exact hreads
        · rw [run_invalid (hhead c rfl) hletter hdigit htwo hsingle]
          have hreads : Reads loc diags (gap ++ c :: rest) _ := .invalid hgap (hhead c rfl) hnone
          rw [pastAll_append] at hreads
          exact hreads
  · have hrun : Lexer.next
        { source := '/' :: '*' :: body, loc := pastAll loc gap, diags := diags } = _ :=
      run_open.1 hbody
    have hreads : Reads loc diags _ _ := .unterminated hgap hbody
    rw [hrun]
    rw [pastAll_append] at hreads
    exact hreads

/-! The tokens of a whole source. -/

theorem tokenizeFrom_step {lx lx' : Lexer} {tok : Token} (h : lx.next = (tok, lx'))
    (htok : tok.kind ≠ .endOfFile) (limit : Nat) :
    tokenizeFrom (limit + 1) lx =
      (tok :: (tokenizeFrom limit lx').1, (tokenizeFrom limit lx').2) := by
  simp only [tokenizeFrom, h, Token.is_eq_false.mpr htok, Bool.false_eq_true, if_false]

theorem Spelling.ne_endOfFile {text : List Char} {kind : TokenKind} (h : Spelling text kind) :
    kind ≠ .endOfFile := by
  rintro rfl
  cases h <;> contradiction

theorem tokenizeFrom_end {lx lx' : Lexer} {tok : Token} (h : lx.next = (tok, lx'))
    (htok : tok.kind = .endOfFile) (limit : Nat) : tokenizeFrom (limit + 1) lx = ([tok], lx') := by
  simp only [tokenizeFrom, h, Token.is, htok, decide_true, if_true]

theorem tokenizeFrom_tokenized (limit : Nat) (source : List Char) (loc : SourceLocation)
    (diags : Diagnostics) (hlimit : source.length < limit) :
    ∃ tokens new lx, tokenizeFrom limit { source := source, loc := loc, diags := diags } =
        (tokens, lx) ∧ lx.diags = diags ++ new ∧ Tokenized loc source tokens new := by
  induction limit generalizing source loc diags with
  | zero => cases hlimit
  | succ limit ih =>
      have hreads := next_reads source loc diags
      generalize hnext : Lexer.next { source := source, loc := loc, diags := diags } = result
        at hreads
      cases hreads with
      | last hgap =>
          refine ⟨_, [], _, tokenizeFrom_end hnext rfl limit, ?_, .last hgap⟩
          exact (List.append_nil _).symm
      | unterminated hgap hbody =>
          exact ⟨_, _, _, tokenizeFrom_end hnext rfl limit, rfl, .unterminated hgap hbody⟩
      | @token gap text rest kind hgap hspell hboundary =>
          have hpos := List.length_pos_iff.mpr hspell.ne_nil
          rw [List.length_append, List.length_append] at hlimit
          obtain ⟨tokens, new, lx, hrun, hdiags, htokens⟩ := ih rest _ _ (by omega)
          refine ⟨_, _, lx, ?_, ?_, .token hgap (longest_of_boundary hspell hboundary) htokens⟩
          · rw [tokenizeFrom_step hnext hspell.ne_endOfFile, hrun]
          · rw [hdiags, List.append_assoc]
      | @invalid gap rest c hgap hspace hnone =>
          rw [List.length_append, List.length_cons] at hlimit
          obtain ⟨tokens, new, lx, hrun, hdiags, htokens⟩ := ih rest _ _ (by omega)
          refine ⟨_, _, lx, ?_, ?_, .invalid hgap hspace hnone htokens⟩
          · rw [tokenizeFrom_step hnext (by simp [errorToken]), hrun]
          · rw [hdiags, List.append_assoc]
            rfl
      | @bang gap rest hgap hne =>
          rw [List.length_append, List.length_cons] at hlimit
          obtain ⟨tokens, new, lx, hrun, hdiags, htokens⟩ := ih rest _ _ (by omega)
          refine ⟨_, _, lx, ?_, ?_, .bang hgap hne htokens⟩
          · rw [tokenizeFrom_step hnext (by simp [errorToken]), hrun]
          · rw [hdiags, List.append_assoc]
            rfl

theorem Tokenized.last_endOfFile {loc : SourceLocation} {source : List Char}
    {tokens : List Token} {diags : Diagnostics} (h : Tokenized loc source tokens diags) :
    ∃ init eof, tokens = init ++ [eof] ∧ eof.kind = .endOfFile ∧
      ∀ tok ∈ init, tok.kind ≠ .endOfFile := by
  have hcons : ∀ {tok : Token} {tokens : List Token}, tok.kind ≠ .endOfFile →
      (∃ init eof, tokens = init ++ [eof] ∧ eof.kind = .endOfFile ∧
        ∀ tok ∈ init, tok.kind ≠ .endOfFile) →
      ∃ init eof, tok :: tokens = init ++ [eof] ∧ eof.kind = .endOfFile ∧
        ∀ tok ∈ init, tok.kind ≠ .endOfFile := by
    intro tok tokens htok h
    obtain ⟨init, eof, rfl, heof, hinit⟩ := h
    exact ⟨tok :: init, eof, rfl, heof, by simpa [htok] using hinit⟩
  induction h with
  | last _ => exact ⟨[], _, rfl, rfl, by simp⟩
  | unterminated _ _ => exact ⟨[], _, rfl, rfl, by simp⟩
  | token _ hlongest _ ih => exact hcons hlongest.spelling.ne_endOfFile ih
  | invalid _ _ _ _ ih => exact hcons (by simp [errorToken]) ih
  | bang _ _ _ ih => exact hcons (by simp [errorToken]) ih

/-- `Tokenized` spells out the gaps, the lexemes, the kinds, the values and the errors. -/
theorem tokenize_exact (source : List Char) (diags : Diagnostics) :
    ∃ tokens new lx, tokenize { source := source, diags := diags } = (tokens, lx) ∧
      lx.diags = diags ++ new ∧ Tokenized { line := 1, column := 1 } source tokens new ∧
      ∃ init eof, tokens = init ++ [eof] ∧ eof.kind = .endOfFile ∧
        ∀ tok ∈ init, tok.kind ≠ .endOfFile := by
  obtain ⟨tokens, new, lx, hrun, hdiags, htokens⟩ :=
    tokenizeFrom_tokenized (source.length + 1) source { line := 1, column := 1 } diags
      (Nat.lt_succ_self _)
  exact ⟨tokens, new, lx, hrun, hdiags, htokens, htokens.last_endOfFile⟩

end Lexer

end CMinus
