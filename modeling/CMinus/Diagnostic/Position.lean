import Mathlib.Data.List.GetD
import CMinus.Diagnostic
import CMinus.Lexer.Scan

namespace CMinus

namespace Lexer

/-! Where the scanner stands after so many tokens, and where it found a token. -/

def after (n : Nat) (lx : Lexer) : Lexer := (fun lx : Lexer => lx.next.2)^[n] lx

theorem after_succ (n : Nat) (lx : Lexer) : lx.after (n + 1) = lx.next.2.after n :=
  Function.iterate_succ_apply _ _ _

/-- `before` is read before the lexeme of `tok`, and `rest` is left. -/
structure FoundAt (loc : SourceLocation) (source : List Char) (tok : Token)
    (before rest : List Char) : Prop where
  split : source = before ++ (tok.lexeme.toList ++ rest)
  position : tok.loc = pastAll loc before
  atEnd : tok.kind = .endOfFile → tok.lexeme.toList ++ rest = []

theorem Reads.foundAt {loc : SourceLocation} {diags : Diagnostics} {source : List Char}
    {result : Token × Lexer} (h : Reads loc diags source result) :
    ∃ gap, FoundAt loc source result.1 gap result.2.source ∧
      result.2.loc = pastAll loc (gap ++ result.1.lexeme.toList) := by
  cases h with
  | last =>
      refine ⟨source, ⟨?_, rfl, fun _ => rfl⟩, ?_⟩
      · exact (List.append_nil source).symm
      · exact congrArg _ (List.append_nil source).symm
  | @unterminated gap body =>
      refine ⟨gap ++ '/' :: '*' :: body, ⟨?_, rfl, fun _ => rfl⟩, ?_⟩
      · exact (List.append_nil _).symm
      · exact congrArg _ (List.append_nil _).symm
  | @token gap text rest kind _ hspell =>
      refine ⟨gap, ⟨?_, rfl, fun hkind => absurd hkind hspell.ne_endOfFile⟩, ?_⟩
      · simp [tokenFor]
      · simp [tokenFor]
  | @invalid gap rest c =>
      refine ⟨gap, ⟨?_, rfl, fun hkind => by cases hkind⟩, ?_⟩
      · simp [errorToken]
      · simp [errorToken]
  | @bang gap rest =>
      refine ⟨gap, ⟨?_, rfl, fun hkind => by cases hkind⟩, ?_⟩
      · simp [errorToken]
      · simp [errorToken]

theorem tokenizeFrom_foundAt {limit : Nat} {lx : Lexer} {i : Nat} {tok : Token}
    (h : (tokenizeFrom limit lx).1[i]? = some tok) :
    ∃ before, FoundAt lx.loc lx.source tok before (lx.after (i + 1)).source := by
  induction limit generalizing lx i with
  | zero => cases h
  | succ limit ih =>
      obtain ⟨gap, hfound, hloc⟩ := (next_reads lx.source lx.loc lx.diags).foundAt
      cases i with
      | zero =>
          have htok : lx.next.1 = tok := by
            unfold tokenizeFrom at h
            dsimp only at h
            split at h <;> exact Option.some.inj h
          subst htok
          exact ⟨gap, hfound⟩
      | succ i =>
          unfold tokenizeFrom at h
          dsimp only at h
          split at h
          · cases h
          · obtain ⟨before, hrest⟩ := ih h
            refine ⟨gap ++ (lx.next.1.lexeme.toList ++ before), ?_, ?_, hrest.atEnd⟩
            · rw [after_succ]
              calc
                lx.source = gap ++ (lx.next.1.lexeme.toList ++ lx.next.2.source) := hfound.split
                _ = _ := by rw [hrest.split]; simp only [List.append_assoc]
            · rw [hrest.position, ← List.append_assoc, pastAll_append]
              exact congrArg (pastAll · before) hloc

end Lexer

namespace DiagnosticEngine

/-! The table of the engine, against the location that the scanner counts. -/

theorem lineStartsFrom_cons (i : Nat) (c : Char) (rest : List Char) :
    lineStartsFrom i (c :: rest) =
      if c = '\n' then (i + 1) :: lineStartsFrom (i + 1) rest else lineStartsFrom (i + 1) rest := rfl

theorem lineStartsFrom_append (i : Nat) (first second : List Char) :
    lineStartsFrom i (first ++ second) =
      lineStartsFrom i first ++ lineStartsFrom (i + first.length) second := by
  induction first generalizing i with
  | nil => rfl
  | cons c first ih =>
      have hlength : i + (c :: first).length = i + 1 + first.length := by
        rw [List.length_cons]
        omega
      rw [List.cons_append, hlength, lineStartsFrom_cons, lineStartsFrom_cons, ih]
      split <;> rfl

/-- After `before` the scanner is in the last line that starts there. -/
structure Counted (before : List Char) (loc : SourceLocation) : Prop where
  line : loc.line = (lineStartsFrom 0 before).length + 1
  column : 1 ≤ loc.column
  offset : (0 :: lineStartsFrom 0 before).getD (loc.line - 1) 0 + (loc.column - 1) = before.length

theorem Counted.past {before : List Char} {loc : SourceLocation} (h : Counted before loc)
    (c : Char) : Counted (before ++ [c]) (Lexer.past loc c) := by
  obtain ⟨hline, hcolumn, hoffset⟩ := h
  by_cases hc : c = '\n'
  · have hstarts : lineStartsFrom 0 (before ++ [c]) = lineStartsFrom 0 before ++ [before.length + 1] := by
      rw [lineStartsFrom_append, Nat.zero_add]
      simp [lineStartsFrom, hc]
    have hpast : Lexer.past loc c = { line := loc.line + 1, column := 1 } := if_pos hc
    rw [hpast]
    constructor
    · rw [hstarts, List.length_append, hline]
      rfl
    · exact le_rfl
    · rw [hstarts, List.length_append]
      dsimp only
      rw [hline, ← List.cons_append, Nat.add_sub_cancel]
      simp
  · have hstarts : lineStartsFrom 0 (before ++ [c]) = lineStartsFrom 0 before := by
      rw [lineStartsFrom_append]
      simp [lineStartsFrom, hc]
    have hpast : Lexer.past loc c = { loc with column := loc.column + 1 } := if_neg hc
    rw [hpast]
    constructor
    · rw [hstarts]
      exact hline
    · exact Nat.le_add_left 1 _
    · rw [hstarts, List.length_append, List.length_singleton, ← hoffset]
      dsimp only
      omega

theorem counted (before : List Char) :
    Counted before (Lexer.pastAll { line := 1, column := 1 } before) := by
  induction before using List.reverseRecOn with
  | nil => exact ⟨rfl, le_rfl, rfl⟩
  | append_singleton before c ih =>
      rw [Lexer.pastAll_append]
      exact ih.past c

theorem offset_eq (fileName : String) (before rest : List Char) :
    (create fileName (before ++ rest)).offset (Lexer.pastAll { line := 1, column := 1 } before) =
      before.length := by
  obtain ⟨hline, -, hoffset⟩ := counted before
  have hlt : (Lexer.pastAll { line := 1, column := 1 } before).line - 1 <
      (0 :: lineStartsFrom 0 before).length := by
    rw [List.length_cons]
    omega
  unfold offset create
  dsimp only
  rw [lineStartsFrom_append, ← List.cons_append, List.getD_append _ _ _ _ hlt]
  exact hoffset

/-! The lines of a source. -/

def trimReturn (line : List Char) : List Char :=
  if line.getLast? = some '\r' then line.dropLast else line

theorem lines_length (i : Nat) (source : List Char) :
    (source.splitOn '\n').length = (lineStartsFrom i source).length + 1 := by
  induction source generalizing i with
  | nil => rfl
  | cons c source ih =>
      rw [List.splitOn_cons_eq_if_modifyHead]
      unfold lineStartsFrom
      by_cases hc : c = '\n'
      · simp [hc, ih (i + 1)]
      · simp [hc, ih (i + 1)]

theorem line_at {i k start : Nat} {source line : List Char}
    (hstart : (i :: lineStartsFrom i source)[k]? = some start)
    (hline : (source.splitOn '\n')[k]? = some line) :
    i ≤ start ∧ start ≤ i + source.length ∧ '\n' ∉ line ∧
      ∃ tail, source.drop (start - i) = line ++ tail ∧ ∀ c, tail.head? = some c → c = '\n' := by
  induction source generalizing i k start line with
  | nil =>
      cases k with
      | zero =>
          cases hstart
          cases hline
          exact ⟨le_rfl, le_rfl, by simp, [], by simp, nofun⟩
      | succ k => cases hline
  | cons c source ih =>
      rw [List.splitOn_cons_eq_if_modifyHead] at hline
      have hlater : ∀ {k : Nat} {line : List Char}, (source.splitOn '\n')[k]? = some line →
          ((i + 1) :: lineStartsFrom (i + 1) source)[k]? = some start →
          i ≤ start ∧ start ≤ i + (c :: source).length ∧ '\n' ∉ line ∧
            ∃ tail, (c :: source).drop (start - i) = line ++ tail ∧
              ∀ c, tail.head? = some c → c = '\n' := by
        intro k line hline hstart
        obtain ⟨hle, hle', hfree, tail, hdrop, htail⟩ := ih hstart hline
        refine ⟨by omega, by rw [List.length_cons]; omega, hfree, tail, ?_, htail⟩
        rw [← hdrop, show start - i = (start - (i + 1)) + 1 by omega, List.drop_succ_cons]
      by_cases hc : c = '\n'
      · subst hc
        rw [beq_self_eq_true, if_pos rfl] at hline
        cases k with
        | zero =>
            cases hstart
            cases hline
            exact ⟨le_rfl, by simp, by simp, '\n' :: source, by simp, by simp⟩
        | succ k => exact hlater hline (by simpa [lineStartsFrom] using hstart)
      · rw [beq_eq_false_iff_ne.mpr hc, if_neg Bool.false_ne_true] at hline
        obtain ⟨first, lines, hlines⟩ := List.exists_cons_of_ne_nil
          (List.splitOn_ne_nil '\n' source)
        rw [hlines, List.modifyHead_cons] at hline
        cases k with
        | zero =>
            cases hstart
            cases hline
            obtain ⟨-, -, hfree, tail, hdrop, htail⟩ := ih (i := i + 1) (k := 0) rfl
              (by rw [hlines]; rfl)
            rw [Nat.sub_self, List.drop_zero] at hdrop
            refine ⟨le_rfl, by simp, ?_, tail, ?_, htail⟩
            · simp [hfree, Ne.symm hc]
            · rw [Nat.sub_self, List.drop_zero, hdrop, List.cons_append]
        | succ k =>
            apply hlater (k := k + 1)
            · rw [hlines]
              exact hline
            · simpa [lineStartsFrom, hc] using hstart

/-- The line, without its newline and one carriage return at its end. -/
theorem lineText_eq (fileName : String) {source line : List Char} {number : Nat}
    (hnumber : 1 ≤ number) (hline : (source.splitOn '\n')[number - 1]? = some line) :
    (create fileName source).lineText number = trimReturn line := by
  obtain ⟨hlt, -⟩ := List.getElem?_eq_some_iff.mp hline
  have hbound : number - 1 < (0 :: lineStartsFrom 0 source).length := by
    rw [List.length_cons, ← lines_length]
    exact hlt
  let start := (0 :: lineStartsFrom 0 source)[number - 1]
  have hstart : (0 :: lineStartsFrom 0 source)[number - 1]? = some start :=
    List.getElem?_eq_getElem hbound
  obtain ⟨-, hle, hfree, tail, hdrop, htail⟩ := line_at hstart hline
  rw [Nat.sub_zero] at hdrop
  have hsource : source = source.take start ++ (line ++ tail) := by
    rw [← hdrop, List.take_append_drop]
  have htaken : (source.take start).length = start := List.length_take_of_le (by omega)
  have hstop : (create fileName source).lineEnd start = start + line.length := by
    have hsame : (create fileName source).source = source := rfl
    unfold lineEnd
    rw [hsame]
    have hnone : line.findIdx? (· = '\n') = none := by
      rw [List.findIdx?_eq_none_iff]
      intro c hc
      exact decide_eq_false fun heq => hfree (heq ▸ hc)
    rw [hdrop, List.findIdx?_append, hnone]
    cases tail with
    | nil =>
        have hlength := congrArg List.length hsource
        simp only [List.length_append, List.append_nil, htaken] at hlength
        exact hlength
    | cons c tail =>
        have hhere : (c :: tail).findIdx? (· = '\n') = some 0 := by
          rw [htail c rfl, List.findIdx?_cons, decide_eq_true rfl]
          rfl
        rw [hhere]
        simp
  have hreturn : (start < start + line.length ∧ source[start + line.length - 1]? = some '\r') ↔
      line.getLast? = some '\r' := by
    rcases Nat.eq_zero_or_pos line.length with hzero | hpos
    · rw [List.eq_nil_of_length_eq_zero hzero]
      simp
    · have hlast : source[start + line.length - 1]? = line.getLast? := by
        rw [Nat.add_sub_assoc hpos, ← List.getElem?_drop, hdrop, List.getLast?_eq_getElem?,
          List.getElem?_append_left (by omega)]
      rw [hlast, and_iff_right_iff_imp]
      intro _
      omega
  have hgetD : (0 :: lineStartsFrom 0 source).getD (number - 1) 0 = start := by
    rw [List.getD_eq_getElem?_getD, hstart]
    rfl
  have hlines : ¬ (number < 1 ∨ (create fileName source).lineStarts.length < number) := by
    change ¬ (number < 1 ∨ (0 :: lineStartsFrom 0 source).length < number)
    omega
  have hstarts : (create fileName source).lineStarts.getD (number - 1) 0 = start := hgetD
  have hkept : (create fileName source).source = source := rfl
  unfold lineText trimReturn
  dsimp only
  rw [if_neg hlines, hstarts, hstop, hkept, hdrop]
  by_cases hlast : line.getLast? = some '\r'
  · rw [if_pos (hreturn.mpr hlast), if_pos hlast, List.dropLast_eq_take, List.take_append_of_le_length]
    · congr 1
      omega
    · omega
  · rw [if_neg fun h => hlast (hreturn.mp h), if_neg hlast, Nat.add_sub_cancel_left,
      List.take_left]

/-! What a token's location says of it, and what is printed under its line. -/

theorem caretIndent_eq (text : List Char) (column : Nat) :
    (caretIndent text column).length = column - 1 ∧
      ∀ i, i < column - 1 → (caretIndent text column)[i]? =
        some (if text[i]? = some '\t' then '\t' else ' ') := by
  constructor
  · rw [caretIndent, List.length_map, List.length_range]
  · intro i hi
    rw [caretIndent, List.getElem?_map, List.getElem?_range hi]
    rfl

/-- The heading, the line if there is one to show, and the caret under it. -/
theorem render_valid (engine : DiagnosticEngine) {level : DiagLevel} {loc : SourceLocation}
    (message : String) (useColor : Bool) (hvalid : loc.isValid = true) :
    engine.render ⟨level, loc, message⟩ useColor =
      engine.heading ⟨level, loc, message⟩ (if useColor then kBold else "")
          (if useColor then levelColor level else "") (if useColor then kReset else "") ++
        (if engine.lineText loc.line = [] ∧ loc.column ≤ 1 then ""
        else "  " ++ String.ofList (engine.lineText loc.line) ++ "\n" ++
          ("  " ++ String.ofList (caretIndent (engine.lineText loc.line) loc.column) ++
            (if useColor then levelColor level else "") ++ "^" ++
            (if useColor then kReset else "") ++ "\n")) := by
  unfold render
  dsimp only
  rw [if_pos hvalid]
  split
  · exact String.append_empty.symm
  · have hbreak : "\n  " = "\n" ++ "  " := by decide
    simp only [hbreak, String.append_assoc]

/-- The table of the engine leads from the location of every token to its lexeme, and the
caret stands below it. -/
theorem render_pointsAt (fileName : String) (source : List Char) (diags : Diagnostics) {i : Nat}
    {tok : Token} (h : (Lexer.tokenize { source := source, diags := diags }).1[i]? = some tok) :
    (∃ before, source = before ++ (tok.lexeme.toList ++
        (Lexer.after (i + 1) { source := source, diags := diags }).source) ∧
      (create fileName source).offset tok.loc = before.length) ∧
    (tok.kind = .endOfFile → (create fileName source).offset tok.loc = source.length) ∧
    ∃ line, (source.splitOn '\n')[tok.loc.line - 1]? = some line ∧
      (create fileName source).lineText tok.loc.line = trimReturn line ∧
      ∀ level message useColor, ∃ indent,
        (create fileName source).render ⟨level, tok.loc, message⟩ useColor =
          (create fileName source).heading ⟨level, tok.loc, message⟩
              (if useColor then kBold else "") (if useColor then levelColor level else "")
              (if useColor then kReset else "") ++
            (if trimReturn line = [] ∧ tok.loc.column ≤ 1 then ""
            else "  " ++ String.ofList (trimReturn line) ++ "\n" ++
              ("  " ++ String.ofList indent ++ (if useColor then levelColor level else "") ++
                "^" ++ (if useColor then kReset else "") ++ "\n")) ∧
        indent.length = tok.loc.column - 1 ∧
        ∀ i, i < tok.loc.column - 1 → indent[i]? =
          some (if (trimReturn line)[i]? = some '\t' then '\t' else ' ') := by
  obtain ⟨before, hfound⟩ := Lexer.tokenizeFrom_foundAt h
  obtain ⟨hsplit, hloc, hend⟩ := hfound
  dsimp only at hsplit hloc
  have hoffset : (create fileName source).offset tok.loc = before.length := by
    rw [hsplit, hloc]
    exact offset_eq fileName before _
  obtain ⟨hnumber, -, -⟩ := counted before
  rw [← hloc] at hnumber
  have hbound : tok.loc.line - 1 < (source.splitOn '\n').length := by
    rw [lines_length 0, hsplit, lineStartsFrom_append, List.length_append]
    omega
  refine ⟨⟨before, hsplit, hoffset⟩, ?_, _, List.getElem?_eq_getElem hbound, ?_⟩
  · intro hkind
    rw [hoffset]
    have hlength := congrArg List.length hsplit
    rw [hend hkind, List.append_nil] at hlength
    exact hlength.symm
  · have htext := lineText_eq fileName (by omega) (List.getElem?_eq_getElem hbound)
    refine ⟨htext, ?_⟩
    intro level message useColor
    obtain ⟨hlength, hindent⟩ := caretIndent_eq (trimReturn (source.splitOn '\n')[tok.loc.line - 1])
      tok.loc.column
    refine ⟨_, ?_, hlength, hindent⟩
    rw [← htext]
    exact render_valid _ message useColor (decide_eq_true (by omega))

/-- The second token of a source with both kinds of line ends and a tab. -/
theorem render_pointsAt_tab :
    (∃ before, "x\r\n\ty\n".toList = before ++ ['y', '\n'] ∧
      (create "t.cm" "x\r\n\ty\n".toList).offset ⟨2, 2⟩ = before.length) ∧
    ∃ line, ("x\r\n\ty\n".toList.splitOn '\n')[1]? = some line ∧
      (create "t.cm" "x\r\n\ty\n".toList).lineText 2 = trimReturn line ∧
      ∀ level message useColor, ∃ indent,
        (create "t.cm" "x\r\n\ty\n".toList).render ⟨level, ⟨2, 2⟩, message⟩ useColor =
          (create "t.cm" "x\r\n\ty\n".toList).heading ⟨level, ⟨2, 2⟩, message⟩
              (if useColor then kBold else "") (if useColor then levelColor level else "")
              (if useColor then kReset else "") ++
            (if trimReturn line = [] ∧ 2 ≤ 1 then ""
            else "  " ++ String.ofList (trimReturn line) ++ "\n" ++
              ("  " ++ String.ofList indent ++ (if useColor then levelColor level else "") ++
                "^" ++ (if useColor then kReset else "") ++ "\n")) ∧
        indent.length = 1 ∧
        ∀ i, i < 1 → indent[i]? =
          some (if (trimReturn line)[i]? = some '\t' then '\t' else ' ') := by
  have htok : (Lexer.tokenize { source := "x\r\n\ty\n".toList, diags := [] }).1[1]? =
      some { kind := .identifier, lexeme := "y", loc := ⟨2, 2⟩ } := by decide
  obtain ⟨hbefore, -, hrender⟩ := render_pointsAt "t.cm" _ [] htok
  exact ⟨hbefore, hrender⟩

end DiagnosticEngine

end CMinus
