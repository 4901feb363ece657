import Mathlib.Data.List.Basic

namespace CMinus

namespace Link

/-! The variables of the loop: what has been split off, the word at hand and the quote
that is open. -/

structure Splitter where
  words : List String := []
  current : List Char := []
  inWord : Bool := false
  quote : Option Char := none

def isQuote (c : Char) : Bool := c = '"' || c = '\''

def isBlank (c : Char) : Bool := c = ' ' || c = '\t' || c = '\n' || c = '\r'

def Splitter.step (s : Splitter) (c : Char) : Splitter :=
  match s.quote with
  | some quote =>
      if c = quote then { s with quote := none } else { s with current := s.current ++ [c] }
  | none =>
      if isQuote c then { s with quote := some c, inWord := true }
      else if isBlank c then
        if s.inWord then
          { s with words := s.words ++ [String.ofList s.current], current := [], inWord := false }
        else s
      else { s with current := s.current ++ [c], inWord := true }

def Splitter.finish (s : Splitter) : List String :=
  if s.inWord then s.words ++ [String.ofList s.current] else s.words

def splitCommand (command : String) : List String :=
  (command.toList.foldl Splitter.step {}).finish

def kDefaultDrivers : List String := ["cc", "clang", "gcc"]

/-- The words of the driver that `linkExecutable` runs.  An empty name is none. -/
def driverWords (driver fromEnvironment : String) (onPath : String → Bool) :
    Except String (List String) :=
  let named := if driver ≠ "" then driver else fromEnvironment
  if named ≠ "" then
    match splitCommand named with
    | [] => .error "the C compiler driver was given as an empty command"
    | words => .ok words
  else
    match kDefaultDrivers.find? onPath with
    | some candidate => .ok [candidate]
    | none =>
        .error ("no C compiler driver found on PATH (looked for cc, clang and " ++
          "gcc); name one with --cc or $CMINUS_CC, or use -c and link separately")

/-! What a command line says.  A piece, a word and a line, each with the way it is written. -/

inductive Piece : List Char → List Char → Prop where
  | plain (run : List Char) (nonempty : run ≠ [])
      (free : ∀ c ∈ run, isQuote c = false ∧ isBlank c = false) : Piece run run
  | quoted (quote : Char) (opens : isQuote quote = true) (run : List Char)
      (free : ∀ c ∈ run, c ≠ quote) : Piece run (quote :: (run ++ [quote]))

inductive Word : List Char → List Char → Prop where
  | piece {value written : List Char} (piece : Piece value written) : Word value written
  | join {value written value' written' : List Char} (piece : Piece value written)
      (word : Word value' written') : Word (value ++ value') (written ++ written')

inductive Line : List String → List Char → Prop where
  | blank {blanks : List Char} (gap : ∀ c ∈ blanks, isBlank c = true) : Line [] blanks
  | last {blanks : List Char} (gap : ∀ c ∈ blanks, isBlank c = true)
      {value written : List Char} (word : Word value written) :
      Line [String.ofList value] (blanks ++ written)
  | more {blanks : List Char} (gap : ∀ c ∈ blanks, isBlank c = true)
      {value written : List Char} (word : Word value written) {c : Char}
      (apart : isBlank c = true) {words : List String} {later : List Char}
      (rest : Line words later) :
      Line (String.ofList value :: words) (blanks ++ written ++ c :: later)

/-! What the loop makes of each. -/

theorem not_quote_of_blank {c : Char} (h : isBlank c = true) : isQuote c = false := by
  simp only [isBlank, Bool.or_eq_true, decide_eq_true_eq] at h
  rcases h with ((rfl | rfl) | rfl) | rfl <;> decide

theorem step_quoted (s : Splitter) {quote : Char} (hquote : s.quote = some quote)
    {run : List Char} (hrun : ∀ c ∈ run, c ≠ quote) :
    run.foldl Splitter.step s = { s with current := s.current ++ run } := by
  induction run generalizing s with
  | nil => rw [List.append_nil, List.foldl_nil]
  | cons c run ih =>
      rw [List.forall_mem_cons] at hrun
      have hstep : s.step c = { s with current := s.current ++ [c] } := by
        simp only [Splitter.step, hquote, if_neg hrun.1]
      rw [List.foldl_cons, hstep, ih { s with current := s.current ++ [c] } hquote hrun.2]
      simp only [List.append_assoc, List.singleton_append]

theorem step_plain (s : Splitter) (hquote : s.quote = none) (hword : s.inWord = true)
    {run : List Char} (hrun : ∀ c ∈ run, isQuote c = false ∧ isBlank c = false) :
    run.foldl Splitter.step s = { s with current := s.current ++ run } := by
  induction run generalizing s with
  | nil => rw [List.append_nil, List.foldl_nil]
  | cons c run ih =>
      rw [List.forall_mem_cons] at hrun
      have hstep : s.step c = { s with current := s.current ++ [c] } := by
        simp only [Splitter.step, hquote, hrun.1.1, hrun.1.2, hword, Bool.false_eq_true, if_false]
      rw [List.foldl_cons, hstep, ih { s with current := s.current ++ [c] } hquote hword hrun.2]
      simp only [List.append_assoc, List.singleton_append]

theorem Piece.run {value written : List Char} (h : Piece value written) (s : Splitter)
    (hquote : s.quote = none) : written.foldl Splitter.step s =
      { s with current := s.current ++ value, inWord := true } := by
  cases h with
  | plain _ nonempty free =>
      obtain ⟨c, run, rfl⟩ := List.exists_cons_of_ne_nil nonempty
      rw [List.forall_mem_cons] at free
      have hstep : s.step c = { s with current := s.current ++ [c], inWord := true } := by
        simp only [Splitter.step, hquote, free.1.1, free.1.2, Bool.false_eq_true, if_false]
      rw [List.foldl_cons, hstep,
        step_plain { s with current := s.current ++ [c], inWord := true } hquote rfl free.2]
      simp only [List.append_assoc, List.singleton_append]
  | quoted quote opens run free =>
      have hopen : s.step quote = { s with quote := some quote, inWord := true } := by
        simp only [Splitter.step, hquote, opens, if_true]
      rw [List.foldl_cons, hopen, List.foldl_append, step_quoted _ rfl free, List.foldl_cons,
        List.foldl_nil]
      simp only [Splitter.step, if_true, hquote]

theorem Word.run {value written : List Char} (h : Word value written) (s : Splitter)
    (hquote : s.quote = none) : written.foldl Splitter.step s =
      { s with current := s.current ++ value, inWord := true } := by
  induction h generalizing s with
  | piece piece => exact piece.run s hquote
  | join piece _ ih =>
      rw [List.foldl_append, piece.run s hquote,
        ih { s with current := s.current ++ _, inWord := true } hquote, List.append_assoc]

theorem run_blanks {blanks : List Char} (h : ∀ c ∈ blanks, isBlank c = true) (s : Splitter)
    (hquote : s.quote = none) (hword : s.inWord = false) : blanks.foldl Splitter.step s = s := by
  induction blanks with
  | nil => rfl
  | cons c blanks ih =>
      rw [List.forall_mem_cons] at h
      have hstep : s.step c = s := by
        simp only [Splitter.step, hquote, not_quote_of_blank h.1, h.1, hword, Bool.false_eq_true,
          if_false, if_true]
      rw [List.foldl_cons, hstep, ih h.2]

/-- Between two words nothing is left over from the first. -/
theorem Line.run {words : List String} {text : List Char} (h : Line words text)
    (before : List String) :
    (text.foldl Splitter.step { words := before }).finish = before ++ words := by
  induction h generalizing before with
  | blank gap =>
      rw [run_blanks gap _ rfl rfl, List.append_nil]
      rfl
  | last gap word =>
      rw [List.foldl_append, run_blanks gap _ rfl rfl, word.run _ rfl]
      rfl
  | @more blanks gap value written word c apart words later _ ih =>
      have hstep : Splitter.step { words := before, current := [] ++ value, inWord := true } c =
          { words := before ++ [String.ofList value] } := by
        simp only [Splitter.step, not_quote_of_blank apart, apart, Bool.false_eq_true, if_false,
          if_true, List.nil_append]
      rw [List.foldl_append, List.foldl_append, run_blanks gap _ rfl rfl, word.run _ rfl,
        List.foldl_cons, hstep, ih, List.append_assoc]
      rfl

/-- However a list of words is written down, it is what the command is split into. -/
theorem splitCommand_line {words : List String} {text : List Char} (h : Line words text) :
    splitCommand (String.ofList text) = words := by
  unfold splitCommand
  rw [String.toList_ofList]
  exact h.run []

/-- `cc 'a b'"" ''`, with a path that has a blank in it and an empty word at the end. -/
theorem splitCommand_line_quoted :
    splitCommand (String.ofList ("cc 'a b'\"\" ''".toList)) = ["cc", "a b", ""] := by
  have hcc : Word ['c', 'c'] ['c', 'c'] := .piece (.plain _ (by decide) (by simp [isQuote, isBlank]))
  have hpath : Word ['a', ' ', 'b'] ['\'', 'a', ' ', 'b', '\'', '"', '"'] :=
    .join (.quoted '\'' rfl ['a', ' ', 'b'] (by simp))
      (.piece (.quoted '"' rfl [] (by simp)))
  have hempty : Word [] ['\'', '\''] := .piece (.quoted '\'' rfl [] (by simp))
  have hgap : ∀ c ∈ ([] : List Char), isBlank c = true := by simp
  have hline : Line ["cc", "a b", ""] "cc 'a b'\"\" ''".toList :=
    .more hgap hcc rfl (.more hgap hpath rfl (.last hgap hempty))
  exact splitCommand_line hline

end Link

end CMinus
