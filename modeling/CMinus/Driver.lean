import CMinus.Lexer
import CMinus.Analyzer.Exact

namespace CMinus

/-! The driver, up to the generators: a stage runs only when the ones before it have
reported no error. -/

def frontEnd (source : String) : Option Program :=
  let scanned := Lexer.tokenize { source := source.toList }
  if scanned.2.diags.hasErrors then none
  else
    match (Parser.make scanned.1 scanned.2.diags).parseProgram with
    | none => none
    | some (program, parser) =>
        if parser.diags.hasErrors then none
        else
          let analyzed := SemanticAnalyzer.analyze program {}
          if (parser.diags ++ analyzed.2.2).hasErrors then none else some analyzed.1

/-- What these stages record. -/
def frontEndDiags (source : String) : Diagnostics :=
  let scanned := Lexer.tokenize { source := source.toList }
  if scanned.2.diags.hasErrors then scanned.2.diags
  else
    match (Parser.make scanned.1 scanned.2.diags).parseProgram with
    | none => scanned.2.diags
    | some (program, parser) =>
        if parser.diags.hasErrors then parser.diags
        else parser.diags ++ (SemanticAnalyzer.analyze program {}).2.2

/-! What the scanner hands out when it reports nothing. -/

namespace Lexer

structure Scanned (tok : Token) : Prop where
  letters : tok.kind = .identifier → ∀ c ∈ tok.lexeme.toList, isLetter c = true
  value : tok.kind = .number → tok.value = (decimalValue tok.lexeme.toList : Nat) ∧
    decimalValue tok.lexeme.toList < 2 ^ 63
  digits : tok.kind = .number → ∀ c ∈ tok.lexeme.toList, isDigit c = true

theorem Scanned.other {tok : Token} (hidentifier : tok.kind ≠ .identifier)
    (hnumber : tok.kind ≠ .number) : Scanned tok :=
  ⟨fun h => absurd h hidentifier, fun h => absurd h hnumber, fun h => absurd h hnumber⟩

/-- `fresh` tells whether the scanner reported something on the way. -/
structure Scans (diags : Diagnostics) (result : Token × Lexer) : Prop where
  more : ∃ new, result.2.diags = diags ++ new ∧ ∀ d ∈ new, d.level = .error
  scanned : result.2.diags = diags → Scanned result.1

theorem Scans.quiet {diags : Diagnostics} {tok : Token} {l : Lexer}
    (hlx : l.diags = diags) (htok : Scanned tok) : Scans diags (tok, l) :=
  ⟨⟨[], by simp [hlx], by simp⟩, fun _ => htok⟩

theorem Scans.report {diags : Diagnostics} {tok : Token} {l : Lexer}
    (hlx : l.diags = diags) (loc : SourceLocation) (message : String) :
    Scans diags (tok, l.error loc message) := by
  subst hlx
  refine ⟨⟨[⟨.error, loc, message⟩], rfl, by simp⟩, fun hsame => ?_⟩
  have hlength := congrArg List.length hsame
  simp [error, Diagnostics.error, Diagnostics.add] at hlength

theorem scans_finishNumber {diags : Diagnostics} {start : SourceLocation} {text : List Char}
    {lx : Lexer} (hlx : lx.diags = diags) (hdigits : ∀ c ∈ text, isDigit c = true) :
    Scans diags (finishNumber start text lx) := by
  unfold finishNumber
  cases hvalue : fromChars text with
  | none => exact .report hlx _ _
  | some value =>
      refine .quiet hlx ⟨fun h => (by cases h), fun _ => ?_,
        fun _ => (by simpa [make] using hdigits)⟩
      unfold fromChars at hvalue
      split at hvalue
      · next hlt =>
          cases hvalue
          simpa [make] using hlt
      · cases hvalue

theorem scans_word {diags : Diagnostics} {start : SourceLocation} {text : List Char}
    {lx : Lexer} (hlx : lx.diags = diags) (hletters : ∀ c ∈ text, isLetter c = true) :
    Scans diags
      (make (keywordOrIdentifier (String.ofList text)) start (String.ofList text), lx) := by
  have hkind : ∀ s, keywordOrIdentifier s ≠ .number := by
    intro s
    unfold keywordOrIdentifier
    repeat' split
    all_goals simp
  exact .quiet hlx ⟨fun _ => (by simpa [make] using hletters), fun h => absurd h (hkind _),
    fun h => absurd h (hkind _)⟩

/-- What the text read so far consists of. -/
def Reading : State → List Char → Prop
  | .inIdentifier, text => ∀ c ∈ text, isLetter c = true
  | .inNumber, text => ∀ c ∈ text, isDigit c = true
  | _, _ => True

theorem snoc_all {p : Char → Bool} {text : List Char} {c : Char}
    (htext : ∀ d ∈ text, p d = true) (hc : p c = true) : ∀ d ∈ text ++ [c], p d = true := by
  intro d hd
  rcases List.mem_append.mp hd with hd | hd
  · exact htext d hd
  · rw [List.mem_singleton.mp hd]
    exact hc

theorem singleCharacter_other {c : Char} {kind : TokenKind}
    (h : singleCharacter c = some kind) : kind ≠ .identifier ∧ kind ≠ .number := by
  unfold singleCharacter at h
  split at h <;> simp_all <;> subst h <;> simp

theorem twoCharacters_reading {c : Char} {state : State} (h : twoCharacters c = some state) :
    Reading state [] := by
  unfold twoCharacters at h
  split at h <;> simp_all <;> subst h <;> trivial

theorem scans_nextFrom (source : List Char) : ∀ (state : State) (start : SourceLocation)
    (text : List Char) (loc : SourceLocation) (diags : Diagnostics), Reading state text →
    Scans diags (nextFrom state start text loc diags source) := by
  induction source with
  | nil =>
      intro state start text loc diags h
      unfold nextFrom
      cases state with
      | inIdentifier => exact scans_word rfl h
      | inNumber => exact scans_finishNumber rfl h
      | inComment | inCommentStar | afterBang =>
          exact .report (l := { source := [], loc := loc, diags := diags }) rfl _ _
      | start | afterSlash | afterLess | afterGreater | afterAssign =>
          exact .quiet rfl (.other (by simp [make]) (by simp [make]))
  | cons c rest ih =>
      intro state start text loc diags h
      unfold nextFrom
      cases state with
      | start =>
          dsimp only
          split
          · next hc => exact ih _ _ _ _ _ (by simpa [Reading] using hc)
          split
          · next hc => exact ih _ _ _ _ _ (by simpa [Reading] using hc)
          split
          · exact ih _ _ _ _ _ trivial
          split
          · next state hstate => exact ih _ _ _ _ _ (twoCharacters_reading hstate)
          · split
            · next kind hkind =>
                obtain ⟨hidentifier, hnumber⟩ := singleCharacter_other hkind
                exact .quiet rfl (.other hidentifier hnumber)
            · exact .report (l := { source := rest, loc := past loc c, diags := diags })
                rfl _ _
      | inIdentifier =>
          dsimp only
          split
          · next hc => exact ih _ _ _ _ _ (snoc_all h hc)
          · exact scans_word rfl h
      | inNumber =>
          dsimp only
          split
          · next hc => exact ih _ _ _ _ _ (snoc_all h hc)
          · exact scans_finishNumber rfl h
      | inComment =>
          dsimp only
          split <;> exact ih _ _ _ _ _ trivial
      | inCommentStar =>
          dsimp only
          split
          · exact ih _ _ _ _ _ trivial
          split <;> exact ih _ _ _ _ _ trivial
      | afterSlash =>
          dsimp only
          split
          · exact ih _ _ _ _ _ trivial
          · exact .quiet rfl (.other (by simp [make]) (by simp [make]))
      | afterLess | afterGreater | afterAssign =>
          dsimp only
          split <;> exact .quiet rfl (.other (by simp [make]) (by simp [make]))
      | afterBang =>
          dsimp only
          split
          · exact .quiet (l := { source := rest, loc := past loc c, diags := diags }) rfl
              (.other (by simp [make]) (by simp [make]))
          · exact .report (l := { source := c :: rest, loc := loc, diags := diags }) rfl _ _

/-- Errors stay, so a quiet end means that every token was scanned quietly. -/
theorem scans_tokenizeFrom (limit : Nat) : ∀ lx : Lexer,
    ∃ new, (tokenizeFrom limit lx).2.diags = lx.diags ++ new ∧
      (∀ d ∈ new, d.level = .error) ∧
      (new = [] → ∀ tok ∈ (tokenizeFrom limit lx).1, Scanned tok) := by
  induction limit with
  | zero =>
      intro lx
      exact ⟨[], by simp [tokenizeFrom], by simp, fun _ tok htok => by cases htok⟩
  | succ limit ih =>
      intro lx
      have hscans : Scans lx.diags lx.next := scans_nextFrom lx.source _ _ _ _ _ trivial
      obtain ⟨first, hfirst, hlevel⟩ := hscans.more
      have hscanned : first = [] → Scanned lx.next.1 := by
        rintro rfl
        exact hscans.scanned (by simpa using hfirst)
      unfold tokenizeFrom
      dsimp only
      split
      · refine ⟨first, hfirst, hlevel, fun hnil tok htok => ?_⟩
        rw [List.mem_singleton.mp htok]
        exact hscanned hnil
      · obtain ⟨new, hnew, hlevel', hrest⟩ := ih lx.next.2
        refine ⟨first ++ new, by rw [hnew, hfirst, List.append_assoc], ?_, ?_⟩
        · intro d hd
          exact (List.mem_append.mp hd).elim (hlevel d) (hlevel' d)
        · intro hnil tok htok
          obtain ⟨hf, hn⟩ := List.append_eq_nil_iff.mp hnil
          rcases List.mem_cons.mp htok with rfl | htok
          · exact hscanned hf
          · exact hrest hn tok htok

theorem scanned_tokenize {source : List Char}
    (h : (tokenize { source := source }).2.diags.errorCount = 0) :
    (tokenize { source := source }).2.diags = [] ∧
      ∀ tok ∈ (tokenize { source := source }).1, Scanned tok := by
  obtain ⟨new, hnew, hlevel, hscanned⟩ :=
    scans_tokenizeFrom (source.length + 1) { source := source }
  have hnil : new = [] := by
    cases new with
    | nil => rfl
    | cons d new =>
        unfold tokenize at h
        rw [hnew] at h
        simp [Diagnostics.errorCount, hlevel d List.mem_cons_self] at h
  subst hnil
  exact ⟨hnew, hscanned rfl⟩

end Lexer

/-! What a program is made of that passes all three stages. -/

structure Accepted (source : String) (program : Program) : Prop where
  scanned : ∀ tok ∈ (Lexer.tokenize { source := source.toList }).1, Lexer.Scanned tok
  parsed : ∃ tree parser,
    (Parser.make (Lexer.tokenize { source := source.toList }).1 []).parseProgram =
        some (tree, parser) ∧
      parser.diags.errorCount = 0 ∧ (SemanticAnalyzer.analyze tree {}).2.2.errorCount = 0 ∧
      program = (SemanticAnalyzer.analyze tree {}).1

theorem accepted_of_frontEnd {source : String} {program : Program}
    (h : frontEnd source = some program) : Accepted source program := by
  unfold frontEnd at h
  dsimp only at h
  split at h
  · cases h
  · next hscan =>
      obtain ⟨hnil, hscanned⟩ := Lexer.scanned_tokenize (by simpa using hscan)
      rw [hnil] at h
      split at h
      · cases h
      · next tree parser hparse =>
          split at h
          · cases h
          · next hparsed =>
              split at h
              · cases h
              · next hanalyzed =>
                  cases h
                  refine ⟨hscanned, tree, parser, hparse, by simpa using hparsed, ?_, rfl⟩
                  have hcount : parser.diags.errorCount +
                      (SemanticAnalyzer.analyze tree {}).2.2.errorCount = 0 := by
                    simpa using hanalyzed
                  omega

open Grammar in
/-- A declaration is named by an identifier, and its type is not an array's. -/
theorem declared_names {w : List Token} {decls : List Decl} (h : DeclarationList w decls) :
    ∀ decl ∈ decls, (∃ tok ∈ w, tok.kind = .identifier ∧ decl.name = tok.lexeme) ∧
      ∀ f, decl = .fun f → f.returnType ≠ .intArray := by
  have hone : ∀ {w : List Token} {decl : Decl}, Declaration w decl →
      (∃ tok ∈ w, tok.kind = .identifier ∧ decl.name = tok.lexeme) ∧
        ∀ f, decl = .fun f → f.returnType ≠ .intArray := by
    intro w decl h
    cases h with
    | var h =>
        refine ⟨?_, fun f hf => by cases hf⟩
        cases h with
        | scalar _ hname _ => exact ⟨_, by simp, hname, rfl⟩
        | array _ hname _ _ _ _ => exact ⟨_, by simp, hname, rfl⟩
    | «fun» h =>
        cases h with
        | mk htype hname _ _ _ _ =>
            refine ⟨⟨_, by simp, hname, rfl⟩, ?_⟩
            rintro f ⟨⟩
            generalize (Token.kind _) = kind at htype
            cases htype <;> simp
  induction h with
  | @snoc v w decls decl hdecls hdecl ih =>
      intro other hmem
      rcases List.mem_append.mp hmem with hmem | hmem
      · obtain ⟨⟨tok, htok, hname⟩, htype⟩ := ih other hmem
        exact ⟨⟨tok, List.mem_append_left _ htok, hname⟩, htype⟩
      · rw [List.mem_singleton.mp hmem]
        obtain ⟨⟨tok, htok, hname⟩, htype⟩ := hone hdecl
        exact ⟨⟨tok, List.mem_append_right _ htok, hname⟩, htype⟩
  | one hdecl =>
      intro other hmem
      rw [List.mem_singleton.mp hmem]
      exact hone hdecl

namespace Accepted

open SemanticAnalyzer Static Grammar

variable {source : String} {program : Program} (h : Accepted source program)
include h

theorem resolved : program.Resolved := by
  obtain ⟨tree, parser, hparse, hparsed, hanalyzed, rfl⟩ := h.parsed
  have hjudges := judges_analyze tree (parsed_nonempty hparse hparsed)
  exact (hjudges.result (hjudges.exact.mp hanalyzed)).1

/-- The tree before analysis is the tree of a derivation. -/
theorem derived : ∃ tree w, (∀ tok ∈ w, Lexer.Scanned tok) ∧ Derives w tree.bare ∧
    RulesButDiscard tree ∧ program.decls.map outline = tree.decls.map outline ∧
    program.decls.map Decl.name = tree.decls.map Decl.name := by
  obtain ⟨tree, parser, hparse, hparsed, hanalyzed, rfl⟩ := h.parsed
  have hjudges := judges_analyze tree (parsed_nonempty hparse hparsed)
  have hok := hjudges.exact.mp hanalyzed
  obtain ⟨-, houtline, hnames⟩ := hjudges.result hok
  obtain ⟨w, hw, hder⟩ := Parser.parsed_derives hparse hparsed
  exact ⟨tree, w, fun tok htok => h.scanned tok (hw tok htok), hder, hok, houtline, hnames⟩

/-- The names come from the source: letters and nothing else. -/
theorem letters {decl : Decl} (hdecl : decl ∈ program.decls) :
    ∀ c ∈ decl.name.toList, isLetter c = true := by
  obtain ⟨tree, w, hw, hder, -, -, hnames⟩ := h.derived
  have hmem : decl.name ∈ tree.decls.map Decl.name := by
    rw [← hnames]
    exact List.mem_map_of_mem hdecl
  obtain ⟨decl', hdecl', hname⟩ := List.mem_map.mp hmem
  obtain ⟨hlist⟩ := hder
  obtain ⟨⟨tok, htok, hkind, hlexeme⟩, -⟩ :=
    declared_names hlist decl'.bare (List.mem_map_of_mem hdecl')
  have hbare : decl'.bare.name = decl'.name := by
    cases decl' <;> rfl
  rw [← hname, ← hbare, hlexeme]
  exact (hw tok htok).letters hkind

theorem returnType {decl : FunDecl} (hdecl : .fun decl ∈ program.decls) :
    decl.returnType ≠ .intArray := by
  obtain ⟨tree, w, hw, hder, -, houtline, -⟩ := h.derived
  have hmem : outline (.fun decl) ∈ tree.decls.map outline := by
    rw [← houtline]
    exact List.mem_map_of_mem hdecl
  obtain ⟨decl', hdecl', hsame⟩ := List.mem_map.mp hmem
  obtain ⟨hlist⟩ := hder
  obtain ⟨-, htype⟩ := declared_names hlist decl'.bare (List.mem_map_of_mem hdecl')
  cases decl' with
  | var decl' => cases hsame
  | «fun» decl' =>
      have hreturn : decl'.returnType = decl.returnType := by
        simp only [outline, Option.some.injEq, Prod.mk.injEq] at hsame
        exact hsame.2.1
      rw [← hreturn]
      exact htype decl'.bare rfl

end Accepted

end CMinus
