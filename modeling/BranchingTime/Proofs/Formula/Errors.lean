import BranchingTime.Proofs.Formula.Prefixes
import Mathlib.Data.List.Basic

/-!
# BranchingTime — where parsing fails

An error stands at the first token with which no sentence can go on. The kinds
that it lists could all come there. The list is that of the innermost operator
without an open end, though, and a negation inside the operand of an until can
take a connective that the until does not ask for. Connectives are not listed
there.

## Results

* `exists_stop` — the automaton in front of the token that it does not take.
* `parse_error_is_first` — the place of an error, and what could stand there.
* `mayFollow_iff_listed` — which kinds could stand there and are not listed.
-/

namespace BranchingTime

theorem Token.exists_of_kind (kind : Token.Kind) : ∃ token : Token, token.kind = kind := by
  cases kind with
  | atom => exact ⟨.atom "p", rfl⟩
  | not => exact ⟨.not, rfl⟩
  | connective op => exact ⟨.connective op, rfl⟩
  | temporal q p => exact ⟨.temporal q p, rfl⟩
  | quantifier q => exact ⟨.quantifier q, rfl⟩
  | untl => exact ⟨.untl, rfl⟩
  | leftParen => exact ⟨.leftParen, rfl⟩
  | rightParen => exact ⟨.rightParen, rfl⟩
  | invalid => exact ⟨.invalid '&', rfl⟩
  | endOfText => exact ⟨.endOfText, rfl⟩

namespace Formula

namespace Parser

-- ---------------------------------------------------------------------------
-- Errors of the automaton
-- ---------------------------------------------------------------------------

theorem resume_eq_error {found : LocatedToken} {nodes : Array (Node Nat)} {stack : List Frame}
    {e : ParseError} (h : resume found nodes stack = .error e) :
    e = { position := found.offset, found := found.token, expected := awaited stack } := by
  induction stack generalizing nodes with
  | nil =>
    rw [resume] at h
    split at h
    · cases h
    · cases h
    · exact (Except.error.inj h).symm
  | cons frame stack ih =>
    cases frame with
    | not =>
      rw [resume] at h
      split at h
      · cases h
      · exact ih h
    | connective op left =>
      rw [resume] at h
      split at h
      · cases h
      · exact ih h
    | temporal q p =>
      rw [resume] at h
      exact ih h
    | group =>
      rw [resume] at h
      split at h
      · cases h
      · cases h
      · exact (Except.error.inj h).symm
    | untlLeft q =>
      rw [resume] at h
      split at h
      · cases h
      · exact (Except.error.inj h).symm
    | untlRight q left =>
      rw [resume] at h
      split at h
      · cases h
      · exact (Except.error.inj h).symm

/-- An error names the token that was found, and lists what was expected. -/
theorem step_eq_error {parser : Parser} {found : LocatedToken} {e : ParseError}
    (h : parser.step found = .error e) :
    e = { position := found.offset, found := found.token, expected := parser.expected } ∧
      parser.advance found.token = none := by
  have hNone : parser.advance found.token = none := by
    rw [← toOption_step, h]
    rfl
  refine ⟨?_, hNone⟩
  obtain ⟨nodes, stack, phase⟩ := parser
  cases phase with
  | operand =>
    simp only [step] at h
    split at h
    · cases h
    · cases h
    · cases h
    · cases h
    · cases h
    · exact (Except.error.inj h).symm
  | opening q =>
    simp only [step] at h
    split at h
    · cases h
    · exact (Except.error.inj h).symm
  | continuation => exact resume_eq_error h
  | done => cases h

/-- A run with an error reads the tokens in front of the one that is not taken. -/
theorem run_eq_error {parser : Parser} {tokens : List LocatedToken} {e : ParseError}
    (h : parser.run tokens = .error e) :
    ∃ before found after next, tokens = before ++ found :: after ∧
      parser.read (before.map LocatedToken.token) = some next ∧ next.step found = .error e := by
  induction tokens generalizing parser with
  | nil => cases h
  | cons first rest ih =>
    rw [run] at h
    cases hStep : parser.step first with
    | error e' =>
      rw [hStep] at h
      obtain rfl : e' = e := Except.error.inj h
      exact ⟨[], first, rest, parser, rfl, rfl, hStep⟩
    | ok middle =>
      rw [hStep] at h
      obtain ⟨before, found, after, next, rfl, hRead, hError⟩ := ih h
      refine ⟨first :: before, found, after, next, rfl, ?_, hError⟩
      have hFirst : parser.advance first.token = some middle := by
        rw [← toOption_step, hStep]
        rfl
      rw [List.map_cons, read, hFirst, Option.bind_some, hRead]

end Parser

open Formula.Parser

-- ---------------------------------------------------------------------------
-- Errors in texts
-- ---------------------------------------------------------------------------

theorem parses_iff_read {text : String} :
    (∃ f, parse text = .ok f) ↔ ∃ parser, start.read (Token.lex text.toList) = some parser := by
  simp only [parse_eq_ok_iff]
  constructor
  · rintro ⟨f, parser, hRead, -⟩
    exact ⟨parser, hRead⟩
  · rintro ⟨parser, hRead⟩
    exact ⟨_, parser, hRead, rfl⟩

/-- The text is parsed up to the token `found`, behind the tokens `before`, where
the automaton is left as `parser` and does not take the token. -/
structure StopsAt (text : String) (e : ParseError) (before : List LocatedToken)
    (found : LocatedToken) (parser : Parser) : Prop where
  splits : ∃ after, tokenize text = before ++ found :: after
  reads : start.read (before.map LocatedToken.token) = some parser
  refuses : parser.advance found.token = none
  error : e = { position := found.offset, found := found.token, expected := parser.expected }

theorem exists_stop {text : String} {e : ParseError} (h : parse text = .error e) :
    ∃ before found parser, StopsAt text e before found parser := by
  have hRun : start.run (tokenize text) = .error e := by
    rw [parse] at h
    cases hRun : start.run (tokenize text) with
    | ok parser =>
      rw [hRun] at h
      cases h
    | error e' =>
      rw [hRun] at h
      exact congrArg Except.error (Except.error.inj h)
  obtain ⟨before, found, after, parser, hTokens, hRead, hStep⟩ := run_eq_error hRun
  obtain ⟨hError, hNone⟩ := step_eq_error hStep
  exact ⟨before, found, parser, ⟨after, hTokens⟩, hRead, hNone, hError⟩

namespace StopsAt

variable {text : String} {e : ParseError} {before : List LocatedToken} {found : LocatedToken}
  {parser : Parser} (h : StopsAt text e before found parser)
include h

/-- The token that is not taken is the end token behind all others, or one of
those. -/
theorem found_cases {tokens : List Token} (hLex : Token.lex text.toList = tokens ++ [.endOfText]) :
    (found.token = .endOfText ∧ before.map LocatedToken.token = tokens) ∨
      ∃ later, tokens = before.map LocatedToken.token ++ found.token :: later := by
  obtain ⟨after, hTokens⟩ := h.splits
  rw [← Token.map_token_tokenize, hTokens, List.map_append, List.map_cons] at hLex
  rcases (after.map LocatedToken.token).eq_nil_or_concat with hNil | ⟨later, last, hLast⟩
  · rw [hNil] at hLex
    obtain ⟨hBefore, hFound⟩ := List.append_inj' hLex rfl
    exact .inl ⟨(List.cons.inj hFound).1, hBefore⟩
  · rw [hLast, List.concat_eq_append, ← List.cons_append, ← List.append_assoc] at hLex
    exact .inr ⟨later, (List.append_inj' hLex rfl).1.symm⟩

theorem noEnd : .endOfText ∉ before.map LocatedToken.token := by
  obtain ⟨tokens, hLex, hInside⟩ := Token.lex_eq_append text.toList
  intro hMem
  rcases h.found_cases hLex with ⟨-, rfl⟩ | ⟨later, rfl⟩
  · exact hInside _ hMem
  · exact hInside _ (List.mem_append_left _ hMem)

theorem reads_tokens : Reads (before.map LocatedToken.token) parser := by
  have hStart : Reads [] start := Opened.start
  exact reads_read hStart h.noEnd h.reads

theorem phase_ne_done : parser.phase ≠ .done :=
  Parser.phase_ne_done h.reads_tokens h.noEnd

/-- A sentence may go on with those tokens that the automaton would take. -/
theorem mayFollow_iff (token : Token) :
    token.MayFollow (before.map LocatedToken.token) ↔ ∃ next, parser.advance token = some next :=
  mayFollow_iff_advance h.noEnd h.reads token

/-- Every listed kind could stand where the error is. -/
theorem mayFollow_of_listed {kind : Token.Kind} (hKind : kind ∈ e.expected) :
    kind.MayFollow (before.map LocatedToken.token) := by
  obtain ⟨token, rfl⟩ := Token.exists_of_kind kind
  refine ⟨token, rfl, (h.mayFollow_iff token).mpr ?_⟩
  rw [isSome_advance_iff h.phase_ne_done]
  rw [h.error] at hKind
  exact .inl hKind

/-- All tokens before the error could follow those before them. -/
theorem mayFollow_earlier {earlier later : List LocatedToken} {token : LocatedToken}
    (hBefore : before = earlier ++ token :: later) :
    token.token.MayFollow (earlier.map LocatedToken.token) := by
  have hEnd := h.noEnd
  have hReads := h.reads
  rw [hBefore, List.map_append, List.map_cons] at hEnd hReads
  rw [read_append] at hReads
  obtain ⟨middle, hMiddle, hRest⟩ := Option.bind_eq_some_iff.mp hReads
  obtain ⟨next, hNext, -⟩ := Option.bind_eq_some_iff.mp hRest
  refine (mayFollow_iff_advance ?_ hMiddle token.token).mpr ⟨next, hNext⟩
  exact fun hMem => hEnd (List.mem_append_left _ hMem)

end StopsAt

-- ---------------------------------------------------------------------------
-- Texts that are cut short
-- ---------------------------------------------------------------------------

/-- Tokens that words spell are the tokens of a text. -/
theorem exists_text {tokens : List Token}
    (hSpelled : ∀ token ∈ tokens, ∃ word, Token.Spells word [token]) :
    ∃ text : String, Token.lex text.toList = tokens ++ [.endOfText] := by
  induction tokens with
  | nil => exact ⟨"", Token.lex_nil⟩
  | cons token rest ih =>
    obtain ⟨⟨word, hWord⟩, hRest⟩ := List.forall_mem_cons.mp hSpelled
    obtain ⟨text, hText⟩ := ih hRest
    refine ⟨word ++ (" " ++ text), ?_⟩
    rw [String.toList_append, hWord _ (by simp), String.toList_append, Token.lex_blank, hText]
    rfl

theorem exists_text_of_completion (parser : Parser) :
    ∃ text : String, Token.lex text.toList = parser.completion ++ [.endOfText] := by
  refine exists_text fun token hToken => ?_
  have hMem := mem_completion hToken
  simp only [List.mem_cons, List.not_mem_nil, or_false] at hMem
  rcases hMem with rfl | rfl | rfl | rfl
  · exact ⟨"p", Token.spells_atom (by decide)⟩
  · exact ⟨"U", Token.spells_keyword (by decide)⟩
  · exact ⟨"(", fun cs _ => Token.lex_open cs⟩
  · exact ⟨")", fun cs _ => Token.lex_close cs⟩

/-- A blank and more text add tokens behind those of a text. -/
theorem lex_extended {text : String} {tokens : List Token}
    (hLex : Token.lex text.toList = tokens ++ [.endOfText]) (more : String) :
    Token.lex (text ++ " " ++ more).toList = tokens ++ Token.lex more.toList := by
  obtain ⟨tokens', -, hAppend⟩ := Token.lex_append text.toList
  have hTokens : tokens' = tokens := by
    have hAlone := hAppend [] (by simp)
    rw [List.append_nil, Token.lex_nil, hLex] at hAlone
    exact (List.append_cancel_right hAlone).symm
  rw [String.toList_append, String.toList_append, List.append_assoc, hAppend _ (by simp),
    Token.lex_blank, hTokens]

/-- The end of a text is unexpected iff a blank and more text make a formula of
it. -/
theorem isUnexpectedEnd_iff {text : String} {e : ParseError} (h : parse text = .error e) :
    e.isUnexpectedEnd = true ↔ ∃ more f, parse (text ++ " " ++ more) = .ok f := by
  obtain ⟨before, found, parser, hStop⟩ := exists_stop h
  obtain ⟨tokens, hLex, hInside⟩ := Token.lex_eq_append text.toList
  have hFound : e.isUnexpectedEnd = true ↔ found.token = .endOfText := by
    rw [hStop.error, ParseError.isUnexpectedEnd, decide_eq_true_eq]
  simp only [parses_iff_read, lex_extended hLex, hFound]
  constructor
  · intro hEnd
    have hTokens : before.map LocatedToken.token = tokens := by
      rcases hStop.found_cases hLex with ⟨-, hTokens⟩ | ⟨later, rfl⟩
      · exact hTokens
      · rw [hEnd] at hInside
        exact absurd (hInside .endOfText (by simp)) id
    obtain ⟨more, hMore⟩ := exists_text_of_completion parser
    refine ⟨more, ?_⟩
    rw [hMore, ← hTokens, ← List.append_assoc]
    exact read_completed hStop.reads
  · rintro ⟨more, last, hRead⟩
    rcases hStop.found_cases hLex with ⟨hEnd, -⟩ | ⟨later, rfl⟩
    · exact hEnd
    · -- the token that was not taken would have been read with more text
      rw [List.append_assoc, read_append, hStop.reads, Option.bind_some, List.cons_append,
        Parser.read, hStop.refuses] at hRead
      cases hRead

/-- **Errors are found at the first token that can be one.** An error stands at a
token of the text, behind tokens that start a sentence and each of which may
follow those before it; no sentence goes on with the token itself. Every listed
kind could stand there instead. The error is at the end of the text iff the text
is no formula, but a blank and some more text make one of it. -/
theorem parse_error_is_first (text : String) :
    (∀ e, parse text = .error e →
      ∃ before found after, tokenize text = before ++ found :: after ∧
        e.position = found.offset ∧ e.found = found.token ∧
        StartsSentence (before.map LocatedToken.token) ∧
        (∀ earlier token later, before = earlier ++ token :: later →
          token.token.MayFollow (earlier.map LocatedToken.token)) ∧
        ¬ found.token.MayFollow (before.map LocatedToken.token) ∧
        ∀ kind ∈ e.expected, kind.MayFollow (before.map LocatedToken.token)) ∧
    ((∃ e, parse text = .error e ∧ e.isUnexpectedEnd = true) ↔
      (¬ ∃ f, parse text = .ok f) ∧ ∃ more f, parse (text ++ " " ++ more) = .ok f) := by
  constructor
  · intro e h
    obtain ⟨before, found, parser, hStop⟩ := exists_stop h
    obtain ⟨after, hTokens⟩ := hStop.splits
    refine ⟨before, found, after, hTokens, ?_, ?_, ?_, ?_, ?_, ?_⟩
    · rw [hStop.error]
    · rw [hStop.error]
    · exact (startsSentence_iff_read hStop.noEnd).mpr ⟨parser, hStop.reads⟩
    · exact fun earlier token later hBefore => hStop.mayFollow_earlier hBefore
    · rw [hStop.mayFollow_iff, hStop.refuses]
      exact fun ⟨next, hNext⟩ => nomatch hNext
    · exact fun kind hKind => hStop.mayFollow_of_listed hKind
  · constructor
    · rintro ⟨e, h, hEnd⟩
      refine ⟨?_, (isUnexpectedEnd_iff h).mp hEnd⟩
      rintro ⟨f, hParse⟩
      rw [h] at hParse
      cases hParse
    · rintro ⟨hFails, hMore⟩
      cases h : parse text with
      | ok f => exact absurd ⟨f, h⟩ hFails
      | error e => exact ⟨e, rfl, (isUnexpectedEnd_iff h).mpr hMore⟩

/-- In `E(p AND q)` the connective is found where only `U` could stand, and `E(p` is
the start of a formula. -/
theorem parse_error_is_first_in_until :
    let e : ParseError := { position := 4, found := .connective .and, expected := [.untl] }
    parse "E(p AND q)" = .error e ∧
      (∃ before found after, tokenize "E(p AND q)" = before ++ found :: after ∧
        found = ⟨.connective .and, 4⟩ ∧ StartsSentence (before.map LocatedToken.token) ∧
        ¬ found.token.MayFollow (before.map LocatedToken.token) ∧
        Token.Kind.untl.MayFollow (before.map LocatedToken.token)) ∧
      (∃ e, parse "E(p" = .error e ∧ e.isUnexpectedEnd = true) ∧
      ∃ more f, parse ("E(p" ++ " " ++ more) = .ok f := by
  intro e
  have hParse : parse "E(p AND q)" = .error e := by decide +kernel
  have hEnd : parse "E(p" = .error { position := 3, found := .endOfText, expected := [.untl] } := by
    decide +kernel
  obtain ⟨before, found, after, hTokens, hPosition, hFound, hStarts, -, hNot, hListed⟩ :=
    (parse_error_is_first "E(p AND q)").1 e hParse
  refine ⟨hParse, ⟨before, found, after, hTokens, ?_, hStarts, hNot, ?_⟩, ⟨_, hEnd, rfl⟩, ?_⟩
  · cases found
    rw [LocatedToken.mk.injEq]
    exact ⟨hFound.symm, hPosition.symm⟩
  · exact hListed .untl (List.mem_singleton.mpr rfl)
  · exact ((parse_error_is_first "E(p").2.mp ⟨_, hEnd, rfl⟩).2

-- ---------------------------------------------------------------------------
-- Connectives that are not listed
-- ---------------------------------------------------------------------------

/-- Is this the list for the end of an operand of an until? -/
def EndsUntilOperand (kinds : List Token.Kind) : Prop :=
  kinds = [.untl] ∨ kinds = [.rightParen]

theorem not_endsUntilOperand_afterFormula : ¬ EndsUntilOperand afterFormula := by
  rintro (h | h) <;> cases h

theorem not_endsUntilOperand_afterGrouped : ¬ EndsUntilOperand afterGrouped := by
  rintro (h | h) <;> cases h

theorem awaited_cases (op : Connective) (stack : List Frame) :
    .connective op ∈ awaited stack ∨ EndsUntilOperand (awaited stack) := by
  induction stack with
  | nil => cases op <;> simp [awaited, afterFormula, connectiveKinds]
  | cons frame stack ih =>
    cases frame with
    | group => cases op <;> simp [awaited, afterGrouped, connectiveKinds]
    | untlLeft q => exact .inr (.inl rfl)
    | untlRight q left => exact .inr (.inr rfl)
    | _ => exact ih

/-- Where connectives are taken at the end of an operand of an until, there is a
negation in the operand that has a complete formula behind it. -/
theorem exists_negation_of_takesConnective {stack : List Frame} {tokens operand : List Token}
    {nodes : List (Node Nat)} {t : Tree} (hOpened : Opened tokens nodes stack)
    (hComplete : IsComplete .endOfText stack operand t) (hTakes : TakesConnective stack)
    (hUntil : EndsUntilOperand (awaited stack)) :
    ∃ outer inner, tokens ++ operand = outer ++ .not :: inner ∧ IsSentence inner := by
  induction stack generalizing tokens operand nodes t with
  | nil => exact absurd hUntil not_endsUntilOperand_afterFormula
  | cons frame stack ih =>
    cases hOpened with
    | not hBelow => exact ⟨_, operand, List.append_assoc .., t, hComplete.isFormula⟩
    | group hBelow => exact absurd hUntil not_endsUntilOperand_afterGrouped
    | connective op hBelow hWants hLeft =>
      have hFormula := IsFormula.connective op hLeft hComplete.isFormula
      have hSplit := ih hBelow (.inr ⟨hFormula, hWants, nofun⟩)
        (takesConnective_of_wantsFormula hWants) hUntil
      simpa only [List.append_assoc, List.cons_append, List.nil_append] using hSplit
    | temporal q p hBelow =>
      rcases hComplete with hExpression | ⟨-, hWants, -⟩
      · have hSplit := ih hBelow (.inl (.temporal q p hExpression)) hTakes hUntil
        simpa only [List.append_assoc, List.cons_append, List.nil_append] using hSplit
      · exact absurd hWants id
    | untlLeft q hBelow => exact absurd hTakes id
    | untlRight q hBelow hLeft => exact absurd hTakes id

/-- A negation is taken where an operand is wanted, and waits for its own. -/
theorem advance_not {parser next : Parser} (hPhase : parser.phase ≠ .done)
    (hAdvance : parser.advance .not = some next) :
    next = { nodes := parser.nodes, stack := .not :: parser.stack, phase := .operand } := by
  obtain ⟨nodes, stack, phase⟩ := parser
  cases phase with
  | operand => exact (Option.some.inj hAdvance).symm
  | opening q => cases hAdvance
  | continuation =>
    have hNot : ∀ op, Token.not ≠ .connective op := nofun
    have hAwaited := (isSome_close_of_ne hNot nodes stack).mp ⟨next, hAdvance⟩
    exact absurd hAwaited (not_mem_awaited stack)
  | done => exact absurd rfl hPhase

/-- Behind a negation with a complete formula, every connective is taken. -/
theorem advance_connective_of_negation {outer inner : List Token} {parser : Parser}
    (hEnd : .endOfText ∉ outer ++ .not :: inner)
    (hRead : start.read (outer ++ .not :: inner) = some parser) (hInner : IsSentence inner)
    (op : Connective) : ∃ next, parser.advance (.connective op) = some next := by
  rw [read_append] at hRead
  obtain ⟨before, hOuter, hRest⟩ := Option.bind_eq_some_iff.mp hRead
  obtain ⟨opened, hNot, hTokens⟩ := Option.bind_eq_some_iff.mp hRest
  have hStart : Reads [] start := Opened.start
  have hNoEnd : .endOfText ∉ outer := fun hMem => hEnd (List.mem_append_left _ hMem)
  have hPhase := Parser.phase_ne_done (reads_read hStart hNoEnd hOuter) hNoEnd
  rw [advance_not hPhase hNot] at hTokens
  obtain ⟨t, hFormula⟩ := hInner
  have hWants : WantsFormula (.not :: before.stack) := trivial
  obtain ⟨nodes, extra, hExtra, hOperand⟩ := readsOperand_formula hFormula hWants before.nodes
  rw [hOperand] at hTokens
  rw [← Option.some.inj hTokens]
  obtain ⟨nodes', extra', -, hTaken⟩ := close_connective_openEnded op hExtra nodes hWants
  exact ⟨_, hTaken⟩

/-- The connectives that a sentence may go on with are listed, save for those that
a negation in an operand of an until may take. -/
theorem StopsAt.connective_mayFollow_iff {text : String} {e : ParseError}
    {before : List LocatedToken} {found : LocatedToken} {parser : Parser}
    (h : StopsAt text e before found parser) (op : Connective) :
    (Token.connective op).MayFollow (before.map LocatedToken.token) ↔
      .connective op ∈ e.expected ∨ EndsUntilOperand e.expected ∧
        ∃ outer inner, before.map LocatedToken.token = outer ++ .not :: inner ∧
          IsSentence inner := by
  have hError : e.expected = parser.expected := by rw [h.error]
  rw [h.mayFollow_iff, hError]
  constructor
  · intro hTaken
    rcases (isSome_advance_iff h.phase_ne_done _).mp hTaken with hListed | ⟨hPhase, hTakes, -⟩
    · exact .inl hListed
    · have hAwaited : parser.expected = awaited parser.stack := by rw [expected, hPhase]
      rw [hAwaited]
      refine (awaited_cases op parser.stack).imp_right fun hUntil => ⟨hUntil, ?_⟩
      -- what was read is an expression behind the operators that wait
      have hReads := h.reads_tokens
      rw [Reads, hPhase] at hReads
      obtain ⟨opened, expression, earlier, t, hTokens, hOpened, hExpression, -⟩ := hReads
      rw [hTokens]
      exact exists_negation_of_takesConnective hOpened (.inl hExpression) hTakes hUntil
  · rintro (hListed | ⟨-, outer, inner, hBefore, hInner⟩)
    · exact (isSome_advance_iff h.phase_ne_done _).mpr (.inl hListed)
    · have hEnd := h.noEnd
      have hReads := h.reads
      rw [hBefore] at hEnd hReads
      exact advance_connective_of_negation hEnd hReads hInner op

/-- **What errors leave out.** The kinds that could stand where an error is are those
that it lists and, at the end of an operand of an until, the connectives, if the
operand ends with a negation and a complete formula behind it. -/
theorem mayFollow_iff_listed {text : String} {e : ParseError} (h : parse text = .error e) :
    ∃ before found after, tokenize text = before ++ found :: after ∧
      e.position = found.offset ∧ e.found = found.token ∧
      ∀ kind : Token.Kind, kind.MayFollow (before.map LocatedToken.token) ↔
        kind ∈ e.expected ∨ EndsUntilOperand e.expected ∧ (∃ op, kind = .connective op) ∧
          ∃ outer inner, before.map LocatedToken.token = outer ++ .not :: inner ∧
            IsSentence inner := by
  obtain ⟨before, found, parser, hStop⟩ := exists_stop h
  obtain ⟨after, hTokens⟩ := hStop.splits
  refine ⟨before, found, after, hTokens, by rw [hStop.error], by rw [hStop.error], fun kind => ?_⟩
  constructor
  · rintro ⟨token, rfl, hFollows⟩
    by_cases hOp : ∃ op, token = .connective op
    · obtain ⟨op, rfl⟩ := hOp
      refine ((hStop.connective_mayFollow_iff op).mp hFollows).imp_right ?_
      exact fun ⟨hUntil, hNegation⟩ => ⟨hUntil, ⟨op, rfl⟩, hNegation⟩
    · have hTaken := (hStop.mayFollow_iff token).mp hFollows
      rcases (isSome_advance_iff hStop.phase_ne_done token).mp hTaken with hListed | ⟨-, -, hIs⟩
      · rw [hStop.error]
        exact .inl hListed
      · exact absurd hIs hOp
  · rintro (hListed | ⟨hUntil, ⟨op, rfl⟩, hNegation⟩)
    · exact hStop.mayFollow_of_listed hListed
    · exact ⟨.connective op, rfl, (hStop.connective_mayFollow_iff op).mpr (.inr ⟨hUntil, hNegation⟩)⟩

/-- In `E(NOT p)` the parenthesis stands where `U` could, and no parenthesis. -/
theorem mayFollow_iff_listed_in_until :
    let e : ParseError := { position := 7, found := .rightParen, expected := [.untl] }
    parse "E(NOT p)" = .error e ∧
      ∃ before found after, tokenize "E(NOT p)" = before ++ found :: after ∧
        e.position = found.offset ∧ e.found = found.token ∧
        Token.Kind.untl.MayFollow (before.map LocatedToken.token) ∧
        ¬ Token.Kind.rightParen.MayFollow (before.map LocatedToken.token) := by
  intro e
  have hParse : parse "E(NOT p)" = .error e := by decide +kernel
  obtain ⟨before, found, after, hTokens, hPosition, hFound, hKinds⟩ := mayFollow_iff_listed hParse
  refine ⟨hParse, before, found, after, hTokens, hPosition, hFound, ?_, ?_⟩
  · exact (hKinds .untl).mpr (.inl (List.mem_singleton.mpr rfl))
  · rw [hKinds]
    rintro (hListed | ⟨-, ⟨op, hOp⟩, -⟩)
    · cases List.mem_singleton.mp hListed
    · cases hOp

/-- `E(NOT p` may go on with `AND`, but the error in `E(NOT p)` lists `U` alone. -/
theorem connective_not_listed_behind_negation :
    let e : ParseError := { position := 7, found := .rightParen, expected := [.untl] }
    let before : List LocatedToken :=
      [⟨.quantifier .some, 0⟩, ⟨.leftParen, 1⟩, ⟨.not, 2⟩, ⟨.atom "p", 6⟩]
    parse "E(NOT p)" = .error e ∧
      tokenize "E(NOT p)" = before ++ [⟨.rightParen, 7⟩, ⟨.endOfText, 8⟩] ∧
      (Token.Kind.connective .and).MayFollow (before.map LocatedToken.token) ∧
      .connective .and ∉ e.expected := by
  intro e before
  have hParse : parse "E(NOT p)" = .error e := by decide +kernel
  have hTokens : tokenize "E(NOT p)" = before ++ [⟨.rightParen, 7⟩, ⟨.endOfText, 8⟩] := by
    decide +kernel
  refine ⟨hParse, hTokens, ⟨.connective .and, rfl, ?_⟩, by decide⟩
  have hNegation : IsExpression [.not, .atom "p", .connective .and, .atom "q"] _ :=
    .not (.connective .and (.atom "p") (.expression (.atom "q")))
  exact ⟨[.atom "q", .untl, .atom "r", .rightParen], _,
    .expression (.untl .some hNegation (.atom "r"))⟩

end Formula

end BranchingTime
