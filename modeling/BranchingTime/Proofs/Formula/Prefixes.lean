import BranchingTime.Proofs.Formula.RoundTrip

/-!
# BranchingTime — prefixes of sentences

The automaton takes a token only if a sentence can go on with it. For what it
has opened can always be closed: operators that wait for an operand get an atom,
those with an open end need nothing, the others get the tokens that they ask
for. So the automaton is stopped by the very first token that leaves the
grammar, although the grammar is ambiguous and no token is looked at twice.

## Results

* `read_completion` — the automaton can be led to the end from wherever it is.
* `startsSentence_iff_read` — the tokens that are read without an error are those
  that start a sentence.
* `mayFollow_iff_advance` — the next tokens that are taken are those with which
  the sentence may go on.
* `isSome_advance_iff` — which these are.
-/

namespace BranchingTime

namespace Formula.Parser

-- ---------------------------------------------------------------------------
-- Closing what is open
-- ---------------------------------------------------------------------------

/-- Tokens that close all waiting operators behind a complete operand. -/
def closing : List Frame → List Token
  | [] => []
  | .not :: stack => closing stack
  | .group :: stack => .rightParen :: closing stack
  | .connective .. :: stack => closing stack
  | .temporal .. :: stack => closing stack
  | .untlLeft _ :: stack => .untl :: .atom "p" :: .rightParen :: closing stack
  | .untlRight .. :: stack => .rightParen :: closing stack

/-- Tokens that lead the automaton to a complete formula. -/
def completion (parser : Parser) : List Token :=
  match parser.phase with
  | .operand => .atom "p" :: closing parser.stack
  | .opening _ =>
    .leftParen :: .atom "p" :: .untl :: .atom "p" :: .rightParen :: closing parser.stack
  | .continuation => closing parser.stack
  | .done => []

/-- What comes behind a complete operand is no connective. -/
theorem exists_closing_cons (stack : List Frame) :
    ∃ token rest, closing stack ++ [.endOfText] = token :: rest ∧
      ∀ op, token ≠ .connective op := by
  induction stack with
  | nil => exact ⟨.endOfText, [], rfl, by simp⟩
  | cons frame stack ih =>
    cases frame with
    | not => exact ih
    | connective op left => exact ih
    | temporal q p => exact ih
    | group => exact ⟨.rightParen, _, rfl, by simp⟩
    | untlLeft q => exact ⟨.untl, _, rfl, by simp⟩
    | untlRight q left => exact ⟨.rightParen, _, rfl, by simp⟩

theorem read_closing (nodes : Array (Node Nat)) (stack : List Frame) :
    ∃ next, read { nodes, stack, phase := .continuation } (closing stack ++ [.endOfText]) =
      some next := by
  induction stack generalizing nodes with
  | nil => exact ⟨_, rfl⟩
  | cons frame stack ih =>
    -- operators with an open end close before the first token
    obtain ⟨token, rest, hClosing, hToken⟩ := exists_closing_cons stack
    cases frame with
    | not =>
      obtain ⟨next, hNext⟩ := ih (nodes.push (.not (nodes.size - 1)))
      refine ⟨next, Eq.trans ?_ hNext⟩
      rw [closing, hClosing, read, read]
      exact congrArg (Option.bind · _) (close_not_of_ne nodes stack hToken)
    | connective op left =>
      obtain ⟨next, hNext⟩ := ih (nodes.push (.connective op left (nodes.size - 1)))
      refine ⟨next, Eq.trans ?_ hNext⟩
      rw [closing, hClosing, read, read]
      exact congrArg (Option.bind · _) (close_connective_of_ne nodes stack hToken op left)
    | temporal q p =>
      obtain ⟨next, hNext⟩ := ih (nodes.push (.temporal q p (nodes.size - 1)))
      refine ⟨next, Eq.trans ?_ hNext⟩
      rw [closing, hClosing, read, read]
      exact congrArg (Option.bind · _) (close_temporal nodes stack token q p)
    | group => exact ih nodes
    | untlLeft q => exact ih _
    | untlRight q left => exact ih _

/-- Wherever the automaton is, it can be led to the end. -/
theorem read_completion (parser : Parser) :
    ∃ next, parser.read (parser.completion ++ [.endOfText]) = some next := by
  obtain ⟨nodes, stack, phase⟩ := parser
  cases phase with
  | operand => exact read_closing (nodes.push (.atom "p")) stack
  | opening q => exact read_closing _ stack
  | continuation => exact read_closing nodes stack
  | done => exact ⟨_, rfl⟩

/-- A completion is made of an atom, the keyword of an until and parentheses. -/
theorem mem_completion {parser : Parser} {token : Token} (h : token ∈ parser.completion) :
    token ∈ [.atom "p", .untl, .leftParen, .rightParen] := by
  have hClosing (stack : List Frame) (hMem : token ∈ closing stack) :
      token ∈ [.atom "p", .untl, .leftParen, .rightParen] := by
    induction stack with
    | nil => exact absurd hMem List.not_mem_nil
    | cons frame stack ih => cases frame <;> grind [closing]
  obtain ⟨nodes, stack, phase⟩ := parser
  cases phase <;> grind [completion]

-- ---------------------------------------------------------------------------
-- Prefixes
-- ---------------------------------------------------------------------------

theorem isSentence_iff_read {tokens : List Token} (hEnd : .endOfText ∉ tokens) :
    IsSentence tokens ↔ ∃ parser, start.read (tokens ++ [.endOfText]) = some parser := by
  constructor
  · rintro ⟨t, hFormula⟩
    exact read_complete hFormula
  · rintro ⟨parser, hRead⟩
    obtain ⟨t, hFormula, -⟩ := read_sound hEnd hRead
    exact ⟨t, hFormula⟩

theorem read_completed {tokens : List Token} {parser : Parser}
    (hRead : start.read tokens = some parser) :
    ∃ next, start.read (tokens ++ parser.completion ++ [.endOfText]) = some next := by
  rw [List.append_assoc, read_append, hRead, Option.bind_some]
  exact read_completion parser

/-- Tokens are read without an error iff they start a sentence. -/
theorem startsSentence_iff_read {tokens : List Token} (hEnd : .endOfText ∉ tokens) :
    StartsSentence tokens ↔ ∃ parser, start.read tokens = some parser := by
  constructor
  · rintro ⟨rest, t, hFormula⟩
    obtain ⟨last, hRead⟩ := read_complete hFormula
    rw [List.append_assoc, read_append] at hRead
    obtain ⟨parser, hParser, -⟩ := Option.bind_eq_some_iff.mp hRead
    exact ⟨parser, hParser⟩
  · rintro ⟨parser, hRead⟩
    have hWhole : .endOfText ∉ tokens ++ parser.completion := by
      intro hMem
      rcases List.mem_append.mp hMem with hMem | hMem
      · exact hEnd hMem
      · exact absurd (mem_completion hMem) (by decide)
    exact ⟨parser.completion, (isSentence_iff_read hWhole).mpr (read_completed hRead)⟩

/-- A token is taken iff a sentence may go on with it. -/
theorem mayFollow_iff_advance {tokens : List Token} {parser : Parser} (hEnd : .endOfText ∉ tokens)
    (hRead : start.read tokens = some parser) (token : Token) :
    token.MayFollow tokens ↔ ∃ next, parser.advance token = some next := by
  have hLast (next : Parser) :
      start.read (tokens ++ [token]) = some next ↔ parser.advance token = some next := by
    rw [read_append, hRead, Option.bind_some, read]
    simp [read]
  have hStarts (hToken : token ≠ .endOfText) :
      StartsSentence (tokens ++ [token]) ↔ ∃ next, parser.advance token = some next := by
    rw [startsSentence_iff_read (by simp [hEnd, Ne.symm hToken])]
    exact exists_congr hLast
  cases token with
  | endOfText => exact (isSentence_iff_read hEnd).trans (exists_congr hLast)
  | _ => exact hStarts (by simp)

-- ---------------------------------------------------------------------------
-- What is taken
-- ---------------------------------------------------------------------------

/-- The kinds of tokens that the innermost operator without an open end asks for,
behind a complete operand. -/
def awaited : List Frame → List Token.Kind
  | [] => afterFormula
  | .not :: stack => awaited stack
  | .group :: _ => afterGrouped
  | .connective .. :: stack => awaited stack
  | .temporal .. :: stack => awaited stack
  | .untlLeft _ :: _ => [.untl]
  | .untlRight .. :: _ => [.rightParen]

/-- Is a connective taken behind a complete operand? Temporal operators close
before it, and then it depends on what waits below them. -/
def TakesConnective : List Frame → Prop
  | .temporal .. :: stack => TakesConnective stack
  | stack => WantsFormula stack

/-- The kinds of tokens that an error lists. -/
def expected (parser : Parser) : List Token.Kind :=
  match parser.phase with
  | .operand => expressionStart
  | .opening _ => [.leftParen]
  | .continuation => awaited parser.stack
  | .done => []

theorem isSome_close_connective (op : Connective) (nodes : Array (Node Nat)) (stack : List Frame) :
    (∃ next, close (.connective op) nodes stack = some next) ↔ TakesConnective stack := by
  induction stack generalizing nodes with
  | nil => exact iff_of_true ⟨_, rfl⟩ trivial
  | cons frame stack ih =>
    cases frame with
    | not => exact iff_of_true ⟨_, rfl⟩ trivial
    | group => exact iff_of_true ⟨_, rfl⟩ trivial
    | connective op' left => exact iff_of_true ⟨_, rfl⟩ trivial
    | temporal q p =>
      rw [close_temporal]
      exact ih _
    | untlLeft q => exact iff_of_false (fun ⟨_, h⟩ => nomatch h) id
    | untlRight q left => exact iff_of_false (fun ⟨_, h⟩ => nomatch h) id

theorem isSome_close_of_ne {token : Token} (hToken : ∀ op, token ≠ .connective op)
    (nodes : Array (Node Nat)) (stack : List Frame) :
    (∃ next, close token nodes stack = some next) ↔ token.kind ∈ awaited stack := by
  induction stack generalizing nodes with
  | nil =>
    rw [close_nil]
    cases token with
    | connective op => exact absurd rfl (hToken op)
    | _ => simp [awaited, afterFormula, connectiveKinds, Token.kind]
  | cons frame stack ih =>
    cases frame with
    | not =>
      rw [close_not_of_ne nodes stack hToken]
      exact ih _
    | connective op left =>
      rw [close_connective_of_ne nodes stack hToken]
      exact ih _
    | temporal q p =>
      rw [close_temporal]
      exact ih _
    | group =>
      rw [close_group]
      cases token with
      | connective op => exact absurd rfl (hToken op)
      | _ => simp [awaited, afterGrouped, connectiveKinds, Token.kind]
    | untlLeft q =>
      rw [close_untlLeft]
      cases token <;> simp [awaited, Token.kind]
    | untlRight q left =>
      rw [close_untlRight]
      cases token <;> simp [awaited, Token.kind]

/-- Where a connective is awaited it is taken. -/
theorem takesConnective_of_mem_awaited {op : Connective} {stack : List Frame}
    (h : .connective op ∈ awaited stack) : TakesConnective stack := by
  induction stack with
  | nil => exact trivial
  | cons frame stack ih =>
    cases frame with
    | temporal q p => exact ih h
    | untlLeft q => simp [awaited] at h
    | untlRight q left => simp [awaited] at h
    | _ => exact trivial

theorem takesConnective_of_wantsFormula {stack : List Frame} (h : WantsFormula stack) :
    TakesConnective stack := by
  match stack, h with
  | [], _ => exact trivial
  | .not :: _, _ => exact trivial
  | .group :: _, _ => exact trivial
  | .connective .. :: _, _ => exact trivial

/-- No negation comes behind a complete operand. -/
theorem not_mem_awaited (stack : List Frame) : .not ∉ awaited stack := by
  induction stack with
  | nil => decide
  | cons frame stack ih =>
    cases frame with
    | group => simp [awaited, afterGrouped, connectiveKinds]
    | untlLeft q => simp [awaited]
    | untlRight q left => simp [awaited]
    | _ => exact ih

/-- Behind a complete operand, tokens of the awaited kinds are taken, and
connectives also where an operator that would close before anything else can
still take them. -/
theorem isSome_close_iff (token : Token) (nodes : Array (Node Nat)) (stack : List Frame) :
    (∃ next, close token nodes stack = some next) ↔
      token.kind ∈ awaited stack ∨ TakesConnective stack ∧ ∃ op, token = .connective op := by
  by_cases hToken : ∃ op, token = .connective op
  · obtain ⟨op, rfl⟩ := hToken
    rw [isSome_close_connective]
    refine ⟨fun hTakes => .inr ⟨hTakes, op, rfl⟩, ?_⟩
    rintro (hAwaited | ⟨hTakes, -⟩)
    · exact takesConnective_of_mem_awaited hAwaited
    · exact hTakes
  · rw [isSome_close_of_ne fun op hOp => hToken ⟨op, hOp⟩]
    refine ⟨.inl, ?_⟩
    rintro (hAwaited | ⟨-, hOp⟩)
    · exact hAwaited
    · exact absurd hOp hToken

/-- The tokens that are taken are those of the kinds that an error would list, and
connectives where they are taken behind a complete operand. -/
theorem isSome_advance_iff {parser : Parser} (hPhase : parser.phase ≠ .done) (token : Token) :
    (∃ next, parser.advance token = some next) ↔
      token.kind ∈ parser.expected ∨
        parser.phase = .continuation ∧ TakesConnective parser.stack ∧
          ∃ op, token = .connective op := by
  obtain ⟨nodes, stack, phase⟩ := parser
  cases phase with
  | operand =>
    cases token with
    | temporal q p =>
      refine iff_of_true ⟨_, rfl⟩ (.inl ?_)
      cases q <;> cases p <;> simp [expected, expressionStart, Token.kind]
    | quantifier q =>
      refine iff_of_true ⟨_, rfl⟩ (.inl ?_)
      cases q <;> simp [expected, expressionStart, Token.kind]
    | _ => simp [advance, step, unexpected, Except.toOption, expected, expressionStart, Token.kind]
  | opening q =>
    cases token <;>
      simp [advance, step, unexpected, Except.toOption, expected, Token.kind]
  | continuation =>
    refine (isSome_close_iff token nodes stack).trans (or_congr_right ?_)
    exact (and_iff_right rfl).symm
  | done => exact absurd rfl hPhase

end Formula.Parser

end BranchingTime
