import BranchingTime.Formula.Parse
import BranchingTime.Formula.Grammar
import BranchingTime.Proofs.Formula.Layout

/-!
# BranchingTime — the parsing automaton and the grammar

The automaton is studied on bare tokens: whether it goes on, and to which
configuration, does not depend on where the tokens stand in a text.

`Opened` describes the tokens behind a stack of waiting operators and the
nodes that they have left; `Reads` adds what was read of the operand at hand.
The automaton never leaves these descriptions, so what it accepts is derivable.
The other way round, a derivable sequence of tokens may leave operators on the
stack that could take more, but these close as soon as something else comes.

## Results

* `read_sound` — the tokens of a run up to the end token are a formula, and the
  nodes lay out its tree.
* `read_complete` — every formula is read to the end.
-/

namespace BranchingTime.Formula.Parser

-- ---------------------------------------------------------------------------
-- Running on tokens
-- ---------------------------------------------------------------------------

/-- Takes a token after a complete operand, wherever it stands. -/
def close (token : Token) (nodes : Array (Node Nat)) (stack : List Frame) : Option Parser :=
  (resume ⟨token, 0⟩ nodes stack).toOption

/-- Takes one token, wherever it stands. -/
def advance (parser : Parser) (token : Token) : Option Parser :=
  (parser.step ⟨token, 0⟩).toOption

/-- Takes tokens one after the other, wherever they stand. -/
def read (parser : Parser) : List Token → Option Parser
  | [] => some parser
  | token :: rest => (parser.advance token).bind fun next => next.read rest

theorem toOption_resume (found : LocatedToken) (nodes : Array (Node Nat)) (stack : List Frame) :
    (resume found nodes stack).toOption = close found.token nodes stack := by
  unfold close
  induction stack generalizing nodes with
  | nil => cases hToken : found.token <;> simp [resume, hToken, unexpected, Except.toOption]
  | cons frame stack ih =>
    cases frame <;> cases hToken : found.token <;>
      simp_all [resume, unexpected, Except.toOption]

theorem toOption_step (parser : Parser) (found : LocatedToken) :
    (parser.step found).toOption = parser.advance found.token := by
  obtain ⟨nodes, stack, phase⟩ := parser
  unfold advance
  cases phase with
  | operand => cases hToken : found.token <;> simp [step, hToken, unexpected, Except.toOption]
  | opening q => cases hToken : found.token <;> simp [step, hToken, unexpected, Except.toOption]
  | continuation => exact toOption_resume found nodes stack
  | done => rfl

/-- A run goes on as long as the run on the bare tokens does. -/
theorem toOption_run (parser : Parser) (found : List LocatedToken) :
    (parser.run found).toOption = parser.read (found.map LocatedToken.token) := by
  induction found generalizing parser with
  | nil => rfl
  | cons first rest ih =>
    rw [run, List.map_cons, read, ← toOption_step]
    cases hStep : parser.step first with
    | ok next => exact ih next
    | error e => rfl

theorem read_append (parser : Parser) (left right : List Token) :
    parser.read (left ++ right) = (parser.read left).bind fun next => next.read right := by
  induction left generalizing parser with
  | nil => rfl
  | cons token rest ih =>
    rw [List.cons_append, read, read, Option.bind_assoc]
    congr 1
    funext next
    exact ih next

-- ---------------------------------------------------------------------------
-- Closing operators
-- ---------------------------------------------------------------------------

/-- Does the innermost waiting operator take a formula, which may go on with a
connective? The others take a single expression. -/
def WantsFormula : List Frame → Prop
  | [] => True
  | .not :: _ => True
  | .group :: _ => True
  | .connective .. :: _ => True
  | _ => False

section Close

variable (nodes : Array (Node Nat)) (stack : List Frame)

theorem close_nil (token : Token) :
    close token nodes [] =
      match token with
      | .connective op => some (openConnective op nodes [])
      | .endOfText => some { nodes, stack := [], phase := .done }
      | _ => none := by
  cases token <;> rfl

theorem close_not (token : Token) :
    close token nodes (.not :: stack) =
      match token with
      | .connective op => some (openConnective op nodes (.not :: stack))
      | _ => close token (nodes.push (.not (nodes.size - 1))) stack := by
  cases token <;> rfl

theorem close_group (token : Token) :
    close token nodes (.group :: stack) =
      match token with
      | .connective op => some (openConnective op nodes (.group :: stack))
      | .rightParen => some { nodes, stack, phase := .continuation }
      | _ => none := by
  cases token <;> rfl

theorem close_connective (token : Token) (op : Connective) (left : Nat) :
    close token nodes (.connective op left :: stack) =
      match token with
      | .connective op' => some (openConnective op' nodes (.connective op left :: stack))
      | _ => close token (nodes.push (.connective op left (nodes.size - 1))) stack := by
  cases token <;> rfl

theorem close_temporal (token : Token) (q : Quantifier) (p : PathOperator) :
    close token nodes (.temporal q p :: stack) =
      close token (nodes.push (.temporal q p (nodes.size - 1))) stack := by
  cases token <;> rfl

theorem close_untlLeft (token : Token) (q : Quantifier) :
    close token nodes (.untlLeft q :: stack) =
      match token with
      | .untl =>
        some { nodes, stack := .untlRight q (nodes.size - 1) :: stack, phase := .operand }
      | _ => none := by
  cases token <;> rfl

theorem close_untlRight (token : Token) (q : Quantifier) (left : Nat) :
    close token nodes (.untlRight q left :: stack) =
      match token with
      | .rightParen =>
        some
          { nodes := nodes.push (.untl q left (nodes.size - 1)), stack, phase := .continuation }
      | _ => none := by
  cases token <;> rfl

/-- A connective is taken where a formula is wanted. -/
theorem close_wantsFormula (op : Connective) (hWants : WantsFormula stack) :
    close (.connective op) nodes stack = some (openConnective op nodes stack) := by
  match stack, hWants with
  | [], _ => rfl
  | .not :: _, _ => rfl
  | .group :: _, _ => rfl
  | .connective .. :: _, _ => rfl

variable {token : Token} (hToken : ∀ op, token ≠ .connective op)
include hToken

/-- Before anything else, a negation and a connective have all their operands. -/
theorem close_not_of_ne :
    close token nodes (.not :: stack) = close token (nodes.push (.not (nodes.size - 1))) stack := by
  rw [close_not]
  split
  · exact absurd rfl (hToken _)
  · rfl

theorem close_connective_of_ne (op : Connective) (left : Nat) :
    close token nodes (.connective op left :: stack) =
      close token (nodes.push (.connective op left (nodes.size - 1))) stack := by
  rw [close_connective]
  split
  · exact absurd rfl (hToken _)
  · rfl

end Close

-- ---------------------------------------------------------------------------
-- What has been read
-- ---------------------------------------------------------------------------

/-- The tokens read for a stack of waiting operators, and the nodes of the
operands that they already have. -/
inductive Opened : List Token → List (Node Nat) → List Frame → Prop where
  | start : Opened [] [] []
  | not {tokens : List Token} {nodes : List (Node Nat)} {stack : List Frame} :
      Opened tokens nodes stack → Opened (tokens ++ [.not]) nodes (.not :: stack)
  | group {tokens : List Token} {nodes : List (Node Nat)} {stack : List Frame} :
      Opened tokens nodes stack → Opened (tokens ++ [.leftParen]) nodes (.group :: stack)
  | connective {tokens left : List Token} {nodes : List (Node Nat)} {stack : List Frame}
      {t : Tree} (op : Connective) :
      Opened tokens nodes stack → WantsFormula stack → IsExpression left t →
        Opened (tokens ++ left ++ [.connective op]) (nodes ++ t.nodesFrom nodes.length)
          (.connective op (t.rootFrom nodes.length) :: stack)
  | temporal {tokens : List Token} {nodes : List (Node Nat)} {stack : List Frame}
      (q : Quantifier) (p : PathOperator) :
      Opened tokens nodes stack → Opened (tokens ++ [.temporal q p]) nodes (.temporal q p :: stack)
  | untlLeft {tokens : List Token} {nodes : List (Node Nat)} {stack : List Frame}
      (q : Quantifier) :
      Opened tokens nodes stack →
        Opened (tokens ++ [.quantifier q, .leftParen]) nodes (.untlLeft q :: stack)
  | untlRight {tokens left : List Token} {nodes : List (Node Nat)} {stack : List Frame} {t : Tree}
      (q : Quantifier) :
      Opened tokens nodes stack → IsExpression left t →
        Opened (tokens ++ [.quantifier q, .leftParen] ++ left ++ [.untl])
          (nodes ++ t.nodesFrom nodes.length)
          (.untlRight q (t.rootFrom nodes.length) :: stack)

/-- The nodes are those of earlier operands, followed by the tree `t`. -/
def EndsWith (nodes : Array (Node Nat)) (earlier : List (Node Nat)) (t : Tree) : Prop :=
  nodes.toList = earlier ++ t.nodesFrom earlier.length

/-- What the tokens read so far amount to, as long as the end token was not
among them. -/
def Reads (tokens : List Token) (parser : Parser) : Prop :=
  match parser.phase with
  | .operand => Opened tokens parser.nodes.toList parser.stack
  | .opening q =>
    ∃ before, tokens = before ++ [.quantifier q] ∧
      Opened before parser.nodes.toList parser.stack
  | .continuation =>
    ∃ before expression earlier t, tokens = before ++ expression ∧
      Opened before earlier parser.stack ∧ IsExpression expression t ∧
      EndsWith parser.nodes earlier t
  | .done =>
    ∃ formula t, tokens = formula ++ [.endOfText] ∧ IsFormula formula t ∧
      EndsWith parser.nodes [] t

-- ---------------------------------------------------------------------------
-- Nodes of operands
-- ---------------------------------------------------------------------------

section EndsWith

variable {nodes : Array (Node Nat)} {earlier : List (Node Nat)} {t : Tree}

theorem EndsWith.root_eq (h : EndsWith nodes earlier t) :
    nodes.size - 1 = t.rootFrom earlier.length := by
  rw [← Array.length_toList, h, List.length_append, Tree.length_nodesFrom, Tree.rootFrom]

theorem EndsWith.eq_layout (h : EndsWith nodes [] t) : (⟨nodes⟩ : Formula) = t.layout := by
  have hNodes : nodes = t.layout.nodes := by
    rw [← Array.toList_inj, Tree.nodes_layout, h]
    rfl
  rw [hNodes]

theorem EndsWith.push_not (h : EndsWith nodes earlier t) :
    EndsWith (nodes.push (.not (nodes.size - 1))) earlier (.not t) := by
  rw [EndsWith, Array.toList_push, h, h.root_eq, Tree.nodesFrom, List.append_assoc]

theorem EndsWith.push_temporal (h : EndsWith nodes earlier t) (q : Quantifier)
    (p : PathOperator) :
    EndsWith (nodes.push (.temporal q p (nodes.size - 1))) earlier (.temporal q p t) := by
  rw [EndsWith, Array.toList_push, h, h.root_eq, Tree.nodesFrom, List.append_assoc]

theorem EndsWith.push_connective {u : Tree}
    (h : EndsWith nodes (earlier ++ t.nodesFrom earlier.length) u) (op : Connective) :
    EndsWith (nodes.push (.connective op (t.rootFrom earlier.length) (nodes.size - 1))) earlier
      (.connective op t u) := by
  rw [EndsWith, Array.toList_push, h, h.root_eq, Tree.nodesFrom, List.length_append,
    Tree.length_nodesFrom]
  simp only [List.append_assoc]

theorem EndsWith.push_untl {u : Tree}
    (h : EndsWith nodes (earlier ++ t.nodesFrom earlier.length) u) (q : Quantifier) :
    EndsWith (nodes.push (.untl q (t.rootFrom earlier.length) (nodes.size - 1))) earlier
      (.untl q t u) := by
  rw [EndsWith, Array.toList_push, h, h.root_eq, Tree.nodesFrom, List.length_append,
    Tree.length_nodesFrom]
  simp only [List.append_assoc]

end EndsWith

-- ---------------------------------------------------------------------------
-- Soundness
-- ---------------------------------------------------------------------------

/-- An operand is complete before `token`: an expression always is, and a formula
where one is wanted and no connective follows. -/
def IsComplete (token : Token) (stack : List Frame) (tokens : List Token) (t : Tree) : Prop :=
  IsExpression tokens t ∨
    IsFormula tokens t ∧ WantsFormula stack ∧ ∀ op, token ≠ .connective op

theorem IsComplete.isFormula {token : Token} {stack : List Frame} {tokens : List Token} {t : Tree}
    (h : IsComplete token stack tokens t) : IsFormula tokens t := by
  rcases h with h | ⟨h, -, -⟩
  · exact .expression h
  · exact h

/-- Opening a connective behind a complete expression. -/
theorem reads_openConnective {tokens operand : List Token} {nodes : Array (Node Nat)}
    {earlier : List (Node Nat)} {stack : List Frame} {t : Tree} {op : Connective}
    (hOpened : Opened tokens earlier stack) (hWants : WantsFormula stack)
    (hComplete : IsComplete (.connective op) stack operand t) (hNodes : EndsWith nodes earlier t) :
    Reads (tokens ++ operand ++ [.connective op]) (openConnective op nodes stack) := by
  rcases hComplete with hExpression | ⟨-, -, hNot⟩
  · change Opened _ nodes.toList (.connective op (nodes.size - 1) :: stack)
    rw [hNodes.root_eq, hNodes]
    exact .connective op hOpened hWants hExpression
  · exact absurd rfl (hNot op)

/-- Closing operators before a token turns what was read into the reading that
the automaton goes on with. -/
theorem reads_close {token : Token} {stack : List Frame} {tokens operand : List Token}
    {nodes : Array (Node Nat)} {earlier : List (Node Nat)} {t : Tree} {next : Parser}
    (hOpened : Opened tokens earlier stack) (hComplete : IsComplete token stack operand t)
    (hNodes : EndsWith nodes earlier t) (hClose : close token nodes stack = some next) :
    Reads (tokens ++ operand ++ [token]) next := by
  induction stack generalizing tokens operand nodes earlier t with
  | nil =>
    cases hOpened
    rw [close_nil] at hClose
    split at hClose
    · rw [← Option.some.inj hClose]
      exact reads_openConnective .start trivial hComplete hNodes
    · rw [← Option.some.inj hClose]
      exact ⟨operand, t, rfl, hComplete.isFormula, hNodes⟩
    · cases hClose
  | cons frame stack ih =>
    cases hOpened with
    | not hBelow =>
      rw [close_not] at hClose
      split at hClose
      · rw [← Option.some.inj hClose]
        exact reads_openConnective (.not hBelow) trivial hComplete hNodes
      · have hExpression := IsExpression.not hComplete.isFormula
        have hReads := ih hBelow (.inl hExpression) hNodes.push_not hClose
        simpa only [List.append_assoc, List.cons_append, List.nil_append] using hReads
    | group hBelow =>
      rw [close_group] at hClose
      split at hClose
      · rw [← Option.some.inj hClose]
        exact reads_openConnective (.group hBelow) trivial hComplete hNodes
      · rw [← Option.some.inj hClose]
        refine ⟨_, _, _, _, ?_, hBelow, .group hComplete.isFormula, hNodes⟩
        simp
      · cases hClose
    | connective op hBelow hWants hLeft =>
      rw [close_connective] at hClose
      split at hClose
      · rw [← Option.some.inj hClose]
        exact reads_openConnective (.connective op hBelow hWants hLeft) trivial hComplete hNodes
      · rename_i hNot
        have hFormula := IsFormula.connective op hLeft hComplete.isFormula
        have hReads := ih hBelow (.inr ⟨hFormula, hWants, hNot⟩) (hNodes.push_connective op) hClose
        simpa only [List.append_assoc, List.cons_append, List.nil_append] using hReads
    | temporal q p hBelow =>
      rw [close_temporal] at hClose
      rcases hComplete with hExpression | ⟨-, hWants, -⟩
      · have hTemporal := IsExpression.temporal q p hExpression
        have hReads := ih hBelow (.inl hTemporal) (hNodes.push_temporal q p) hClose
        simpa only [List.append_assoc, List.cons_append, List.nil_append] using hReads
      · exact absurd hWants id
    | untlLeft q hBelow =>
      rw [close_untlLeft] at hClose
      split at hClose
      · rw [← Option.some.inj hClose]
        rcases hComplete with hExpression | ⟨-, hWants, -⟩
        · change Opened _ nodes.toList (.untlRight q (nodes.size - 1) :: stack)
          rw [hNodes.root_eq, hNodes]
          exact .untlRight q hBelow hExpression
        · exact absurd hWants id
      · cases hClose
    | untlRight q hBelow hLeft =>
      rw [close_untlRight] at hClose
      split at hClose
      · rw [← Option.some.inj hClose]
        rcases hComplete with hExpression | ⟨-, hWants, -⟩
        · refine ⟨_, _, _, _, ?_, hBelow, .untl q hLeft hExpression, hNodes.push_untl q⟩
          simp
        · exact absurd hWants id
      · cases hClose

/-- One token more is read. -/
theorem reads_advance {tokens : List Token} {parser next : Parser} {token : Token}
    (hReads : Reads tokens parser) (hPhase : parser.phase ≠ .done)
    (hAdvance : parser.advance token = some next) : Reads (tokens ++ [token]) next := by
  obtain ⟨nodes, stack, phase⟩ := parser
  cases phase with
  | operand =>
    change Opened tokens nodes.toList stack at hReads
    cases token with
    | atom name =>
      rw [← Option.some.inj hAdvance]
      refine ⟨tokens, [.atom name], nodes.toList, .atom name, rfl, hReads, .atom name, ?_⟩
      rw [EndsWith, Array.toList_push]
      rfl
    | not =>
      rw [← Option.some.inj hAdvance]
      exact .not hReads
    | leftParen =>
      rw [← Option.some.inj hAdvance]
      exact .group hReads
    | temporal q p =>
      rw [← Option.some.inj hAdvance]
      exact .temporal q p hReads
    | quantifier q =>
      rw [← Option.some.inj hAdvance]
      exact ⟨tokens, rfl, hReads⟩
    | _ => cases hAdvance
  | opening q =>
    obtain ⟨before, rfl, hOpened⟩ := hReads
    cases token with
    | leftParen =>
      rw [← Option.some.inj hAdvance, List.append_assoc]
      exact .untlLeft q hOpened
    | _ => cases hAdvance
  | continuation =>
    obtain ⟨before, expression, earlier, t, rfl, hOpened, hExpression, hNodes⟩ := hReads
    exact reads_close hOpened (.inl hExpression) hNodes hAdvance
  | done => exact absurd rfl hPhase

/-- Only the end token completes a formula. -/
theorem phase_ne_done {tokens : List Token} {parser : Parser} (hReads : Reads tokens parser)
    (hEnd : .endOfText ∉ tokens) : parser.phase ≠ .done := by
  intro hDone
  rw [Reads, hDone] at hReads
  obtain ⟨formula, t, rfl, -, -⟩ := hReads
  exact hEnd (by simp)

theorem reads_read {tokens rest : List Token} {parser next : Parser} (hReads : Reads tokens parser)
    (hEnd : .endOfText ∉ tokens ++ rest) (hRead : parser.read rest = some next) :
    Reads (tokens ++ rest) next := by
  induction rest generalizing tokens parser with
  | nil =>
    rw [List.append_nil, ← Option.some.inj hRead]
    exact hReads
  | cons token rest ih =>
    obtain ⟨middle, hAdvance, hRest⟩ := Option.bind_eq_some_iff.mp hRead
    have hPhase : parser.phase ≠ .done :=
      phase_ne_done hReads fun h => hEnd (List.mem_append_left _ h)
    have hSplit : tokens ++ token :: rest = tokens ++ [token] ++ rest := by simp
    rw [hSplit] at hEnd ⊢
    exact ih (reads_advance hReads hPhase hAdvance) hEnd hRest

/-- After the end token there is nothing left to do. -/
theorem close_endOfText {nodes : Array (Node Nat)} {stack : List Frame} {next : Parser}
    (hClose : close .endOfText nodes stack = some next) : next.phase = .done := by
  induction stack generalizing nodes with
  | nil =>
    rw [← Option.some.inj hClose]
  | cons frame stack ih =>
    cases frame with
    | not => exact ih hClose
    | connective op left => exact ih hClose
    | temporal q p => exact ih hClose
    | group => cases hClose
    | untlLeft q => cases hClose
    | untlRight q left => cases hClose

theorem advance_endOfText {parser next : Parser}
    (hAdvance : parser.advance .endOfText = some next) : next.phase = .done := by
  obtain ⟨nodes, stack, phase⟩ := parser
  cases phase with
  | operand => cases hAdvance
  | opening q => cases hAdvance
  | continuation => exact close_endOfText hAdvance
  | done => rw [← Option.some.inj hAdvance]

/-- **Soundness.** What is read up to the end token is a formula, and the nodes
lay out its tree. -/
theorem read_sound {tokens : List Token} {parser : Parser} (hEnd : .endOfText ∉ tokens)
    (hRead : start.read (tokens ++ [.endOfText]) = some parser) :
    ∃ t, IsFormula tokens t ∧ (⟨parser.nodes⟩ : Formula) = t.layout := by
  rw [read_append] at hRead
  obtain ⟨middle, hTokens, hLast⟩ := Option.bind_eq_some_iff.mp hRead
  have hStart : Reads [] start := Opened.start
  have hReads : Reads tokens middle := reads_read hStart hEnd hTokens
  have hAdvance : middle.advance .endOfText = some parser := by
    obtain ⟨next, hNext, hNil⟩ := Option.bind_eq_some_iff.mp hLast
    rw [hNext, Option.some.inj hNil]
  have hAll := reads_advance hReads (phase_ne_done hReads hEnd) hAdvance
  rw [Reads, advance_endOfText hAdvance] at hAll
  obtain ⟨formula, t, hTokensEq, hFormula, hNodes⟩ := hAll
  rw [← List.append_cancel_right hTokensEq] at hFormula
  exact ⟨t, hFormula, hNodes.eq_layout⟩

-- ---------------------------------------------------------------------------
-- Completeness
-- ---------------------------------------------------------------------------

/-- Does the operator close, without a token of its own, when something comes
that it cannot take? -/
def IsOpenEnded : Frame → Prop
  | .not => True
  | .connective .. => True
  | .temporal .. => True
  | _ => False

/-- Operators with an open end close before a token that is no connective. -/
theorem close_openEnded {token : Token} (hToken : ∀ op, token ≠ .connective op)
    {extra : List Frame} (hExtra : ∀ frame ∈ extra, IsOpenEnded frame) (nodes : Array (Node Nat))
    (stack : List Frame) :
    ∃ nodes', close token nodes (extra ++ stack) = close token nodes' stack := by
  induction extra generalizing nodes with
  | nil => exact ⟨nodes, rfl⟩
  | cons frame extra ih =>
    obtain ⟨hFrame, hRest⟩ := List.forall_mem_cons.mp hExtra
    rw [List.cons_append]
    cases frame with
    | not =>
      rw [close_not_of_ne _ _ hToken]
      exact ih hRest _
    | connective op left =>
      rw [close_connective_of_ne _ _ hToken]
      exact ih hRest _
    | temporal q p =>
      rw [close_temporal]
      exact ih hRest _
    | group => exact absurd hFrame id
    | untlLeft q => exact absurd hFrame id
    | untlRight q left => exact absurd hFrame id

/-- A connective is taken by the innermost operator that takes a formula, at the
latest by the one below the operators with an open end. -/
theorem close_connective_openEnded (op : Connective) {extra : List Frame}
    (hExtra : ∀ frame ∈ extra, IsOpenEnded frame) (nodes : Array (Node Nat)) {stack : List Frame}
    (hWants : WantsFormula stack) :
    ∃ nodes' extra', (∀ frame ∈ extra', IsOpenEnded frame) ∧
      close (.connective op) nodes (extra ++ stack) =
        some (openConnective op nodes' (extra' ++ stack)) := by
  induction extra generalizing nodes with
  | nil =>
    exact ⟨nodes, [], by simp, close_wantsFormula nodes stack op hWants⟩
  | cons frame extra ih =>
    obtain ⟨hFrame, hRest⟩ := List.forall_mem_cons.mp hExtra
    cases frame with
    | not => exact ⟨nodes, .not :: extra, hExtra, rfl⟩
    | connective op' left => exact ⟨nodes, .connective op' left :: extra, hExtra, rfl⟩
    | temporal q p =>
      rw [List.cons_append, close_temporal]
      exact ih hRest _
    | group => exact absurd hFrame id
    | untlLeft q => exact absurd hFrame id
    | untlRight q left => exact absurd hFrame id

/-- Where an operand is wanted above `stack`, the tokens lead behind a complete
operand, with only operators with an open end left above `stack`. -/
def ReadsOperand (tokens : List Token) (stack : List Frame) : Prop :=
  ∀ nodes, ∃ nodes' extra, (∀ frame ∈ extra, IsOpenEnded frame) ∧
    read { nodes, stack, phase := .operand } tokens =
      some { nodes := nodes', stack := extra ++ stack, phase := .continuation }

section ReadsOperand

variable {stack : List Frame} {tokens left right : List Token}

/-- An operator in front that stays open waits on top of the stack. -/
theorem readsOperand_openEnded {token : Token} (frame : Frame) (hFrame : IsOpenEnded frame)
    (hToken : ∀ nodes, advance { nodes, stack, phase := .operand } token =
      some { nodes, stack := frame :: stack, phase := .operand })
    (h : ReadsOperand tokens (frame :: stack)) : ReadsOperand (token :: tokens) stack := by
  intro nodes
  obtain ⟨nodes', extra, hExtra, hRead⟩ := h nodes
  refine ⟨nodes', extra ++ [frame], ?_, ?_⟩
  · intro frame' hMem
    rcases List.mem_append.mp hMem with hMem | hMem
    · exact hExtra frame' hMem
    · rw [List.mem_singleton.mp hMem]
      exact hFrame
  · rw [read, hToken nodes, Option.bind_some, hRead, List.append_assoc]
    rfl

/-- After an operand, a token that is no connective meets the operator below. -/
theorem read_after_operand (token : Token) (hToken : ∀ op, token ≠ .connective op)
    (h : ReadsOperand tokens stack) (nodes : Array (Node Nat)) (rest : List Token) :
    ∃ nodes', read { nodes, stack, phase := .operand } (tokens ++ token :: rest) =
      (close token nodes' stack).bind fun next => next.read rest := by
  obtain ⟨nodesRead, extra, hExtra, hRead⟩ := h nodes
  obtain ⟨nodes', hClosed⟩ := close_openEnded hToken hExtra nodesRead stack
  refine ⟨nodes', ?_⟩
  rw [read_append, hRead, Option.bind_some, read, ← hClosed]
  rfl

theorem readsOperand_group (h : ReadsOperand tokens (.group :: stack)) :
    ReadsOperand (.leftParen :: (tokens ++ [.rightParen])) stack := by
  intro nodes
  obtain ⟨nodes', hRead⟩ := read_after_operand .rightParen (by simp) h nodes []
  exact ⟨nodes', [], by simp, hRead⟩

theorem readsOperand_untl {q : Quantifier} (hLeft : ReadsOperand left (.untlLeft q :: stack))
    (hRight : ∀ place, ReadsOperand right (.untlRight q place :: stack)) :
    ReadsOperand (.quantifier q :: .leftParen :: (left ++ .untl :: (right ++ [.rightParen])))
      stack := by
  intro nodes
  obtain ⟨nodesLeft, hReadLeft⟩ :=
    read_after_operand .untl (by simp) hLeft nodes (right ++ [.rightParen])
  obtain ⟨nodesRight, hReadRight⟩ :=
    read_after_operand .rightParen (by simp) (hRight (nodesLeft.size - 1)) nodesLeft []
  exact ⟨_, [], by simp, hReadLeft.trans hReadRight⟩

theorem readsOperand_connective (op : Connective) (hWants : WantsFormula stack)
    (hLeft : ReadsOperand left stack)
    (hRight : ∀ place waiting, ReadsOperand right (.connective op place :: (waiting ++ stack))) :
    ReadsOperand (left ++ .connective op :: right) stack := by
  intro nodes
  obtain ⟨nodesLeft, extra, hExtra, hReadLeft⟩ := hLeft nodes
  obtain ⟨nodesOpen, waiting, hWaiting, hTaken⟩ :=
    close_connective_openEnded op hExtra nodesLeft hWants
  obtain ⟨nodesRight, extra', hExtra', hReadRight⟩ :=
    hRight (nodesOpen.size - 1) waiting nodesOpen
  refine ⟨nodesRight, extra' ++ .connective op (nodesOpen.size - 1) :: waiting, ?_, ?_⟩
  · grind [IsOpenEnded]
  · rw [read_append, hReadLeft, Option.bind_some, read]
    change (close (.connective op) nodesLeft (extra ++ stack)).bind _ = _
    rw [hTaken, Option.bind_some, openConnective, hReadRight]
    simp

end ReadsOperand

-- The derivation of a formula is followed by the number of its tokens; a formula
-- that is an expression counts as larger than the expression itself.
mutual

theorem readsOperand_formula {tokens : List Token} {t : Tree} {stack : List Frame}
    (h : IsFormula tokens t) (hWants : WantsFormula stack) : ReadsOperand tokens stack := by
  cases h with
  | expression hExpression => exact readsOperand_expression hExpression
  | connective op hLeft hRight =>
    exact readsOperand_connective op hWants (readsOperand_expression hLeft) fun place waiting =>
      readsOperand_formula hRight trivial
termination_by (tokens.length, 1)
decreasing_by
  all_goals simp_wf
  all_goals grind

theorem readsOperand_expression {tokens : List Token} {t : Tree} {stack : List Frame}
    (h : IsExpression tokens t) : ReadsOperand tokens stack := by
  cases h with
  | atom name =>
    intro nodes
    exact ⟨_, [], by simp, rfl⟩
  | not hFormula =>
    exact readsOperand_openEnded .not trivial (fun _ => rfl)
      (readsOperand_formula hFormula trivial)
  | group hFormula => exact readsOperand_group (readsOperand_formula hFormula trivial)
  | temporal q p hExpression =>
    exact readsOperand_openEnded (.temporal q p) trivial (fun _ => rfl)
      (readsOperand_expression hExpression)
  | untl q hLeft hRight =>
    exact readsOperand_untl (readsOperand_expression hLeft) fun place =>
      readsOperand_expression hRight
termination_by (tokens.length, 0)
decreasing_by
  all_goals simp_wf
  all_goals grind

end

/-- **Completeness.** Every formula is read up to the end token. -/
theorem read_complete {tokens : List Token} {t : Tree} (h : IsFormula tokens t) :
    ∃ parser, start.read (tokens ++ [.endOfText]) = some parser := by
  have hOperand : ReadsOperand tokens [] := readsOperand_formula h trivial
  obtain ⟨nodes, hRead⟩ := read_after_operand .endOfText (by simp) hOperand #[] []
  exact ⟨_, hRead⟩

end BranchingTime.Formula.Parser
