import BranchingTime.Proofs.Formula.Language
import BranchingTime.Proofs.Formula.Printing

/-!
# BranchingTime — reading back what was printed

The text of a tree spells tokens that show the same parentheses as the text.
The automaton reads these tokens back as the tree they come from, although the
grammar allows other readings: a negation or a connective stands bare only
where the automaton takes as much as it can, in parentheses everywhere else.

## Results

* `Token.spells_render` — the tokens of a printed tree.
* `Parser.reads_tokens` — the automaton reads them as that tree.
* `parse_render_iff` — a formula is read back iff its atoms are words that are
  no keywords.
-/

namespace BranchingTime

-- ---------------------------------------------------------------------------
-- The tokens of a tree
-- ---------------------------------------------------------------------------

namespace Tree

/-- Puts parentheses around tokens, if they are needed. -/
def groupedTokens (isNeeded : Bool) (tokens : List Token) : List Token :=
  if isNeeded then .leftParen :: (tokens ++ [.rightParen]) else tokens

/-- The tokens of the text of a tree. -/
def tokens : Tree → List Token
  | atom name => [.atom name]
  | not t => .not :: groupedTokens t.isConnective t.tokens
  | connective op t u => groupedTokens t.isLoose t.tokens ++ .connective op :: u.tokens
  | temporal q p t => .temporal q p :: groupedTokens t.isLoose t.tokens
  | untl q t u =>
    .quantifier q :: .leftParen ::
      (groupedTokens t.isLoose t.tokens ++
        .untl :: (groupedTokens u.isLoose u.tokens ++ [.rightParen]))

end Tree

namespace Token

/-- The text spells the tokens, where no letter follows. -/
def Spells (text : String) (tokens : List Token) : Prop :=
  ∀ cs : List Char, (∀ c ∈ cs.head?, c.isAlpha = false) →
    lex (text.toList ++ cs) = tokens ++ lex cs

theorem spells_atom {name : String} (hName : IsAtomName name) : Spells name [.atom name] := by
  intro cs hNext
  obtain ⟨hNonempty, hAlpha, hNotKeyword⟩ := hName
  rw [lex_word (by simpa using hNonempty) (List.all_eq_true.mp hAlpha) hNext, String.ofList_toList,
    ofWord_of_notMem hNotKeyword]
  rfl

theorem spells_keyword {word : String} {token : Token} (hKeyword : (word, token) ∈ keywords) :
    Spells word [token] := by
  intro cs hNext
  have hWords : ∀ entry ∈ keywords, entry.1.toList ≠ [] ∧
      entry.1.toList.all Char.isAlpha = true ∧ ofWord entry.1 = entry.2 := by
    decide
  obtain ⟨hNonempty, hAlpha, hToken⟩ := hWords _ hKeyword
  rw [lex_word hNonempty (List.all_eq_true.mp hAlpha) hNext, String.ofList_toList, hToken]
  rfl

theorem lex_blank (cs : List Char) : lex (" ".toList ++ cs) = lex cs :=
  lex_spacing rfl cs

theorem lex_open (cs : List Char) : lex ("(".toList ++ cs) = .leftParen :: lex cs :=
  lex_leftParen cs

theorem lex_close (cs : List Char) : lex (")".toList ++ cs) = .rightParen :: lex cs :=
  lex_rightParen cs

theorem Spells.grouped {text : String} {tokens : List Token} (h : Spells text tokens)
    (isNeeded : Bool) :
    Spells (Tree.grouped isNeeded text) (Tree.groupedTokens isNeeded tokens) := by
  intro cs hNext
  cases isNeeded with
  | false => exact h cs hNext
  | true =>
    have hText : (Tree.grouped true text).toList ++ cs =
        "(".toList ++ (text.toList ++ (")".toList ++ cs)) := by
      simp [Tree.grouped]
    rw [hText, lex_open, h (")".toList ++ cs) (by simp), lex_close]
    simp [Tree.groupedTokens]

/-- The text of a tree spells its tokens, if each atom spells itself. -/
theorem spells_render (t : Tree) (hNames : ∀ name ∈ t.atoms, IsAtomName name) :
    Spells t.render t.tokens := by
  induction t with
  | atom name => exact spells_atom (hNames name (by simp [Tree.atoms]))
  | not t ih =>
    intro cs hNext
    have hNot : Spells "NOT" [.not] := spells_keyword (by simp [keywords])
    have hText : (Tree.not t).render.toList ++ cs =
        "NOT".toList ++ (" ".toList ++ ((Tree.grouped t.isConnective t.render).toList ++ cs)) := by
      simp [Tree.render]
    rw [hText, hNot _ (by simp), lex_blank, (ih hNames).grouped _ cs hNext]
    rfl
  | connective op t u iht ihu =>
    intro cs hNext
    obtain ⟨hLeft, hRight⟩ := List.forall_mem_append.mp hNames
    have hOp : Spells op.keyword [.connective op] := spells_keyword (by cases op <;> decide)
    have hText : (Tree.connective op t u).render.toList ++ cs =
        (Tree.grouped t.isLoose t.render).toList ++
          (" ".toList ++ (op.keyword.toList ++ (" ".toList ++ (u.render.toList ++ cs)))) := by
      simp [Tree.render]
    rw [hText, (iht hLeft).grouped _ _ (by simp), lex_blank, hOp _ (by simp), lex_blank,
      ihu hRight cs hNext]
    simp [Tree.tokens]
  | temporal q p t ih =>
    intro cs hNext
    have hOp : Spells (temporalKeyword q p) [.temporal q p] :=
      spells_keyword (by cases q <;> cases p <;> decide)
    have hText : (Tree.temporal q p t).render.toList ++ cs =
        (temporalKeyword q p).toList ++
          (" ".toList ++ ((Tree.grouped t.isLoose t.render).toList ++ cs)) := by
      simp [Tree.render]
    rw [hText, hOp _ (by simp), lex_blank, (ih hNames).grouped _ cs hNext]
    rfl
  | untl q t u iht ihu =>
    intro cs hNext
    obtain ⟨hLeft, hRight⟩ := List.forall_mem_append.mp hNames
    have hQuantifier : Spells q.keyword [.quantifier q] := spells_keyword (by cases q <;> decide)
    have hUntl : Spells "U" [.untl] := spells_keyword (by decide)
    have hText : (Tree.untl q t u).render.toList ++ cs =
        q.keyword.toList ++ ("(".toList ++ ((Tree.grouped t.isLoose t.render).toList ++
          (" ".toList ++ ("U".toList ++ (" ".toList ++
            ((Tree.grouped u.isLoose u.render).toList ++ (")".toList ++ cs))))))) := by
      simp [Tree.render]
    rw [hText, hQuantifier _ (by simp), lex_open, (iht hLeft).grouped _ _ (by simp), lex_blank,
      hUntl _ (by simp), lex_blank, (ihu hRight).grouped _ _ (by simp), lex_close]
    simp [Tree.tokens]

end Token

namespace Formula.Parser

-- ---------------------------------------------------------------------------
-- Reading the tokens back
-- ---------------------------------------------------------------------------

/-- Wherever an operand is wanted, the tokens are read as the tree, and the next
token meets the operator that waited. -/
def ReadsExpression (tokens : List Token) (t : Tree) : Prop :=
  ∀ nodes stack token rest, ∃ nodes', EndsWith nodes' nodes.toList t ∧
    read { nodes, stack, phase := .operand } (tokens ++ token :: rest) =
      (close token nodes' stack).bind fun next => next.read rest

/-- The same where a formula is wanted and no connective comes next. -/
def ReadsFormula (tokens : List Token) (t : Tree) : Prop :=
  ∀ nodes stack token rest, WantsFormula stack → (∀ op, token ≠ .connective op) →
    ∃ nodes', EndsWith nodes' nodes.toList t ∧
      read { nodes, stack, phase := .operand } (tokens ++ token :: rest) =
        (close token nodes' stack).bind fun next => next.read rest

section Reads

variable {tokens left right : List Token} {t u : Tree}

theorem ReadsExpression.formula (h : ReadsExpression tokens t) : ReadsFormula tokens t :=
  fun nodes stack token rest _ _ => h nodes stack token rest

theorem readsExpression_atom (name : String) : ReadsExpression [.atom name] (.atom name) := by
  intro nodes stack token rest
  refine ⟨nodes.push (.atom name), ?_, rfl⟩
  rw [EndsWith, Array.toList_push]
  rfl

theorem ReadsFormula.group (h : ReadsFormula tokens t) :
    ReadsExpression (.leftParen :: (tokens ++ [.rightParen])) t := by
  intro nodes stack token rest
  obtain ⟨nodes', hNodes, hRead⟩ :=
    h nodes (.group :: stack) .rightParen (token :: rest) trivial (by simp)
  refine ⟨nodes', hNodes, ?_⟩
  rw [List.cons_append, List.append_assoc]
  exact hRead

theorem ReadsFormula.not (h : ReadsFormula tokens t) : ReadsFormula (.not :: tokens) (.not t) := by
  intro nodes stack token rest hWants hToken
  obtain ⟨nodes', hNodes, hRead⟩ := h nodes (.not :: stack) token rest trivial hToken
  rw [close_not_of_ne _ _ hToken] at hRead
  exact ⟨_, hNodes.push_not, hRead⟩

theorem ReadsExpression.connective (op : Connective) (hLeft : ReadsExpression left t)
    (hRight : ReadsFormula right u) :
    ReadsFormula (left ++ .connective op :: right) (.connective op t u) := by
  intro nodes stack token rest hWants hToken
  obtain ⟨nodesLeft, hNodesLeft, hReadLeft⟩ :=
    hLeft nodes stack (.connective op) (right ++ token :: rest)
  obtain ⟨nodes', hNodes, hRead⟩ :=
    hRight nodesLeft (.connective op (nodesLeft.size - 1) :: stack) token rest trivial hToken
  rw [close_wantsFormula nodesLeft stack op hWants, Option.bind_some, openConnective, hRead,
    close_connective_of_ne _ _ hToken] at hReadLeft
  rw [hNodesLeft] at hNodes
  rw [hNodesLeft.root_eq] at hReadLeft
  refine ⟨_, hNodes.push_connective op, ?_⟩
  rw [List.append_assoc, List.cons_append]
  exact hReadLeft

theorem ReadsExpression.temporal (q : Quantifier) (p : PathOperator)
    (h : ReadsExpression tokens t) :
    ReadsExpression (.temporal q p :: tokens) (.temporal q p t) := by
  intro nodes stack token rest
  obtain ⟨nodes', hNodes, hRead⟩ := h nodes (.temporal q p :: stack) token rest
  rw [close_temporal] at hRead
  exact ⟨_, hNodes.push_temporal q p, hRead⟩

theorem ReadsExpression.untl (q : Quantifier) (hLeft : ReadsExpression left t)
    (hRight : ReadsExpression right u) :
    ReadsExpression (.quantifier q :: .leftParen :: (left ++ .untl :: (right ++ [.rightParen])))
      (.untl q t u) := by
  intro nodes stack token rest
  obtain ⟨nodesLeft, hNodesLeft, hReadLeft⟩ :=
    hLeft nodes (.untlLeft q :: stack) .untl (right ++ .rightParen :: token :: rest)
  obtain ⟨nodes', hNodes, hRead⟩ :=
    hRight nodesLeft (.untlRight q (nodesLeft.size - 1) :: stack) .rightParen (token :: rest)
  have hBoth := hReadLeft.trans hRead
  rw [hNodesLeft] at hNodes
  rw [hNodesLeft.root_eq] at hBoth
  refine ⟨_, hNodes.push_untl q, ?_⟩
  have hTokens : .quantifier q :: .leftParen :: (left ++ .untl :: (right ++ [.rightParen])) ++
        token :: rest =
      .quantifier q :: .leftParen ::
        (left ++ .untl :: (right ++ .rightParen :: token :: rest)) := by
    simp
  rw [hTokens]
  exact hBoth

/-- **Reading back.** The tokens of a tree are read as that tree: as a formula
when bare, as an expression when in parentheses where they are needed. -/
theorem reads_tokens (t : Tree) :
    ReadsFormula t.tokens t ∧ ReadsExpression (Tree.groupedTokens t.isLoose t.tokens) t := by
  induction t with
  | atom name => exact ⟨(readsExpression_atom name).formula, readsExpression_atom name⟩
  | not t ih =>
    have hNot : ReadsFormula (Tree.not t).tokens (.not t) := by
      refine ReadsFormula.not ?_
      cases t.isConnective with
      | false => exact ih.1
      | true => exact ih.1.group.formula
    exact ⟨hNot, hNot.group⟩
  | connective op t u iht ihu =>
    have hConnective := iht.2.connective op ihu.1
    exact ⟨hConnective, hConnective.group⟩
  | temporal q p t ih =>
    have hTemporal := ih.2.temporal q p
    exact ⟨hTemporal.formula, hTemporal⟩
  | untl q t u iht ihu =>
    have hUntl := iht.2.untl q ihu.2
    exact ⟨hUntl.formula, hUntl⟩

end Reads

end Formula.Parser

-- ---------------------------------------------------------------------------
-- The round trip
-- ---------------------------------------------------------------------------

namespace Formula

/-- A tree is read back from its text, if each atom spells itself. -/
theorem parse_render (t : Tree) (hNames : ∀ name ∈ t.atoms, Token.IsAtomName name) :
    parse t.render = .ok t.layout := by
  obtain ⟨nodes, hNodes, hRead⟩ :=
    (Parser.reads_tokens t).1 #[] [] .endOfText [] trivial (by simp)
  have hLex : Token.lex t.render.toList = t.tokens ++ [.endOfText] := by
    have hSpells := Token.spells_render t hNames [] (by simp)
    rwa [List.append_nil, Token.lex_nil] at hSpells
  rw [← hLex] at hRead
  exact parse_eq_ok_iff.mpr ⟨_, hRead, hNodes.eq_layout⟩

-- The derivation is followed by the number of its tokens, an expression before the
-- formula that it is.
mutual

theorem atom_mem_of_isFormula {tokens : List Token} {t : Tree} {name : String}
    (h : IsFormula tokens t) (hName : name ∈ t.atoms) : .atom name ∈ tokens := by
  cases h with
  | expression hExpression => exact atom_mem_of_isExpression hExpression hName
  | connective op hLeft hRight =>
    rcases List.mem_append.mp hName with hName | hName
    · exact List.mem_append_left _ (atom_mem_of_isExpression hLeft hName)
    · exact List.mem_append_right _ (List.mem_cons_of_mem _ (atom_mem_of_isFormula hRight hName))
termination_by (tokens.length, 1)
decreasing_by
  all_goals grind

theorem atom_mem_of_isExpression {tokens : List Token} {t : Tree} {name : String}
    (h : IsExpression tokens t) (hName : name ∈ t.atoms) : .atom name ∈ tokens := by
  cases h with
  | atom name' =>
    rw [List.mem_singleton.mp hName]
    exact List.mem_singleton_self _
  | not hFormula => exact List.mem_cons_of_mem _ (atom_mem_of_isFormula hFormula hName)
  | group hFormula =>
    have hMem := atom_mem_of_isFormula hFormula hName
    simp [hMem]
  | temporal q p hExpression =>
    exact List.mem_cons_of_mem _ (atom_mem_of_isExpression hExpression hName)
  | untl q hLeft hRight =>
    rcases List.mem_append.mp hName with hName | hName
    · have hMem := atom_mem_of_isExpression hLeft hName
      simp [hMem]
    · have hMem := atom_mem_of_isExpression hRight hName
      simp [hMem]
termination_by (tokens.length, 0)
decreasing_by
  all_goals grind

end

/-- The atoms of a parsed formula are words that are no keywords. -/
theorem isAtomName_of_parse {text : String} {t : Tree} (hParse : parse text = .ok t.layout) :
    ∀ name ∈ t.atoms, Token.IsAtomName name := by
  obtain ⟨tokens, hTokens, hInside⟩ := Token.lex_eq_append text.toList
  obtain ⟨u, hFormula, hLayout⟩ := isFormula_of_parse hTokens (fun h => hInside _ h) hParse
  rw [Tree.layout_injective hLayout]
  intro name hName
  exact hInside _ (atom_mem_of_isFormula hFormula hName)

/-- **Round trip.** A formula, whatever the names of its atoms, is read back from its
text iff each of its atoms is a word of letters that is no keyword. -/
theorem parse_render_iff {f : Formula} (hf : f.IsObtained) :
    parse f.render = .ok f ↔ ∀ name ∈ f.atoms, Token.IsAtomName name := by
  obtain ⟨t, rfl⟩ := hf.exists_layout
  have hAtoms : (∀ name ∈ t.layout.atoms, Token.IsAtomName name) ↔
      ∀ name ∈ t.atoms, Token.IsAtomName name := by
    simp only [Tree.mem_atoms_layout]
  rw [hAtoms, render_layout]
  exact ⟨isAtomName_of_parse, parse_render t⟩

/-- `AG (NOT (p AND E(q U (NOT p))))` is read back; with `U` for `q` it is not. -/
theorem parse_render_nested :
    let f (name : String) := (((atom "p").connect .and
      ((atom name).untl .some (atom "p").not)).not).temporal .all .always
    (∀ name, (f name).IsObtained) ∧ parse (f "q").render = .ok (f "q") ∧
      parse (f "U").render ≠ .ok (f "U") := by
  intro f
  have hObtained (name : String) : (f name).IsObtained :=
    .temporal .all .always (.not (.connect .and (.atom "p")
      (.untl .some (.atom name) (.not (.atom "p")))))
  have hAtoms (name : String) : ∀ x, x ∈ (f name).atoms ↔ x ∈ ["p", name, "p"] := fun _ =>
    Tree.mem_atoms_layout (t := .temporal .all .always (.not (.connective .and (.atom "p")
      (.untl .some (.atom name) (.not (.atom "p"))))))
  refine ⟨hObtained, (parse_render_iff (hObtained "q")).mpr ?_, ?_⟩
  · simp only [hAtoms]
    decide +kernel
  · rw [Ne, parse_render_iff (hObtained "U")]
    simp only [hAtoms]
    decide +kernel

end Formula

end BranchingTime
