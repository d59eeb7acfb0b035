import BranchingTime.Proofs.Formula.Automaton
import BranchingTime.Proofs.Token.Scanning

/-!
# BranchingTime — the language of formulas

What the parser accepts, as a property of texts: the automaton runs on the
tokens of the text, which end with the end token. A formula that is parsed, built,
or built from parsed ones lays out a tree.

## Results

* `IsObtained.exists_layout` — every formula that can be had lays out a tree.
* `accepts_iff_isSentence` — a text is parsed iff its tokens are a sentence of
  the grammar, and then as the tree of one of their derivations.
-/

namespace BranchingTime.Formula

open Formula.Parser

-- ---------------------------------------------------------------------------
-- Parsing
-- ---------------------------------------------------------------------------

/-- A text is parsed when the automaton reads its tokens to the end. -/
theorem parse_eq_ok_iff {text : String} {f : Formula} :
    parse text = .ok f ↔
      ∃ parser, start.read (Token.lex text.toList) = some parser ∧
        (⟨parser.nodes⟩ : Formula) = f := by
  rw [← Token.map_token_tokenize, ← toOption_run, parse]
  cases start.run (tokenize text) with
  | ok parser => simp [Except.map, Except.toOption]
  | error e => simp [Except.map, Except.toOption]

/-- What a text is parsed as, its tokens can be read as. -/
theorem isFormula_of_parse {text : String} {tokens : List Token} {f : Formula}
    (hTokens : Token.lex text.toList = tokens ++ [.endOfText]) (hEnd : .endOfText ∉ tokens)
    (hParse : parse text = .ok f) : ∃ t, IsFormula tokens t ∧ f = t.layout := by
  obtain ⟨parser, hRead, rfl⟩ := parse_eq_ok_iff.mp hParse
  rw [hTokens] at hRead
  exact read_sound hEnd hRead

theorem exists_layout_of_parse {text : String} {f : Formula} (hParse : parse text = .ok f) :
    ∃ t : Tree, f = t.layout := by
  obtain ⟨tokens, hTokens, hInside⟩ := Token.lex_eq_append text.toList
  obtain ⟨t, -, hLayout⟩ := isFormula_of_parse hTokens (fun h => hInside _ h) hParse
  exact ⟨t, hLayout⟩

-- ---------------------------------------------------------------------------
-- Formulas that can be had
-- ---------------------------------------------------------------------------

/-- The formulas that parsing and building lead to, in any order. -/
inductive IsObtained : Formula → Prop where
  | parse {text : String} {f : Formula} : parse text = .ok f → IsObtained f
  | atom (name : String) : IsObtained (.atom name)
  | not {f : Formula} : f.IsObtained → f.not.IsObtained
  | connect {f g : Formula} (op : Connective) :
      f.IsObtained → g.IsObtained → (f.connect op g).IsObtained
  | temporal {f : Formula} (q : Quantifier) (p : PathOperator) :
      f.IsObtained → (f.temporal q p).IsObtained
  | untl {f g : Formula} (q : Quantifier) :
      f.IsObtained → g.IsObtained → (f.untl q g).IsObtained

theorem IsObtained.exists_layout {f : Formula} (hf : f.IsObtained) :
    ∃ t : Tree, f = t.layout := by
  induction hf with
  | parse hParse => exact exists_layout_of_parse hParse
  | atom name => exact ⟨.atom name, rfl⟩
  | not _ ih =>
    obtain ⟨t, rfl⟩ := ih
    exact ⟨.not t, rfl⟩
  | connect op _ _ ihf ihg =>
    obtain ⟨t, rfl⟩ := ihf
    obtain ⟨u, rfl⟩ := ihg
    exact ⟨.connective op t u, rfl⟩
  | temporal q p _ ih =>
    obtain ⟨t, rfl⟩ := ih
    exact ⟨.temporal q p t, rfl⟩
  | untl q _ _ ihf ihg =>
    obtain ⟨t, rfl⟩ := ihf
    obtain ⟨u, rfl⟩ := ihg
    exact ⟨.untl q t u, rfl⟩

-- ---------------------------------------------------------------------------
-- Accepted texts
-- ---------------------------------------------------------------------------

/-- **The language.** A text is parsed iff its tokens before the end token are
derivable in the grammar, and what it is parsed as lays out the tree of one
derivation. -/
theorem accepts_iff_isSentence (text : String) :
    ∃ tokens, (tokenize text).map LocatedToken.token = tokens ++ [.endOfText] ∧
      ((∃ f, parse text = .ok f) ↔ IsSentence tokens) ∧
      ∀ f, parse text = .ok f → ∃ t, IsFormula tokens t ∧ f = t.layout := by
  obtain ⟨tokens, hTokens, hInside⟩ := Token.lex_eq_append text.toList
  have hEnd : .endOfText ∉ tokens := fun h => hInside _ h
  refine ⟨tokens, hTokens, ⟨?_, ?_⟩, fun f hParse => isFormula_of_parse hTokens hEnd hParse⟩
  · rintro ⟨f, hParse⟩
    obtain ⟨t, hFormula, -⟩ := isFormula_of_parse hTokens hEnd hParse
    exact ⟨t, hFormula⟩
  · rintro ⟨t, hFormula⟩
    obtain ⟨parser, hRead⟩ := read_complete hFormula
    rw [← hTokens] at hRead
    exact ⟨_, parse_eq_ok_iff.mpr ⟨parser, hRead, rfl⟩⟩

end BranchingTime.Formula
