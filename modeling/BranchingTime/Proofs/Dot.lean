import BranchingTime.Dot
import BranchingTime.Proofs.Text.Splitting

/-!
# BranchingTime — reading graphs back

A text spells a list of tokens if it is made of theirs, with blanks between
them where two names would run together. The scanner finds the tokens that a
text spells, and a graph is read from the tokens that its statements have. So a
graph is read back from the way it is spelled here, which is how drawings spell
theirs.

## Results

* `Spells.scan?_eq` — the scanner finds the tokens that a text spells.
* `Graph.read?_spelling` — a graph is read back from its spelling.
-/

namespace BranchingTime.Dot

-- ---------------------------------------------------------------------------
-- Quoted texts
-- ---------------------------------------------------------------------------

/-- Can `text` stand between quotes? Its quotes are escaped, and its last
character is not a backslash that would escape the closing quote. -/
inductive IsQuotable : List Char → Prop
  | nil : IsQuotable []
  | plain {c : Char} {rest : List Char} (hQuote : c ≠ '\x22') (hBackslash : c ≠ '\\')
    (hRest : IsQuotable rest) : IsQuotable (c :: rest)
  | escape (c : Char) {rest : List Char} (hRest : IsQuotable rest) :
    IsQuotable ('\\' :: c :: rest)

theorem IsQuotable.append {front back : List Char} (hFront : IsQuotable front)
    (hBack : IsQuotable back) : IsQuotable (front ++ back) := by
  induction hFront with
  | nil => exact hBack
  | plain hQuote hBackslash _ ih => exact .plain hQuote hBackslash ih
  | escape c _ ih => exact .escape c ih

theorem isQuotable_of_forall {text : List Char}
    (hText : ∀ c ∈ text, c ≠ '\x22' ∧ c ≠ '\\') : IsQuotable text := by
  induction text with
  | nil => exact .nil
  | cons c rest ih =>
    obtain ⟨⟨hQuote, hBackslash⟩, hRest⟩ := List.forall_mem_cons.mp hText
    exact .plain hQuote hBackslash (ih hRest)

-- ---------------------------------------------------------------------------
-- Names
-- ---------------------------------------------------------------------------

/-- Is a plain name made of the characters of one, and can a quoted one stand
between quotes? -/
def Name.IsProper : Name → Prop
  | .plain text => text ≠ "" ∧ ∀ c ∈ text.toList, isNameChar c = true
  | .quoted text => IsQuotable text.toList

theorem Name.isProper_plain {text : String}
    (hText : (text != "" && text.toList.all isNameChar) = true) : (Name.plain text).IsProper := by
  rw [Bool.and_eq_true, bne_iff_ne, List.all_eq_true] at hText
  exact hText

/-- A plain name can also stand between quotes. -/
theorem Name.IsProper.isQuotable {text : String} (hText : (Name.plain text).IsProper) :
    IsQuotable text.toList := by
  refine isQuotable_of_forall fun c hc => ?_
  have hName := hText.2 c hc
  constructor <;> (rintro rfl; exact absurd hName (by decide))

def Name.spelling : Name → List Char
  | .plain text => text.toList
  | .quoted text => '\x22' :: (text.toList ++ ['\x22'])

/-- Does `text` start with a character that ends a plain name in front of it? -/
def EndsName : List Char → Prop
  | [] => False
  | c :: _ => isNameChar c = false

theorem scan?_cons {place next : Place} {c : Char} {found : List Token}
    (hStep : place.step? c = some (found, next)) (rest : List Char) :
    scan? place (c :: rest) = (scan? next rest).map (found ++ ·) := by
  rw [scan?, hStep]
  rfl

/-- A step that completes no token. -/
theorem scan?_cons_nil {place next : Place} {c : Char}
    (hStep : place.step? c = some ([], next)) (rest : List Char) :
    scan? place (c :: rest) = scan? next rest := by
  rw [scan?_cons hStep]
  exact Option.map_id_apply

/-- The characters of a plain name are collected. -/
theorem scan?_inName {word : List Char} (hWord : ∀ c ∈ word, isNameChar c = true)
    (seen rest : List Char) :
    scan? (.inName seen) (word ++ rest) = scan? (.inName (word.reverse ++ seen)) rest := by
  induction word generalizing seen with
  | nil => rfl
  | cons c word ih =>
    obtain ⟨hc, hWord⟩ := List.forall_mem_cons.mp hWord
    have hStep : Place.step? (.inName seen) c = some ([], .inName (c :: seen)) := if_pos hc
    rw [List.cons_append, scan?_cons_nil hStep, ih hWord, List.reverse_cons, List.append_assoc,
      List.singleton_append]

/-- Behind a plain name, the next token starts as it does between two tokens. -/
theorem scan?_inName_of_endsName {rest : List Char} (hRest : EndsName rest) (seen : List Char) :
    scan? (.inName seen) rest =
      (scan? .between rest).map (.name (.plain (String.ofList seen.reverse)) :: ·) := by
  cases rest with
  | nil => exact hRest.elim
  | cons c rest =>
    rw [scan?, scan?, Place.step?, Place.step?, if_neg (Bool.eq_false_iff.mp hRest)]
    cases start? c with
    | none => rfl
    | some =>
      rw [Option.map_some, Option.bind_some, Option.bind_some, Option.map_map]
      rfl

/-- Between quotes, what can stand there is collected. -/
theorem scan?_inQuotes {text : List Char} (hText : IsQuotable text) (seen rest : List Char) :
    scan? (.inQuotes seen) (text ++ rest) = scan? (.inQuotes (text.reverse ++ seen)) rest := by
  induction hText generalizing seen with
  | nil => rfl
  | @plain c text hQuote hBackslash _ ih =>
    have hStep : Place.step? (.inQuotes seen) c = some ([], .inQuotes (c :: seen)) := by
      simp [Place.step?, hQuote, hBackslash]
    rw [List.cons_append, scan?_cons_nil hStep, ih, List.reverse_cons, List.append_assoc,
      List.singleton_append]
  | @escape c text _ ih =>
    have hBackslash : Place.step? (.inQuotes seen) '\\' =
        some ([], .behindBackslash ('\\' :: seen)) := rfl
    have hTaken : Place.step? (.behindBackslash ('\\' :: seen)) c =
        some ([], .inQuotes (c :: '\\' :: seen)) := rfl
    rw [List.cons_append, List.cons_append, scan?_cons_nil hBackslash, scan?_cons_nil hTaken, ih]
    simp

theorem scan?_name {name : Name} (hName : name.IsProper) {rest : List Char}
    (hRest : EndsName rest) :
    scan? .between (name.spelling ++ rest) = (scan? .between rest).map (.name name :: ·) := by
  cases name with
  | plain text =>
    obtain ⟨hFilled, hWord⟩ := hName
    cases hChars : text.toList with
    | nil => exact absurd (String.toList_eq_nil_iff.mp hChars) hFilled
    | cons c word =>
      rw [hChars] at hWord
      obtain ⟨hc, hWord⟩ := List.forall_mem_cons.mp hWord
      have hText : String.ofList (word.reverse ++ [c]).reverse = text := by
        rw [List.reverse_append, List.reverse_reverse, List.reverse_singleton,
          List.singleton_append, ← hChars, String.ofList_toList]
      have hStep : Place.step? .between c = some ([], .inName [c]) := if_pos hc
      rw [Name.spelling, hChars, List.cons_append, scan?_cons_nil hStep, scan?_inName hWord,
        scan?_inName_of_endsName hRest, hText]
  | quoted text =>
    have hText : String.ofList (text.toList.reverse ++ []).reverse = text := by
      rw [List.append_nil, List.reverse_reverse, String.ofList_toList]
    have hOpen : Place.step? .between '\x22' = some ([], .inQuotes []) := by decide
    rw [Name.spelling, List.cons_append, List.append_assoc, scan?_cons_nil hOpen,
      scan?_inQuotes hName, List.singleton_append, scan?_cons rfl, hText]
    rfl

-- ---------------------------------------------------------------------------
-- Spelled tokens
-- ---------------------------------------------------------------------------

/-- Does `text` spell the tokens? It does not end in a plain name, which more
text might continue. -/
inductive Spells : List Token → List Char → Prop
  | nil : Spells [] []
  | blank {c : Char} {tokens : List Token} {text : List Char} (hBlank : c = ' ' ∨ c = '\n')
    (hRest : Spells tokens text) : Spells tokens (c :: text)
  | mark {c : Char} {tokens : List Token} {text : List Char} (hMark : isMark c = true)
    (hRest : Spells tokens text) : Spells (.mark c :: tokens) (c :: text)
  | arrow {tokens : List Token} {text : List Char} (hRest : Spells tokens text) :
    Spells (.arrow :: tokens) ('-' :: '>' :: text)
  | name {name : Name} {tokens : List Token} {text : List Char} (hName : name.IsProper)
    (hEnds : EndsName text) (hRest : Spells tokens text) :
    Spells (.name name :: tokens) (name.spelling ++ text)

theorem EndsName.append {text : List Char} (hText : EndsName text) (rest : List Char) :
    EndsName (text ++ rest) := by
  cases text with
  | nil => exact hText.elim
  | cons => exact hText

theorem Spells.append {tokens others : List Token} {text rest : List Char}
    (hText : Spells tokens text) (hRest : Spells others rest) :
    Spells (tokens ++ others) (text ++ rest) := by
  induction hText with
  | nil => exact hRest
  | blank hBlank _ ih => exact .blank hBlank ih
  | mark hMark _ ih => exact .mark hMark ih
  | arrow _ ih => exact .arrow ih
  | name hName hEnds _ ih =>
    rw [List.append_assoc]
    exact .name hName (hEnds.append rest) ih

theorem step?_blank {c : Char} (hBlank : c = ' ' ∨ c = '\n') :
    Place.step? .between c = some ([], .between) := by
  rcases hBlank with rfl | rfl <;> decide

theorem step?_mark {c : Char} (hMark : isMark c = true) :
    Place.step? .between c = some ([.mark c], .between) := by
  simp only [isMark, List.contains_iff_mem, List.mem_cons, List.not_mem_nil, or_false] at hMark
  rcases hMark with rfl | rfl | rfl | rfl | rfl | rfl | rfl <;> decide

/-- The scanner finds the tokens that a text spells. -/
theorem Spells.scan?_eq {tokens : List Token} {text : List Char} (hText : Spells tokens text) :
    scan? .between text = some tokens := by
  induction hText with
  | nil => rfl
  | blank hBlank _ ih => rw [scan?_cons_nil (step?_blank hBlank), ih]
  | mark hMark _ ih =>
    rw [scan?_cons (step?_mark hMark), ih]
    rfl
  | arrow _ ih =>
    have hDash : Place.step? .between '-' = some ([], .behindDash) := by decide
    have hArrow : Place.step? .behindDash '>' = some ([.arrow], .between) := rfl
    rw [scan?_cons_nil hDash, scan?_cons hArrow, ih]
    rfl
  | name hName hEnds _ ih => rw [scan?_name hName hEnds, ih, Option.map_some]

-- ---------------------------------------------------------------------------
-- Attributes
-- ---------------------------------------------------------------------------

namespace Attribute

structure IsProper (a : Attribute) : Prop where
  key : a.key.IsProper
  value : a.value.IsProper

def tokens (a : Attribute) : List Token :=
  [.name a.key, .mark '=', .name a.value]

def spelling (a : Attribute) : List Char :=
  a.key.spelling ++ '=' :: a.value.spelling

theorem IsProper.spells {a : Attribute} (ha : a.IsProper) {tokens : List Token}
    {text : List Char} (hText : Spells tokens text) (hEnds : EndsName text) :
    Spells (a.tokens ++ tokens) (a.spelling ++ text) := by
  rw [spelling, List.append_assoc]
  exact .name ha.key rfl (.mark rfl (.name ha.value hEnds hText))

end Attribute

/-- The tokens of the attributes at the end of a statement. -/
def bracketTokens : List Attribute → List Token
  | [] => []
  | attributes =>
    .mark '[' :: ([.mark ','].intercalate (attributes.map Attribute.tokens) ++ [.mark ']'])

/-- The attributes at the end of a statement, as they are spelled. -/
def brackets : List Attribute → List Char
  | [] => []
  | attributes =>
    ' ' :: '[' :: ([',', ' '].intercalate (attributes.map Attribute.spelling) ++ [']'])

theorem spells_attributes {attributes : List Attribute} (hFilled : attributes ≠ [])
    (hProper : ∀ a ∈ attributes, a.IsProper) {tokens : List Token} {text : List Char}
    (hText : Spells tokens text) (hEnds : EndsName text) :
    Spells ([.mark ','].intercalate (attributes.map Attribute.tokens) ++ tokens)
      ([',', ' '].intercalate (attributes.map Attribute.spelling) ++ text) := by
  induction attributes with
  | nil => exact absurd rfl hFilled
  | cons a rest ih =>
    obtain ⟨ha, hRest⟩ := List.forall_mem_cons.mp hProper
    cases rest with
    | nil => simpa using ha.spells hText hEnds
    | cons b rest =>
      have hTail := ih (List.cons_ne_nil b rest) hRest
      simp only [List.map_cons, List.intercalate_cons_cons, List.append_assoc] at hTail ⊢
      exact ha.spells (.mark rfl (.blank (.inl rfl) hTail)) rfl

theorem spells_brackets {attributes : List Attribute} (hProper : ∀ a ∈ attributes, a.IsProper)
    {tokens : List Token} {text : List Char} (hText : Spells tokens text) :
    Spells (bracketTokens attributes ++ tokens) (brackets attributes ++ text) := by
  cases attributes with
  | nil => exact hText
  | cons a rest =>
    have hClosed : Spells (.mark ']' :: tokens) (']' :: text) := .mark rfl hText
    have hInner := spells_attributes (List.cons_ne_nil a rest) hProper hClosed rfl
    simp only [bracketTokens, brackets, List.cons_append, List.append_assoc, List.nil_append]
    exact .blank (.inl rfl) (.mark rfl hInner)

theorem endsName_brackets (attributes : List Attribute) {text : List Char}
    (hText : EndsName text) : EndsName (brackets attributes ++ text) := by
  cases attributes with
  | nil => exact hText
  | cons => exact rfl

theorem mapM_map_of_forall {α β : Type} {write : α → β} {read? : β → Option α} {xs : List α}
    (hRead : ∀ x ∈ xs, read? (write x) = some x) : (xs.map write).mapM read? = some xs := by
  induction xs with
  | nil => rfl
  | cons x rest ih =>
    obtain ⟨hx, hRest⟩ := List.forall_mem_cons.mp hRead
    rw [List.map_cons, List.mapM_cons, hx, ih hRest]
    rfl

/-- Attributes are read back from their tokens. -/
theorem attributesOf?_bracketTokens (attributes : List Attribute) :
    attributesOf? (bracketTokens attributes) = some attributes := by
  cases attributes with
  | nil => rfl
  | cons a rest =>
    have hApart : ∀ piece ∈ (a :: rest).map Attribute.tokens, Token.mark ',' ∉ piece := by
      simp [Attribute.tokens]
    have hRead : ∀ b ∈ a :: rest, Attribute.ofTokens? b.tokens = some b := fun _ _ => rfl
    rw [bracketTokens, attributesOf?, List.getLast?_concat, if_pos rfl, List.dropLast_concat,
      List.splitOn_intercalate _ hApart (List.cons_ne_nil _ _), mapM_map_of_forall hRead]
    simp

-- ---------------------------------------------------------------------------
-- Statements
-- ---------------------------------------------------------------------------

namespace Statement

/-- Are the names in a statement proper, and is the name of a node not the word
that starts the defaults? -/
def IsProper : Statement → Prop
  | .setting a => a.IsProper
  | .defaults attributes => ∀ a ∈ attributes, a.IsProper
  | .node name attributes =>
    name.IsProper ∧ name ≠ .plain "node" ∧ ∀ a ∈ attributes, a.IsProper
  | .edge source target attributes =>
    source.IsProper ∧ target.IsProper ∧ ∀ a ∈ attributes, a.IsProper

def tokens : Statement → List Token
  | .setting a => a.tokens
  | .defaults attributes => .name (.plain "node") :: bracketTokens attributes
  | .node name attributes => .name name :: bracketTokens attributes
  | .edge source target attributes =>
    .name source :: .arrow :: .name target :: bracketTokens attributes

def spelling : Statement → List Char
  | .setting a => a.spelling
  | .defaults attributes => (Name.plain "node").spelling ++ brackets attributes
  | .node name attributes => name.spelling ++ brackets attributes
  | .edge source target attributes =>
    source.spelling ++ ' ' :: '-' :: '>' :: ' ' :: (target.spelling ++ brackets attributes)

theorem semicolon_notMem_bracketTokens (attributes : List Attribute) :
    Token.mark ';' ∉ bracketTokens attributes := by
  cases attributes with
  | nil => exact List.not_mem_nil
  | cons a rest =>
    have hInner : Token.mark ';' ∉ [Token.mark ','].intercalate
        ((a :: rest).map Attribute.tokens) :=
      Text.notMem_intercalate (by decide) (by simp [Attribute.tokens])
    simpa [bracketTokens] using hInner

/-- What starts with a name and goes on with attributes tells about nodes. -/
theorem ofTokens?_name (name : Name) (attributes : List Attribute) :
    ofTokens? (.name name :: bracketTokens attributes) =
      (attributesOf? (bracketTokens attributes)).map
        (if name = .plain "node" then .defaults else .node name) := by
  cases attributes <;> rfl

variable {statement : Statement}

theorem IsProper.spells (hProper : statement.IsProper) {tokens : List Token} {text : List Char}
    (hText : Spells tokens text) (hEnds : EndsName text) :
    Spells (statement.tokens ++ tokens) (statement.spelling ++ text) := by
  cases statement with
  | setting a => exact Attribute.IsProper.spells hProper hText hEnds
  | defaults attributes =>
    have hNode : (Name.plain "node").IsProper := Name.isProper_plain (by decide)
    rw [spelling, List.append_assoc]
    exact .name hNode (endsName_brackets attributes hEnds) (spells_brackets hProper hText)
  | node name attributes =>
    obtain ⟨hName, -, hAttributes⟩ := hProper
    rw [spelling, List.append_assoc]
    exact .name hName (endsName_brackets attributes hEnds) (spells_brackets hAttributes hText)
  | edge source target attributes =>
    obtain ⟨hSource, hTarget, hAttributes⟩ := hProper
    have hTail := Spells.name hTarget (endsName_brackets attributes hEnds)
      (spells_brackets hAttributes hText)
    simp only [spelling, List.append_assoc, List.cons_append]
    exact .name hSource rfl (.blank (.inl rfl) (.arrow (.blank (.inl rfl) hTail)))

theorem semicolon_notMem_tokens (statement : Statement) :
    Token.mark ';' ∉ statement.tokens := by
  cases statement <;> simp [tokens, Attribute.tokens, semicolon_notMem_bracketTokens]

/-- A statement is read back from its tokens. -/
theorem ofTokens?_tokens (hProper : statement.IsProper) :
    ofTokens? statement.tokens = some statement := by
  cases statement with
  | setting a => rfl
  | defaults attributes =>
    rw [tokens, ofTokens?_name, attributesOf?_bracketTokens, Option.map_some, if_pos rfl]
  | node name attributes =>
    rw [tokens, ofTokens?_name, attributesOf?_bracketTokens, Option.map_some,
      if_neg hProper.2.1]
  | edge source target attributes =>
    rw [tokens, ofTokens?, attributesOf?_bracketTokens, Option.map_some]

end Statement

-- ---------------------------------------------------------------------------
-- Graphs
-- ---------------------------------------------------------------------------

namespace Graph

structure IsProper (g : Graph) : Prop where
  name : g.name.IsProper
  statements : ∀ statement ∈ g.statements, statement.IsProper

/-- The tokens behind the opening brace. -/
def bodyTokens (g : Graph) : List Token :=
  (g.statements.map Statement.tokens).flatMap (· ++ [.mark ';']) ++ [.mark '\x7d']

def spelling (g : Graph) : List Char :=
  "digraph ".toList ++ (g.name.spelling ++ (" \x7b\n".toList ++
    (g.statements.flatMap (fun statement => statement.spelling ++ [';', '\n']) ++ ['\x7d', '\n'])))

theorem spells_statements {statements : List Statement}
    (hProper : ∀ statement ∈ statements, statement.IsProper) :
    Spells ((statements.map Statement.tokens).flatMap (· ++ [.mark ';']))
      (statements.flatMap fun statement => statement.spelling ++ [';', '\n']) := by
  induction statements with
  | nil => exact .nil
  | cons statement rest ih =>
    obtain ⟨hFirst, hRest⟩ := List.forall_mem_cons.mp hProper
    have hEnd : Spells [.mark ';'] [';', '\n'] := .mark rfl (.blank (.inr rfl) .nil)
    rw [List.map_cons, List.flatMap_cons, List.flatMap_cons]
    exact (hFirst.spells hEnd rfl).append (ih hRest)

theorem IsProper.spells {g : Graph} (hg : g.IsProper) :
    Spells (.name (.plain "digraph") :: .name g.name :: .mark '\x7b' :: g.bodyTokens)
      g.spelling := by
  have hKeyword : (Name.plain "digraph").IsProper := Name.isProper_plain (by decide)
  have hEnd : Spells [.mark '\x7d'] ['\x7d', '\n'] := .mark rfl (.blank (.inr rfl) .nil)
  have hBody := (spells_statements hg.statements).append hEnd
  exact .name hKeyword rfl (.blank (.inl rfl)
    (.name hg.name rfl (.blank (.inl rfl) (.mark rfl (.blank (.inr rfl) hBody)))))

/-- A graph is read back from its spelling. -/
theorem read?_spelling {g : Graph} (hg : g.IsProper) {text : String}
    (hText : text.toList = g.spelling) : read? text = some g := by
  have hApart : ∀ piece ∈ g.statements.map Statement.tokens, Token.mark ';' ∉ piece := by
    intro piece hPiece
    obtain ⟨statement, -, rfl⟩ := List.mem_map.mp hPiece
    exact statement.semicolon_notMem_tokens
  have hPieces : g.bodyTokens.splitOn (.mark ';') =
      g.statements.map Statement.tokens ++ [[.mark '\x7d']] :=
    Text.splitOn_ended hApart (by decide)
  have hRead : ∀ statement ∈ g.statements,
      Statement.ofTokens? statement.tokens = some statement :=
    fun statement hStatement => Statement.ofTokens?_tokens (hg.statements statement hStatement)
  rw [read?, hText, hg.spells.scan?_eq, Option.bind_some, ofTokens?, hPieces,
    List.getLast?_concat, List.dropLast_concat, if_pos ⟨rfl, rfl⟩, mapM_map_of_forall hRead,
    Option.map_some]

end Graph

end BranchingTime.Dot
