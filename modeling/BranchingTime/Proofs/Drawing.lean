import BranchingTime.Drawing
import BranchingTime.Proofs.Dot
import BranchingTime.Proofs.Ident
import BranchingTime.Proofs.Model.Finished

/-!
# BranchingTime — drawings read back

A drawing is a graph of the DOT language, whatever the labels of the states
are: a reader of the language finds a node for each state and an edge for each
transition. What is written in a node tells the name of the state and, with the
escapes undone, its labels.

## Results

* `unescape?_escape` — escapes can be undone.
* `toList_draw` — a drawing spells a graph.
* `read_draw` — what the graph is.
-/

namespace BranchingTime

open Dot (Attribute Statement Graph IsQuotable isNameChar unescape?)

-- ---------------------------------------------------------------------------
-- Escapes
-- ---------------------------------------------------------------------------

namespace Drawing

/-- What is written for `c` between quotes. -/
def escapeChar (c : Char) : List Char :=
  if c = '\\' then ['\\', '\\'] else if c = '\x22' then ['\\', '\x22'] else [c]

/-- Doubling the backslashes and then escaping the quotes treats each character
on its own, since no quote comes from a backslash. -/
theorem toList_escape (text : String) :
    (escape text).toList = text.toList.flatMap escapeChar := by
  rw [escape, String.toList_ofList, replaceChar, replaceChar, List.flatMap_assoc]
  congr 1
  funext c
  by_cases hBackslash : c = '\\'
  · subst hBackslash
    rfl
  · by_cases hQuote : c = '\x22' <;> simp [escapeChar, hBackslash, hQuote]

theorem isQuotable_escape (text : String) : IsQuotable (escape text).toList := by
  rw [toList_escape]
  induction text.toList with
  | nil => exact .nil
  | cons c rest ih =>
    rw [List.flatMap_cons, escapeChar]
    split
    · exact .escape _ ih
    · split
      · exact .escape _ ih
      · exact .plain ‹_› ‹_› ih

/-- Escapes can be undone. -/
theorem unescape?_escape (text : String) :
    unescape? (escape text).toList = some text.toList := by
  rw [toList_escape]
  induction text.toList with
  | nil => rfl
  | cons c rest ih =>
    rw [List.flatMap_cons, escapeChar]
    split
    · rename_i hBackslash
      simp [unescape?, ih, hBackslash]
    · split
      · rename_i hQuote
        simp [unescape?, ih, hQuote]
      · simp [unescape?, *]

-- ---------------------------------------------------------------------------
-- Nodes
-- ---------------------------------------------------------------------------

/-- Takes apart what is written in a node: a name, and labels if there are any.
A backslash and an `n`, where a line ends, stand between the two. -/
def readNodeText? (text : String) : Option (String × Option String) :=
  let name := String.ofList (text.toList.takeWhile (· != '\\'))
  match text.toList.dropWhile (· != '\\') with
  | [] => some (name, none)
  | _ :: 'n' :: labels => (unescape? labels).map fun shown => (name, some (String.ofList shown))
  | _ => none

theorem isNameChar_of_mem_toDigits {n : Nat} {c : Char} (hc : c ∈ Nat.toDigits 10 n) :
    isNameChar c = true := by
  have hDigit : c.isDigit = true := Nat.isDigit_of_mem_toDigits (by decide) (by decide) hc
  simp [isNameChar, Char.isAlphanum, hDigit]

theorem isProper_of_toList_eq {name : String} {c : Char} {n : Nat} (hc : isNameChar c = true)
    (hName : name.toList = c :: Nat.toDigits 10 n) : (Dot.Name.plain name).IsProper := by
  constructor
  · rintro rfl
    exact absurd hName (List.cons_ne_nil _ _).symm
  · rw [hName]
    exact List.forall_mem_cons.mpr ⟨hc, fun _ => isNameChar_of_mem_toDigits⟩

theorem isProper_stateName (id : StateId) : (Dot.Name.plain id.name).IsProper :=
  isProper_of_toList_eq (by decide) id.toList_name

theorem isProper_transitionName (id : TransitionId) : (Dot.Name.plain id.name).IsProper :=
  isProper_of_toList_eq (by decide) id.toList_name

/-- What is written in a node stays between its quotes, whatever the labels are. -/
theorem isQuotable_nodeText (style : DrawingStyle) (s : State) :
    IsQuotable (nodeText style s).toList := by
  have hName := (isProper_stateName s.id).isQuotable
  unfold nodeText
  split
  · rw [String.toList_append, String.toList_append]
    exact (hName.append (.escape 'n' .nil)).append (isQuotable_escape _)
  · exact hName

theorem notBackslash_of_mem_name {id : StateId} {c : Char} (hc : c ∈ id.name.toList) :
    (c != '\\') = true := by
  have hChar := (isProper_stateName id).2 c hc
  refine bne_iff_ne.mpr ?_
  rintro rfl
  exact absurd hChar (by decide)

theorem readNodeText?_name (id : StateId) : readNodeText? id.name = some (id.name, none) := by
  rw [readNodeText?, List.takeWhile_eq_self_iff.mpr fun _ => notBackslash_of_mem_name,
    List.dropWhile_eq_nil_iff.mpr fun _ => notBackslash_of_mem_name, String.ofList_toList]

theorem readNodeText?_escape (id : StateId) (shown : String) :
    readNodeText? (id.name ++ "\\n" ++ escape shown) = some (id.name, some shown) := by
  have hText : (id.name ++ "\\n" ++ escape shown).toList =
      id.name.toList ++ '\\' :: 'n' :: (escape shown).toList := by
    rw [String.toList_append, String.toList_append, List.append_assoc]
    rfl
  rw [readNodeText?, hText, List.takeWhile_append_of_pos fun _ => notBackslash_of_mem_name,
    List.dropWhile_append_of_pos fun _ => notBackslash_of_mem_name]
  simp [unescape?_escape]

/-- What a node tells: the name of its state and, if they are shown, the labels
with spaces between them. -/
theorem readNodeText?_nodeText (style : DrawingStyle) (s : State) :
    readNodeText? (nodeText style s) = some (s.id.name,
      if style.showLabels && !s.labels.isEmpty then some (String.intercalate " " s.labels)
      else none) := by
  unfold nodeText
  split
  · exact readNodeText?_escape s.id _
  · exact readNodeText?_name s.id

-- ---------------------------------------------------------------------------
-- Statements
-- ---------------------------------------------------------------------------

/-- The attributes of a filled node. -/
def fill (style : DrawingStyle) : List Attribute :=
  [⟨.plain "style", .plain "filled"⟩, ⟨.plain "fillcolor", .plain style.highlightColor⟩]

/-- The attributes of the node of a dead end. -/
def border (style : DrawingStyle) : List Attribute :=
  [⟨.plain "color", .plain style.deadlockColor⟩]

/-- The node for the state `id` with `text` in it. -/
def node (style : DrawingStyle) (id : StateId) (text : String) (isFilled isDeadEnd : Bool) :
    Statement :=
  .node (.plain id.name) (⟨.plain "label", .quoted text⟩ ::
    ((if isFilled then fill style else []) ++ (if isDeadEnd then border style else [])))

/-- The edge for a transition. -/
def edge (style : DrawingStyle) (t : Transition) : Statement :=
  .edge (.plain t.source.name) (.plain t.target.name)
    (if style.showTransitionIds then [⟨.plain "label", .quoted t.id.name⟩] else [])

/-- The graph with these nodes in front of the edges for the transitions of `m`. -/
def graph (m : Model) (style : DrawingStyle) (nodes : List Statement) : Graph :=
  ⟨.plain "kripke",
    [.setting ⟨.plain "rankdir", .plain style.direction⟩,
      .defaults [⟨.plain "shape", .plain style.nodeShape⟩]] ++
    nodes ++ m.transitions.toList.map (edge style)⟩

theorem toList_nodeStatement (style : DrawingStyle) (highlight : StateSet) (s : State) :
    (nodeStatement style highlight s).toList =
      (node style s.id (nodeText style s) (highlight.contains s.id) s.isDeadlock).spelling ++
        [';'] := by
  unfold nodeStatement node
  split <;> split <;>
    simp [Statement.spelling, Dot.brackets, Attribute.spelling, Dot.Name.spelling, fill, border]

theorem toList_edgeStatement (style : DrawingStyle) (t : Transition) :
    (edgeStatement style t).toList = (edge style t).spelling ++ [';'] := by
  unfold edgeStatement edge
  split <;> simp [Statement.spelling, Dot.brackets, Attribute.spelling, Dot.Name.spelling]

theorem toList_directionStatement (style : DrawingStyle) :
    ("rankdir=" ++ style.direction ++ ";").toList =
      (Statement.setting ⟨.plain "rankdir", .plain style.direction⟩).spelling ++ [';'] := by
  simp [Statement.spelling, Attribute.spelling, Dot.Name.spelling]

theorem toList_shapeStatement (style : DrawingStyle) :
    ("node [shape=" ++ style.nodeShape ++ "];").toList =
      (Statement.defaults [⟨.plain "shape", .plain style.nodeShape⟩]).spelling ++ [';'] := by
  simp [Statement.spelling, Dot.brackets, Attribute.spelling, Dot.Name.spelling]

/-- The lines between the braces spell the statements of the graph. -/
theorem map_toList_drawingStatements (m : Model) (style : DrawingStyle) (highlight : StateSet) :
    (m.drawingStatements style highlight).map String.toList =
    (graph m style (m.states.toList.map fun s => node style s.id (nodeText style s)
      (highlight.contains s.id) s.isDeadlock)).statements.map (·.spelling ++ [';']) := by
  have hNodes : m.states.toList.map (String.toList ∘ nodeStatement style highlight) =
      m.states.toList.map ((·.spelling ++ [';']) ∘ fun s => node style s.id (nodeText style s)
        (highlight.contains s.id) s.isDeadlock) :=
    List.map_congr_left fun s _ => toList_nodeStatement style highlight s
  have hEdges : m.transitions.toList.map (String.toList ∘ edgeStatement style) =
      m.transitions.toList.map ((·.spelling ++ [';']) ∘ edge style) :=
    List.map_congr_left fun t _ => toList_edgeStatement style t
  simp only [Model.drawingStatements, graph, List.map_append, List.map_cons, List.map_nil,
    List.map_map, toList_directionStatement, toList_shapeStatement, hNodes, hEdges]

theorem toList_join_lines {lines : List String} {statements : List Statement}
    (hLines : lines.map String.toList = statements.map (·.spelling ++ [';'])) :
    (String.join (lines.map (· ++ "\n"))).toList =
      statements.flatMap fun statement => statement.spelling ++ [';', '\n'] := by
  calc (String.join (lines.map (· ++ "\n"))).toList
      = (lines.map String.toList).flatMap (· ++ ['\n']) := by
        simp only [String.toList_join, List.flatMap_map, String.toList_append]
        rfl
    _ = (statements.map (·.spelling ++ [';'])).flatMap (· ++ ['\n']) := by rw [hLines]
    _ = statements.flatMap fun statement => statement.spelling ++ [';', '\n'] := by
        simp only [List.flatMap_map, List.append_assoc, List.singleton_append]

/-- A drawing spells a graph. -/
theorem toList_draw (m : Model) (style : DrawingStyle) (highlight : StateSet) :
    (m.draw style highlight).toList = (graph m style (m.states.toList.map fun s =>
      node style s.id (nodeText style s) (highlight.contains s.id) s.isDeadlock)).spelling := by
  have hHeader : ("digraph kripke \x7b" ++ "\n").toList =
      "digraph ".toList ++ ((Dot.Name.plain "kripke").spelling ++ " \x7b\n".toList) := by
    decide
  have hBody := toList_join_lines (map_toList_drawingStatements m style highlight)
  have hParts : (m.draw style highlight).toList = ("digraph kripke \x7b" ++ "\n").toList ++
      ((String.join ((m.drawingStatements style highlight).map (· ++ "\n"))).toList ++
        ("\x7d" ++ "\n").toList) := by
    simp only [Model.draw, Model.drawingLines, List.map_append, String.toList_join,
      List.flatMap_append, List.map_cons, List.map_nil, List.flatMap_cons, List.flatMap_nil,
      List.append_nil, List.append_assoc]
  rw [hParts, hHeader, hBody, List.append_assoc, List.append_assoc]
  rfl

end Drawing

/-- Is every word that a style puts into a drawing a plain name? -/
structure DrawingStyle.IsPlain (style : DrawingStyle) : Prop where
  nodeShape : (Dot.Name.plain style.nodeShape).IsProper
  direction : (Dot.Name.plain style.direction).IsProper
  highlightColor : (Dot.Name.plain style.highlightColor).IsProper
  deadlockColor : (Dot.Name.plain style.deadlockColor).IsProper

namespace Drawing

theorem isProper_edge (style : DrawingStyle) (t : Transition) : (edge style t).IsProper := by
  refine ⟨isProper_stateName t.source, isProper_stateName t.target, ?_⟩
  split
  · exact List.forall_mem_singleton.mpr ⟨Dot.Name.isProper_plain (by decide),
      (isProper_transitionName t.id).isQuotable⟩
  · exact List.forall_mem_nil _

variable {style : DrawingStyle} (hStyle : style.IsPlain)
include hStyle

theorem isProper_node (id : StateId) {text : String} (hText : IsQuotable text.toList)
    (isFilled isDeadEnd : Bool) : (node style id text isFilled isDeadEnd).IsProper := by
  have hLabel : Attribute.IsProper ⟨.plain "label", .quoted text⟩ :=
    ⟨Dot.Name.isProper_plain (by decide), hText⟩
  have hFill : ∀ a ∈ fill style, a.IsProper := by
    simp only [fill, List.forall_mem_cons]
    exact ⟨⟨Dot.Name.isProper_plain (by decide), Dot.Name.isProper_plain (by decide)⟩,
      ⟨Dot.Name.isProper_plain (by decide), hStyle.highlightColor⟩, List.forall_mem_nil _⟩
  have hBorder : ∀ a ∈ border style, a.IsProper := by
    simp only [border, List.forall_mem_cons]
    exact ⟨⟨Dot.Name.isProper_plain (by decide), hStyle.deadlockColor⟩, List.forall_mem_nil _⟩
  refine ⟨isProper_stateName id, ?_, List.forall_mem_cons.mpr ⟨hLabel, fun a ha => ?_⟩⟩
  · intro hNode
    have hChars := congrArg String.toList (Dot.Name.plain.inj hNode)
    rw [id.toList_name] at hChars
    exact absurd (List.cons.inj hChars).1 (by decide)
  · rcases List.mem_append.mp ha with hMem | hMem
    · split at hMem
      · exact hFill a hMem
      · exact absurd hMem List.not_mem_nil
    · split at hMem
      · exact hBorder a hMem
      · exact absurd hMem List.not_mem_nil

theorem isProper_graph (m : Model) {nodes : List Statement}
    (hNodes : ∀ statement ∈ nodes, statement.IsProper) : (graph m style nodes).IsProper := by
  have hDirection : Attribute.IsProper ⟨.plain "rankdir", .plain style.direction⟩ :=
    ⟨Dot.Name.isProper_plain (by decide), hStyle.direction⟩
  have hShape : Attribute.IsProper ⟨.plain "shape", .plain style.nodeShape⟩ :=
    ⟨Dot.Name.isProper_plain (by decide), hStyle.nodeShape⟩
  refine ⟨Dot.Name.isProper_plain (by decide), fun statement hMem => ?_⟩
  rcases List.mem_append.mp hMem with hFront | hEdge
  · rcases List.mem_append.mp hFront with hHeader | hNode
    · rcases List.mem_pair.mp hHeader with rfl | rfl
      · exact hDirection
      · exact List.forall_mem_singleton.mpr hShape
    · exact hNodes statement hNode
  · obtain ⟨t, -, rfl⟩ := List.mem_map.mp hEdge
    exact isProper_edge style t

end Drawing

namespace Model

/-- **A drawing is faithful.** Whatever the labels are, a reader of the language
finds a node for each state, in ascending order, and then an edge for each
transition, in the order of the model. A node is filled exactly if its state is
chosen and has the border exactly if its state is a dead end. Its text tells
the name of the state and, if they are shown, its sorted labels. -/
theorem read_draw {m : Model} (hm : m.IsBuilt) {style : DrawingStyle} (hStyle : style.IsPlain)
    (highlight : StateSet) :
    (m.states.toList.map State.id).Pairwise (· < ·) ∧
    ∃ text : State → String,
      Graph.read? (m.draw style highlight) = some (Drawing.graph m style
        (m.states.toList.map fun s => Drawing.node style s.id (text s)
          (highlight.contains s.id) (m.transitions.all (·.source != s.id)))) ∧
      ∀ s ∈ m.states, s.labels.Pairwise (· < ·) ∧
        Drawing.readNodeText? (text s) = some (s.id.name,
          if style.showLabels && !s.labels.isEmpty then some (String.intercalate " " s.labels)
          else none) := by
  obtain ⟨accepted, hBuilt⟩ := hm.exists_isBuiltFrom
  refine ⟨List.pairwise_map.mpr hBuilt.ascending, Drawing.nodeText style, ?_, fun s hs =>
    ⟨(hBuilt.labels_of_mem hs).1, Drawing.readNodeText?_nodeText style s⟩⟩
  have hNodes : (m.states.toList.map fun s => Drawing.node style s.id (Drawing.nodeText style s)
      (highlight.contains s.id) (m.transitions.all (·.source != s.id))) =
      m.states.toList.map fun s => Drawing.node style s.id (Drawing.nodeText style s)
        (highlight.contains s.id) s.isDeadlock :=
    List.map_congr_left fun s hs => by rw [hBuilt.isDeadlock s (Array.mem_toList_iff.mp hs)]
  rw [hNodes]
  refine Graph.read?_spelling (Drawing.isProper_graph hStyle m ?_)
    (Drawing.toList_draw m style highlight)
  intro statement hStatement
  obtain ⟨s, -, rfl⟩ := List.mem_map.mp hStatement
  exact Drawing.isProper_node hStyle s.id (Drawing.isQuotable_nodeText style s) _ _

/-- In `1 → 2`, where `2` is filled, one label of `1` would close its quotes and
the other one ends in a backslash. -/
theorem read_draw_hostile_labels :
    let calls : List Builder.Call :=
      [.state ⟨1⟩, .state ⟨2⟩, .transition ⟨⟨7⟩, ⟨1⟩, ⟨2⟩⟩, .label ⟨1⟩ "a\\", .label ⟨1⟩ "\"];"]
    let m := (Builder.attemptAll {} calls).1.build
    m.IsBuilt ∧ DrawingStyle.IsPlain {} ∧ ∃ first second : String,
      Graph.read? (m.draw {} (StateSet.ofNumbers [2])) = some (Drawing.graph m {}
        [Drawing.node {} ⟨1⟩ first false false, Drawing.node {} ⟨2⟩ second true true]) ∧
      Drawing.readNodeText? first = some ("s1", some "\"]; a\\") ∧
      Drawing.readNodeText? second = some ("s2", none) := by
  intro calls m
  have hm : m.IsBuilt := ⟨calls, rfl⟩
  have hStyle : DrawingStyle.IsPlain {} :=
    ⟨Dot.Name.isProper_plain (by decide), Dot.Name.isProper_plain (by decide),
      Dot.Name.isProper_plain (by decide), Dot.Name.isProper_plain (by decide)⟩
  -- sorting does not compute, but the states were declared in order
  have hSorted : (Builder.attemptAll {} calls).1.sortedStates =
      [{ id := ⟨1⟩, outgoing := [0], labels := ["\"];", "a\\"] }, { id := ⟨2⟩ }] :=
    List.mergeSort_of_pairwise (by decide +kernel)
  let s₁ : State := { id := ⟨1⟩, labels := ["\"];", "a\\"], outgoing := [0], successors := [1] }
  let s₂ : State := { id := ⟨2⟩ }
  have hStates : m.states.toList = [s₁, s₂] := by
    simp only [m, Builder.build, hSorted]
    decide +kernel
  have hLeaves : m.transitions.all (·.source != ⟨1⟩) = false ∧
      m.transitions.all (·.source != ⟨2⟩) = true := by
    simp only [m, Builder.build]
    decide +kernel
  obtain ⟨-, text, hRead, hText⟩ := read_draw hm hStyle (StateSet.ofNumbers [2])
  have hFirst := (hText s₁ (Array.mem_toList_iff.mp (by simp [hStates]))).2
  have hSecond := (hText s₂ (Array.mem_toList_iff.mp (by simp [hStates]))).2
  have hFilled : (StateSet.ofNumbers [2]).contains s₁.id = false ∧
      (StateSet.ofNumbers [2]).contains s₂.id = true := by
    decide +kernel
  rw [hStates, List.map_cons, List.map_cons, List.map_nil, hLeaves.1, hLeaves.2, hFilled.1,
    hFilled.2] at hRead
  exact ⟨hm, hStyle, text s₁, text s₂, hRead, hFirst.trans (by decide +kernel),
    hSecond.trans (by decide +kernel)⟩

end Model

end BranchingTime
