import BranchingTime.Proofs.Formula.Arena

/-!
# BranchingTime — the printer and its parentheses

The loop of the printer writes an opening parenthesis at once, and its end lies on
the stack below everything that belongs inside. So between the moment when a node
is taken off the stack and the moment when the stack is down again to what lay
below it, exactly the text of the subformula is written, and this text closes
every parenthesis that it opens. Only the names of atoms could spoil that.

## Results

* `IsTreeShaped.exists_standsAt` — every node of a formula is the root of a tree.
* `IsBalanced.append`, `IsBalanced.enclosed` — balanced texts.
* `Tree.isBalanced_render` — the text of a tree is balanced.
* `printer_writes_tree` — the loop against the recursive printer.
-/

namespace BranchingTime

namespace Formula

/-- Every node is the root of a tree: its operands stand before it, and are roots of
trees themselves. -/
theorem IsTreeShaped.exists_standsAt {f : Formula} (h : f.IsTreeShaped) {place : Nat}
    (hPlace : place < f.size) : ∃ t, f.StandsAt place t := by
  induction place using Nat.strongRecOn with
  | ind place ih =>
    have hOperand (a : Nat) (ha : a ∈ (f.node place).operands) : ∃ t, f.StandsAt a t := by
      have hBefore := h.operands_lt place hPlace a ha
      exact ih a hBefore (by omega)
    cases hNode : f.node place with
    | atom name => exact ⟨.atom name, .atom hNode⟩
    | not a =>
      obtain ⟨t, ht⟩ := hOperand a (by simp [hNode, Node.operands])
      exact ⟨.not t, .not hNode ht⟩
    | connective op a b =>
      obtain ⟨t, ht⟩ := hOperand a (by simp [hNode, Node.operands])
      obtain ⟨u, hu⟩ := hOperand b (by simp [hNode, Node.operands])
      exact ⟨.connective op t u, .connective hNode ht hu⟩
    | temporal q p a =>
      obtain ⟨t, ht⟩ := hOperand a (by simp [hNode, Node.operands])
      exact ⟨.temporal q p t, .temporal hNode ht⟩
    | untl q a b =>
      obtain ⟨t, ht⟩ := hOperand a (by simp [hNode, Node.operands])
      obtain ⟨u, hu⟩ := hOperand b (by simp [hNode, Node.operands])
      exact ⟨.untl q t u, .untl hNode ht hu⟩

end Formula

-- ---------------------------------------------------------------------------
-- Balanced texts
-- ---------------------------------------------------------------------------

/-- Nowhere in the text have more parentheses been closed than opened, and at its
end all are closed. -/
structure IsBalanced (text : List Char) : Prop where
  closed_le : ∀ n, (text.take n).count ')' ≤ (text.take n).count '('
  closed_eq : text.count ')' = text.count '('

namespace IsBalanced

theorem append {left right : List Char} (hLeft : IsBalanced left) (hRight : IsBalanced right) :
    IsBalanced (left ++ right) where
  closed_le n := by
    rw [List.take_append, List.count_append, List.count_append]
    exact Nat.add_le_add (hLeft.closed_le n) (hRight.closed_le _)
  closed_eq := by rw [List.count_append, List.count_append, hLeft.closed_eq, hRight.closed_eq]

/-- A text without parentheses. -/
theorem ofPlain {text : List Char} (hOpen : '(' ∉ text) (hClose : ')' ∉ text) :
    IsBalanced text where
  closed_le n := by
    rw [List.count_eq_zero_of_not_mem fun h => hClose (List.mem_of_mem_take h)]
    exact Nat.zero_le _
  closed_eq := by rw [List.count_eq_zero_of_not_mem hOpen, List.count_eq_zero_of_not_mem hClose]

theorem enclosed {text : List Char} (h : IsBalanced text) :
    IsBalanced (['('] ++ text ++ [')']) where
  closed_le n := by
    cases n with
    | zero => simp
    | succ n =>
      -- one parenthesis is open all the way through the text, until the last character
      have hText := h.closed_le n
      have hLast : ([')'].take (n - text.length)).count ')' ≤ 1 :=
        Nat.le_trans ((List.take_sublist _ _).count_le _) (by decide)
      have hOpens : (('(' : Char) == ')') = false := by decide
      simp only [List.cons_append, List.nil_append, List.take_succ_cons, List.take_append,
        List.count_cons, List.count_append, hOpens, beq_self_eq_true, Bool.false_eq_true, if_true,
        if_false]
      omega
  closed_eq := by
    have hText := h.closed_eq
    have hOnce : ['('].count ')' + [')'].count ')' = ['('].count '(' + [')'].count '(' := by decide
    simp only [List.count_append]
    omega

theorem grouped {text : String} (h : IsBalanced text.toList) (isNeeded : Bool) :
    IsBalanced (Tree.grouped isNeeded text).toList := by
  cases isNeeded with
  | false => exact h
  | true =>
    rw [Tree.grouped, if_pos rfl, String.toList_append, String.toList_append]
    exact h.enclosed

end IsBalanced

/-- A name that has no parentheses in it. -/
def IsPlainName (name : String) : Prop :=
  '(' ∉ name.toList ∧ ')' ∉ name.toList

namespace Tree

theorem isBalanced_render (t : Tree) (hNames : ∀ name ∈ t.atoms, IsPlainName name) :
    IsBalanced t.render.toList := by
  induction t with
  | atom name =>
    obtain ⟨hOpen, hClose⟩ := hNames name (List.mem_singleton.mpr rfl)
    exact .ofPlain hOpen hClose
  | not t ih =>
    have hKeyword : IsBalanced "NOT ".toList := .ofPlain (by decide) (by decide)
    rw [render, String.toList_append]
    exact hKeyword.append ((ih hNames).grouped _)
  | connective op t u iht ihu =>
    obtain ⟨hLeft, hRight⟩ := List.forall_mem_append.mp hNames
    have hKeyword : IsBalanced (" " ++ op.keyword ++ " ").toList := by
      cases op <;> exact .ofPlain (by decide) (by decide)
    have hText : (connective op t u).render.toList = (grouped t.isLoose t.render).toList ++
        (" " ++ op.keyword ++ " ").toList ++ u.render.toList := by
      simp only [render, String.toList_append, List.append_assoc]
    rw [hText]
    exact (((iht hLeft).grouped _).append hKeyword).append (ihu hRight)
  | temporal q p t ih =>
    have hKeyword : IsBalanced (temporalKeyword q p ++ " ").toList := by
      cases q <;> cases p <;> exact .ofPlain (by decide) (by decide)
    rw [render, String.toList_append]
    exact hKeyword.append ((ih hNames).grouped _)
  | untl q t u iht ihu =>
    obtain ⟨hLeft, hRight⟩ := List.forall_mem_append.mp hNames
    have hKeyword : IsBalanced q.keyword.toList := by
      cases q <;> exact .ofPlain (by decide) (by decide)
    have hBetween : IsBalanced " U ".toList := .ofPlain (by decide) (by decide)
    have hText : (untl q t u).render.toList = q.keyword.toList ++
        (['('] ++ ((grouped t.isLoose t.render).toList ++ " U ".toList ++
          (grouped u.isLoose u.render).toList) ++ [')']) := by
      simp [render]
    rw [hText]
    refine hKeyword.append (IsBalanced.enclosed ?_)
    exact (((iht hLeft).grouped _).append hBetween).append ((ihu hRight).grouped _)

end Tree

-- ---------------------------------------------------------------------------
-- The loop and the tree
-- ---------------------------------------------------------------------------

namespace Formula

/-- **The printer.** For every formula that parsing and building lead to, the loop
of the printer comes to an end, its stack empty, and has then written the text
of the formula's tree: a negation or a connective in the place of an operand stands
in parentheses, so does a connective under a negation, and nothing else does.

Every node of the formula is the root of a tree, the last one that of the whole.
Whatever was written before and whatever lies below on the stack, the loop works
the node off by writing the text of this tree and nothing else; if no atom in it
has a parenthesis in its name, the parentheses in this text are balanced. -/
theorem printer_writes_tree {f : Formula} (hf : f.IsObtained) :
    ∃ t : Tree, f.LaysOut t ∧ f.render = t.render ∧
      (∃ n, Printer.Leads f n (Printer.start f) ⟨t.render, []⟩) ∧
      f.StandsAt f.root t ∧ (∀ place < f.size, ∃ u, f.StandsAt place u) ∧
      ∀ place u, f.StandsAt place u → ∀ operand,
        let text := Tree.grouped (operand && u.isLoose) u.render
        (∀ written stack, ∃ n,
          Printer.Leads f n ⟨written, .node place operand :: stack⟩ ⟨written ++ text, stack⟩) ∧
        ((∀ name ∈ u.atoms, IsPlainName name) → IsBalanced text.toList) := by
  obtain ⟨t, rfl⟩ := hf.exists_layout
  have hLaysOut : t.layout.LaysOut t := laysOut_iff.mpr rfl
  obtain ⟨n, -, hLeads⟩ := leads_start t
  refine ⟨t, hLaysOut, render_layout t, ⟨n, hLeads⟩, standsAt_root t, ?_, ?_⟩
  · exact fun place hPlace => hLaysOut.isTreeShaped.exists_standsAt hPlace
  · intro place u hu operand
    obtain ⟨k, -, hWrites⟩ := hu.writes operand
    exact ⟨fun written stack => ⟨k, hWrites written stack⟩,
      fun hNames => (u.isBalanced_render hNames).grouped _⟩

/-- In `E((NOT (p AND q)) U (NOT r))` the parentheses are written from three places:
around an operand, under a negation and by the until. -/
theorem printer_writes_nested :
    let f := (((Formula.atom "p").connect .and (.atom "q")).not).untl .some (Formula.atom "r").not
    f.IsObtained ∧ f.render = "E((NOT (p AND q)) U (NOT r))" ∧
      ∃ n, Printer.Leads f n (Printer.start f) ⟨"E((NOT (p AND q)) U (NOT r))", []⟩ := by
  intro f
  have hObtained : f.IsObtained :=
    .untl .some (.not (.connect .and (.atom "p") (.atom "q"))) (.not (.atom "r"))
  have hText : f.render = "E((NOT (p AND q)) U (NOT r))" := by decide +kernel
  obtain ⟨t, -, hRender, ⟨n, hLeads⟩, -⟩ := printer_writes_tree hObtained
  rw [← hRender, hText] at hLeads
  exact ⟨hObtained, hText, n, hLeads⟩

end Formula

end BranchingTime
