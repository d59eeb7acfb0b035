import BranchingTime.Formula.Print
import BranchingTime.Proofs.Formula.Layout

/-!
# BranchingTime — printing the tree of a formula

The printer works off a stack of items and looks the nodes up by their places.
An item that stands for a subtree is worked off by writing the text of that
subtree, in a number of steps that its size bounds; what was written before and
what lies below on the stack stays as it is. That is what makes the order of the
items on the stack right.

## Results

* `standsAt_root` — what is found from the root of a layout on is the tree.
* `StandsAt.writes` — what is written for a subtree.
* `render_layout` — the text of a formula is the text of its tree.
-/

namespace BranchingTime.Formula

-- ---------------------------------------------------------------------------
-- Subtrees in place
-- ---------------------------------------------------------------------------

/-- Following the places from `place` on, a tree is found in `f`. -/
inductive StandsAt (f : Formula) : Nat → Tree → Prop where
  | atom {place : Nat} {name : String} :
      f.node place = .atom name → StandsAt f place (.atom name)
  | not {place a : Nat} {t : Tree} :
      f.node place = .not a → StandsAt f a t → StandsAt f place (.not t)
  | connective {place a b : Nat} {op : Connective} {t u : Tree} :
      f.node place = .connective op a b → StandsAt f a t → StandsAt f b u →
        StandsAt f place (.connective op t u)
  | temporal {place a : Nat} {q : Quantifier} {p : PathOperator} {t : Tree} :
      f.node place = .temporal q p a → StandsAt f a t → StandsAt f place (.temporal q p t)
  | untl {place a b : Nat} {q : Quantifier} {t u : Tree} :
      f.node place = .untl q a b → StandsAt f a t → StandsAt f b u →
        StandsAt f place (.untl q t u)

section Split

variable {f : Formula} {before operands after : List (Node Nat)} {node : Node Nat}

/-- The last node of a stretch, and what stands in front of it. -/
theorem split_last (h : f.nodes.toList = before ++ (operands ++ [node]) ++ after) :
    f.node (before.length + operands.length) = node ∧
      f.nodes.toList = before ++ operands ++ (node :: after) := by
  have hNodes : f.nodes.toList = before ++ operands ++ (node :: after) := by simpa using h
  refine ⟨?_, hNodes⟩
  rw [Formula.node, Array.getD_eq_getD_getElem?, ← Array.getElem?_toList, hNodes]
  simp

/-- The last node of a stretch that starts with two trees, and where these stand. -/
theorem split_last_pair {t u : Tree}
    (h : f.nodes.toList =
      before ++ (t.nodesFrom before.length ++ u.nodesFrom (before.length + t.size) ++ [node]) ++
        after) :
    f.node (before.length + (t.size + u.size)) = node ∧
      (∃ after', f.nodes.toList = before ++ t.nodesFrom before.length ++ after') ∧
      ∃ before' after', before'.length = before.length + t.size ∧
        f.nodes.toList = before' ++ u.nodesFrom before'.length ++ after' := by
  obtain ⟨hNode, hNodes⟩ := split_last h
  have hStart : (before ++ t.nodesFrom before.length).length = before.length + t.size := by simp
  rw [List.length_append, Tree.length_nodesFrom, Tree.length_nodesFrom] at hNode
  rw [← List.append_assoc before] at hNodes
  refine ⟨hNode, ⟨u.nodesFrom (before.length + t.size) ++ node :: after, ?_⟩, ?_⟩
  · rw [hNodes, List.append_assoc _ _ (node :: after)]
  · refine ⟨before ++ t.nodesFrom before.length, node :: after, hStart, ?_⟩
    rw [hNodes, hStart]

end Split

/-- The nodes of a tree, anywhere among the nodes of `f`, are that tree. -/
theorem standsAt_of_nodesFrom {f : Formula} (t : Tree) (before after : List (Node Nat))
    (hNodes : f.nodes.toList = before ++ t.nodesFrom before.length ++ after) :
    f.StandsAt (t.rootFrom before.length) t := by
  induction t generalizing before after with
  | atom name =>
    have hSplit : f.nodes.toList = before ++ ([] ++ [.atom name]) ++ after := hNodes
    exact .atom (split_last hSplit).1
  | not t ih =>
    obtain ⟨hNode, hOperand⟩ := split_last hNodes
    rw [Tree.length_nodesFrom] at hNode
    exact .not hNode (ih before _ hOperand)
  | connective op t u iht ihu =>
    obtain ⟨hNode, ⟨after', hLeft⟩, before', after'', hStart, hRight⟩ := split_last_pair hNodes
    rw [← hStart] at hNode
    exact .connective hNode (iht before after' hLeft) (ihu before' after'' hRight)
  | temporal q p t ih =>
    obtain ⟨hNode, hOperand⟩ := split_last hNodes
    rw [Tree.length_nodesFrom] at hNode
    exact .temporal hNode (ih before _ hOperand)
  | untl q t u iht ihu =>
    obtain ⟨hNode, ⟨after', hLeft⟩, before', after'', hStart, hRight⟩ := split_last_pair hNodes
    rw [← hStart] at hNode
    exact .untl hNode (iht before after' hLeft) (ihu before' after'' hRight)

theorem standsAt_root (t : Tree) : t.layout.StandsAt t.layout.root t := by
  rw [t.root_layout]
  refine standsAt_of_nodesFrom t [] [] ?_
  rw [t.nodes_layout, List.nil_append, List.append_nil]
  rfl

-- ---------------------------------------------------------------------------
-- Steps of the printer
-- ---------------------------------------------------------------------------

namespace Printer

/-- The loop of the printer leads from the first printer to the second one, by this
many steps. -/
inductive Leads (f : Formula) : Nat → Printer → Printer → Prop where
  | refl (p : Printer) : Leads f 0 p p
  | step {p q r : Printer} {n : Nat} : p.step? f = some q → Leads f n q r → Leads f (n + 1) p r

variable {f : Formula}

theorem Leads.trans {p q r : Printer} {n k : Nat} (h : Leads f n p q) (h' : Leads f k q r) :
    Leads f (n + k) p r := by
  induction h with
  | refl p =>
    rw [Nat.zero_add]
    exact h'
  | step hStep _ ih =>
    rw [Nat.add_right_comm]
    exact .step hStep (ih h')

/-- A run that may take as many steps takes them. -/
theorem Leads.run_eq {p q : Printer} {n : Nat} (h : Leads f n p q) (more : Nat) :
    run f (n + more) p = run f more q := by
  induction h with
  | refl p => rw [Nat.zero_add]
  | step hStep _ ih =>
    rw [Nat.add_right_comm, run, hStep]
    exact ih

theorem run_of_step?_eq_none {p : Printer} (h : p.step? f = none) (fuel : Nat) :
    run f fuel p = p := by
  cases fuel with
  | zero => rfl
  | succ fuel => rw [run, h]

end Printer

/-- The printer works the items off by writing `text`, in `spent` steps, whatever
was written before and whatever lies below them. -/
def Writes (f : Formula) (items : List Item) (spent : Nat) (text : String) : Prop :=
  ∀ written stack,
    Printer.Leads f spent ⟨written, items ++ stack⟩ ⟨written ++ text, stack⟩

section Writes

variable {f : Formula}

theorem writes_nil : f.Writes [] 0 "" := by
  intro written stack
  rw [String.append_empty]
  exact .refl _

theorem writes_text (s : String) : f.Writes [.text s] 1 s :=
  fun _ _ => .step rfl (.refl _)

theorem Writes.append {items items' : List Item} {n n' : Nat} {s s' : String}
    (h : f.Writes items n s) (h' : f.Writes items' n' s') :
    f.Writes (items ++ items') (n + n') (s ++ s') := by
  intro written stack
  rw [List.append_assoc, ← String.append_assoc]
  exact (h written _).trans (h' _ stack)

/-- Entering the node at a place writes `opening` at once and leaves `items` for later. -/
def Enters (f : Formula) (place : Nat) (opening : String) (items : List Item) : Prop :=
  ∀ p : Printer, p.enter f (f.node place) = ⟨p.written ++ opening, items ++ p.stack⟩

end Writes

theorem StandsAt.isConnective {f : Formula} {place : Nat} {t : Tree} (h : f.StandsAt place t) :
    (f.node place).isConnective = t.isConnective := by
  cases h <;> simp_all [Node.isConnective, Tree.isConnective]

theorem StandsAt.isLoose {f : Formula} {place : Nat} {t : Tree} (h : f.StandsAt place t) :
    ((f.node place).isConnective || (f.node place).isNot) = t.isLoose := by
  cases h <;> simp_all [Node.isConnective, Node.isNot, Tree.isLoose]

/-- What is left for later continues what was written at once. Where a single
expression is wanted, a loose tree takes one more step to close its parentheses. -/
theorem StandsAt.writes_of_enters {f : Formula} {place n : Nat} {t : Tree} {opening rest : String}
    {items : List Item} (h : f.StandsAt place t) (hEnters : f.Enters place opening items)
    (hRest : f.Writes items n rest) (hText : t.render = opening ++ rest)
    (hSteps : n + 1 + t.isLoose.toNat ≤ 3 * t.size) (operand : Bool) :
    ∃ k ≤ 3 * t.size,
      f.Writes [.node place operand] k (Tree.grouped (operand && t.isLoose) t.render) := by
  -- the node is taken off the stack and entered, behind a parenthesis or not
  have hStep (written : String) (stack : List Item) :
      Printer.step? f ⟨written, [.node place operand] ++ stack⟩ =
        some ((Printer.openGroup ⟨written, stack⟩ (operand && t.isLoose)).enter f
          (f.node place)) := by
    rw [← h.isLoose]
    rfl
  cases hNeeded : operand && t.isLoose with
  | false =>
    refine ⟨n + 1, by omega, fun written stack => .step (hStep written stack) ?_⟩
    rw [hNeeded, hEnters, hText]
    show Printer.Leads f n ⟨written ++ opening, items ++ stack⟩ ⟨written ++ (opening ++ rest), stack⟩
    rw [← String.append_assoc]
    exact hRest _ stack
  | true =>
    rw [(Bool.and_eq_true_iff.mp hNeeded).2, Bool.toNat_true] at hSteps
    have hClosed := hRest.append (writes_text ")")
    refine ⟨n + 1 + 1, hSteps, fun written stack => .step (hStep written stack) ?_⟩
    have hGrouped : written ++ Tree.grouped true t.render =
        written ++ "(" ++ opening ++ (rest ++ ")") := by
      simp [Tree.grouped, hText, String.append_assoc]
    rw [hNeeded, hEnters, hGrouped]
    have hLeads := hClosed (written ++ "(" ++ opening) stack
    rwa [List.append_assoc] at hLeads

/-- Where a tree stands, its text is written. -/
theorem StandsAt.writes {f : Formula} {place : Nat} {t : Tree} (h : f.StandsAt place t)
    (operand : Bool) :
    ∃ n ≤ 3 * t.size,
      f.Writes [.node place operand] n (Tree.grouped (operand && t.isLoose) t.render) := by
  induction h generalizing operand with
  | @atom place name hNode =>
    have hEnters : f.Enters place name [] := fun p => by
      rw [hNode]
      rfl
    refine (StandsAt.atom hNode).writes_of_enters hEnters writes_nil ?_ ?_ operand
    · rw [String.append_empty, Tree.render]
    · simp [Tree.isLoose, Tree.size]
  | @not place a t hNode hOperand ih =>
    obtain ⟨n, hn, hWrites⟩ := ih false
    cases hGroup : t.isConnective with
    | false =>
      have hEnters : f.Enters place "NOT " [.node a false] := fun p => by
        rw [hNode, Printer.enter, hOperand.isConnective, hGroup]
        rfl
      refine (StandsAt.not hNode hOperand).writes_of_enters hEnters hWrites ?_ ?_ operand
      · rw [Tree.render, hGroup]
        rfl
      · simp only [Tree.isLoose, Tree.size, Bool.toNat_true]
        omega
    | true =>
      have hEnters : f.Enters place "NOT (" ([.node a false] ++ [.text ")"]) := fun p => by
        rw [hNode, Printer.enter, hOperand.isConnective, hGroup]
        show Printer.mk (p.written ++ "NOT " ++ "(") _ = _
        rw [String.append_assoc]
        rfl
      refine (StandsAt.not hNode hOperand).writes_of_enters hEnters
        (hWrites.append (writes_text ")")) ?_ ?_ operand
      · rw [Tree.render, hGroup]
        simp [Tree.grouped, ← String.append_assoc]
      · simp only [Tree.isLoose, Tree.size, Bool.toNat_true]
        omega
  | @connective place a b op t u hNode hLeft hRight ihLeft ihRight =>
    obtain ⟨n, hn, hWrites⟩ := ihLeft true
    obtain ⟨k, hk, hWrites'⟩ := ihRight false
    have hEnters : f.Enters place ""
        ([.node a true] ++ ([.text (" " ++ op.keyword ++ " ")] ++ [.node b false])) := fun p => by
      rw [hNode, String.append_empty]
      rfl
    refine (StandsAt.connective hNode hLeft hRight).writes_of_enters hEnters
      (hWrites.append ((writes_text _).append hWrites')) ?_ ?_ operand
    · simp only [Tree.render, Tree.grouped, Bool.true_and, Bool.false_and, String.empty_append,
        String.append_assoc, Bool.false_eq_true, if_false]
    · simp only [Tree.isLoose, Tree.size, Bool.toNat_true]
      omega
  | @temporal place a q o t hNode hOperand ih =>
    obtain ⟨n, hn, hWrites⟩ := ih true
    have hEnters : f.Enters place (temporalKeyword q o ++ " ") [.node a true] := fun p => by
      rw [hNode, ← String.append_assoc]
      rfl
    refine (StandsAt.temporal hNode hOperand).writes_of_enters hEnters hWrites rfl ?_ operand
    simp only [Tree.isLoose, Tree.size, Bool.toNat_false]
    omega
  | @untl place a b q t u hNode hLeft hRight ihLeft ihRight =>
    obtain ⟨n, hn, hWrites⟩ := ihLeft true
    obtain ⟨k, hk, hWrites'⟩ := ihRight true
    have hEnters : f.Enters place (q.keyword ++ "(")
        ([.node a true] ++ ([.text " U "] ++ ([.node b true] ++ [.text ")"]))) := fun p => by
      rw [hNode]
      rfl
    refine (StandsAt.untl hNode hLeft hRight).writes_of_enters hEnters
      (hWrites.append ((writes_text _).append (hWrites'.append (writes_text _)))) ?_ ?_ operand
    · simp only [Tree.render, Bool.true_and, String.append_assoc]
    · simp only [Tree.isLoose, Tree.size, Bool.toNat_false]
      omega

/-- The loop comes to an end with the text of the tree, in fewer steps than it may
take. -/
theorem leads_start (t : Tree) :
    ∃ n ≤ 3 * t.layout.size, Printer.Leads t.layout n (Printer.start t.layout) ⟨t.render, []⟩ := by
  obtain ⟨n, hn, hWrites⟩ := (standsAt_root t).writes false
  have hLeads := hWrites "" []
  rw [String.empty_append] at hLeads
  exact ⟨n, by rwa [Tree.size_layout], hLeads⟩

/-- **Printing.** The text of a formula is the text of its tree. -/
theorem render_layout (t : Tree) : t.layout.render = t.render := by
  obtain ⟨n, hn, hLeads⟩ := leads_start t
  rw [render, ← Nat.add_sub_cancel' hn, hLeads.run_eq, Printer.run_of_step?_eq_none rfl]

end BranchingTime.Formula
