import BranchingTime.Proofs.Model.Language

/-!
# BranchingTime — declared names

A line after the first one names states: a transition its two ends, a line of
labels its state. Names are looked up when something is added, and a line of
labels without any adds nothing, so its name is not looked up. Such lines are the
only ones on which a state can be named that is not declared, and there any state
can be.

## Results

* `parse_eq_of_agree` — the states of lines without labels do not matter.
* `undeclared_only_without_labels` — all other states that are named are declared.
* `accepts_undeclared_state` — a text that names a state nobody declares.
-/

namespace BranchingTime.Model

open Builder (Call)

/-- The states that an entry names. -/
def Entry.named : Entry → List StateId
  | transition t => [t.source, t.target]
  | labels id _ => [id]

/-- The same entry, or two that give no labels. -/
inductive Entry.Agree : Entry → Entry → Prop where
  | same (e : Entry) : Agree e e
  | noLabels (id id' : StateId) : Agree (.labels id []) (.labels id' [])

theorem Entry.Agree.calls_eq {e e' : Entry} (h : e.Agree e') : e.calls = e'.calls := by
  cases h with
  | same => rfl
  | noLabels id id' => rfl

theorem Entry.Agree.kind_eq {e e' : Entry} (h : e.Agree e') : e.kind = e'.kind := by
  cases h with
  | same => rfl
  | noLabels id id' => rfl

section

variable {ids : List StateId} {entries entries' : List Entry}

theorem calls_eq_of_agree (h : List.Forall₂ Entry.Agree entries entries') :
    entries.flatMap Entry.calls = entries'.flatMap Entry.calls := by
  induction h with
  | nil => rfl
  | cons hAgree _ ih => rw [List.flatMap_cons, List.flatMap_cons, hAgree.calls_eq, ih]

theorem kinds_eq_of_agree (h : List.Forall₂ Entry.Agree entries entries') :
    entries.map Entry.kind = entries'.map Entry.kind := by
  induction h with
  | nil => rfl
  | cons hAgree _ ih => rw [List.map_cons, List.map_cons, hAgree.kind_eq, ih]

/-- Consistency does not look at the states of lines without labels. -/
theorem IsConsistent.of_agree (h : IsConsistent ids entries)
    (hAgree : List.Forall₂ Entry.Agree entries entries') : IsConsistent ids entries' := by
  rw [isConsistent_iff, ← exists_labels_iff] at h ⊢
  rwa [calls_eq_of_agree hAgree, kinds_eq_of_agree hAgree] at h

/-- Two texts that differ in the states of lines without labels only are read as
the same model. -/
theorem parse_eq_of_agree {text text' : String} {m : Model} (hParse : parse text = .ok m)
    (hText : Describes text ids entries) (hText' : Describes text' ids entries')
    (hAgree : List.Forall₂ Entry.Agree entries entries') : parse text' = .ok m := by
  obtain ⟨_, _, b, hRead, hConsistent, hCalls, rfl⟩ := parse_eq_ok_iff_describes.mp hParse
  obtain ⟨rfl, rfl⟩ := describes_unique hText hRead
  rw [calls_eq_of_agree hAgree] at hCalls
  exact parse_eq_ok_iff_describes.mpr
    ⟨ids, entries', b, hText', hConsistent.of_agree hAgree, hCalls, rfl⟩

/-- Whoever is named is declared, but for lines without labels. -/
theorem IsConsistent.mem_of_named (h : IsConsistent ids entries) {e : Entry} (he : e ∈ entries)
    {id : StateId} (hNamed : id ∈ e.named) : id ∈ ids ∨ e = .labels id [] := by
  cases e with
  | transition t =>
    obtain ⟨hSource, hTarget⟩ := h.endpoints t he
    rcases List.mem_pair.mp hNamed with rfl | rfl
    · exact .inl hSource
    · exact .inl hTarget
  | labels id' names =>
    obtain rfl := List.mem_singleton.mp hNamed
    cases names with
    | nil => exact .inr rfl
    | cons name rest => exact .inl (h.labelled id _ he (List.cons_ne_nil name rest))

end

/-- **Undeclared names.** The lines of a text that is read name states of the model
only, except for lines of labels without any. Those are read whatever states they
name, and as the same model. -/
theorem undeclared_only_without_labels (text : String) (m : Model) (hParse : parse text = .ok m) :
    ∃ ids entries, Describes text ids entries ∧ (∀ id, m.contains id = true ↔ id ∈ ids) ∧
      (∀ e ∈ entries, ∀ id ∈ e.named, m.contains id = true ∨ e = .labels id []) ∧
      ∀ text' entries', Describes text' ids entries' →
        List.Forall₂ Entry.Agree entries entries' → parse text' = .ok m := by
  obtain ⟨ids, entries, b, hText, hConsistent, hCalls, rfl⟩ := parse_eq_ok_iff_describes.mp hParse
  have hm := isBuiltFrom_of_callAll hCalls
  have hStates (id : StateId) : b.build.contains id = true ↔ id ∈ ids :=
    hm.contains_iff_exists.trans (mem_ids_iff hm)
  refine ⟨ids, entries, hText, hStates, ?_, ?_⟩
  · intro e he id hNamed
    rw [hStates]
    exact hConsistent.mem_of_named he hNamed
  · intro text' entries' hText' hAgree
    exact parse_eq_of_agree hParse hText hText' hAgree

/-- A text that declares `s1` and has one more line, a name and a colon. -/
theorem describes_noLabels {text : String} (line name : List Char) {id : StateId}
    (hContent : IsContent text ["s1;".toList, line]) (hLine : IsLine (name ++ [':']) line)
    (hName : named? 's' name = some id) : Describes text [⟨1⟩] [.labels id []] := by
  have hStates : IsStateList "s1".toList [⟨1⟩] :=
    ⟨["s1".toList], rfl, forall₂_namesState_iff.mpr (by decide)⟩
  have hEntry : IsEntry (name ++ [':']) (.labels id []) :=
    @IsEntry.labels name [] id (namesState_iff.mpr hName) (by decide)
  exact ⟨_, _, hContent, ⟨_, isLine_iff.mpr (by decide), hStates⟩, .cons ⟨_, hLine, hEntry⟩ .nil⟩

/-- The line of `s9` might as well be one of `s1`. -/
theorem undeclared_only_without_labels_renamed :
    ∃ m, parse "s1;\ns9 : ;" = .ok m ∧ m.contains ⟨1⟩ = true ∧ parse "s1;\ns1 : ;" = .ok m := by
  have hRead : (parse "s1;\ns9 : ;").isOk = true := by decide +kernel
  cases hParse : parse "s1;\ns9 : ;" with
  | error fault =>
    rw [hParse] at hRead
    cases hRead
  | ok m =>
    obtain ⟨ids, entries, hText, hStates, -, hAgree⟩ :=
      undeclared_only_without_labels _ m hParse
    have hText₉ : Describes "s1;\ns9 : ;" [⟨1⟩] [.labels ⟨9⟩ []] :=
      describes_noLabels "s9 : ;".toList "s9 ".toList (isContent_iff.mpr (by decide +kernel))
        (isLine_iff.mpr (by decide)) (by decide)
    have hText₁ : Describes "s1;\ns1 : ;" [⟨1⟩] [.labels ⟨1⟩ []] :=
      describes_noLabels "s1 : ;".toList "s1 ".toList (isContent_iff.mpr (by decide +kernel))
        (isLine_iff.mpr (by decide)) (by decide)
    obtain ⟨rfl, rfl⟩ := describes_unique hText hText₉
    exact ⟨m, rfl, (hStates ⟨1⟩).mpr List.mem_cons_self,
      hAgree _ _ hText₁ (.cons (.noLabels ⟨9⟩ ⟨1⟩) .nil)⟩

/-- The state `s9` is named, but it is not declared. -/
theorem accepts_undeclared_state :
    ∃ m, parse "s1;\ns9 : ;" = .ok m ∧ Describes "s1;\ns9 : ;" [⟨1⟩] [.labels ⟨9⟩ []] ∧
      ⟨9⟩ ∈ (Entry.labels ⟨9⟩ []).named ∧ m.contains ⟨9⟩ = false := by
  have hRead : (parse "s1;\ns9 : ;").map (·.contains ⟨9⟩) = .ok false := by decide +kernel
  have hText : Describes "s1;\ns9 : ;" [⟨1⟩] [.labels ⟨9⟩ []] :=
    describes_noLabels "s9 : ;".toList "s9 ".toList (isContent_iff.mpr (by decide +kernel))
      (isLine_iff.mpr (by decide)) (by decide)
  cases hParse : parse "s1;\ns9 : ;" with
  | error fault =>
    rw [hParse] at hRead
    cases hRead
  | ok m =>
    rw [hParse] at hRead
    exact ⟨m, rfl, hText, List.mem_singleton_self _, Except.ok.inj hRead⟩

end BranchingTime.Model
