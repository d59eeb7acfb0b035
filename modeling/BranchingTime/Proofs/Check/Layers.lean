import BranchingTime.Proofs.Check.Cost
import BranchingTime.Proofs.StateSet
import Mathlib.Logic.Function.Iterate
import Mathlib.Order.Lattice.Nat

/-!
# BranchingTime — the layers of a fixpoint

The two loops of the checker go through sets that grow layer by layer. After `i`
steps, the loop for `E(φ U ψ)` has found the states from which a path of at most
`i` steps leads to ψ through φ, and the loop for `AF φ` those from which every
maximal path meets φ within `i` steps. That pins every set on the way, not only
the last one, and with it the number of steps: a loop stops one step after its
last layer, so it takes one step more than the largest number of a layer in which
a state is met for the first time. Where it stops, no layer adds anything more.

## Results

* `Settles.eq_iterate`, `Settles.changes` — a loop goes through the iterates of
  its step.
* `HasLayers.settles`, `HasLayers.iterations_eq`, `HasLayers.represents_result` — where
  a loop stops whose iterates are known, after how many steps, and with which states.
* `reachesWithin_succ`, `meetsWithin_succ` — one layer from the one before.
* `fixpoint_layers` — all iterates of both loops, and their numbers of steps.
-/

namespace BranchingTime.Model

variable {m : Model}

-- ---------------------------------------------------------------------------
-- Iterates
-- ---------------------------------------------------------------------------

section Loop

variable {step : BitSet → BitSet} {X Y : BitSet} {n : Nat}

/-- A loop ends with the iterate that its last step does not change. -/
theorem Settles.eq_iterate (h : Settles step X n Y) : Y = step^[n - 1] X := by
  induction h with
  | stop _ => rfl
  | @next X Y n _ hRest ih =>
    obtain ⟨k, rfl⟩ : ∃ k, n = k + 1 := Nat.exists_eq_add_one.mpr hRest.pos
    rw [ih, ← Function.iterate_succ_apply]
    rfl

/-- Every step of a loop but the last one changes the set. -/
theorem Settles.changes (h : Settles step X n Y) {i : Nat} (hi : i + 1 < n) :
    (step (step^[i] X) == step^[i] X) = false := by
  induction h generalizing i with
  | stop _ => omega
  | next hOther _ ih =>
    cases i with
    | zero => exact hOther
    | succ i => exact ih (by omega)

end Loop

-- ---------------------------------------------------------------------------
-- Layers
-- ---------------------------------------------------------------------------

/-- The sets that a loop goes through are those of a growing family of properties
of states. -/
structure HasLayers (m : Model) (step : BitSet → BitSet) (start : BitSet)
    (layer : Nat → StateId → Prop) : Prop where
  isExpanding : m.IsExpanding step
  isInside : m.IsInside start
  represents : ∀ i, m.Represents (step^[i] start) (layer i)
  grows : ∀ i s, layer i s → layer (i + 1) s

/-- The largest of some numbers, and 0 if there are none. -/
def largest (numbers : List Nat) : Nat :=
  numbers.max?.getD 0

theorem largest_le {numbers : List Nat} {bound : Nat} (h : ∀ n ∈ numbers, n ≤ bound) :
    largest numbers ≤ bound := by
  unfold largest
  cases hMax : numbers.max? with
  | none => exact Nat.zero_le bound
  | some n => exact h n (List.max?_mem hMax)

namespace HasLayers

variable {step : BitSet → BitSet} {start : BitSet} {layer : Nat → StateId → Prop}

theorem mono (h : m.HasLayers step start layer) {i j : Nat} (hij : i ≤ j) {s : StateId}
    (hs : layer i s) : layer j s := by
  induction hij with
  | refl => exact hs
  | step _ ih => exact h.grows _ s ih

theorem isInside_iterate (h : m.HasLayers step start layer) (i : Nat) :
    m.IsInside (step^[i] start) := by
  induction i with
  | zero => exact h.isInside
  | succ i ih =>
    rw [Function.iterate_succ_apply']
    exact h.isExpanding.isInside _ ih

/-- A loop goes on until one of its steps changes nothing. -/
theorem settles (h : m.HasLayers step start layer) (kind : FixpointKind) :
    let x := m.leastFixpoint kind step start
    Settles step start x.iterations x.result :=
  (iterate_settles h.isExpanding h.isInside (Nat.lt_succ_of_le (m.missing_le start))).1

variable {accepted : List Builder.Call} (hm : m.IsBuiltFrom accepted)
include hm

/-- A loop stops one step after its last layer, in which some state is new. -/
theorem iterations_eq (h : m.HasLayers step start layer) (kind : FixpointKind) :
    let x := m.leastFixpoint kind step start
    x.iterations =
      1 + largest ((m.toStateSet x.result).toList.map fun s => sInf {i | layer i s}) := by
  intro x
  have hSettles : Settles step start x.iterations x.result := h.settles kind
  obtain ⟨n, hn⟩ : ∃ n, x.iterations = n + 1 := Nat.exists_eq_add_one.mpr hSettles.pos
  have hResult := hSettles.eq_iterate
  rw [hn, Nat.add_sub_cancel] at hResult
  have hStates (s : StateId) :
      s ∈ (m.toStateSet x.result).toList ↔ m.contains s = true ∧ layer n s := by
    rw [StateSet.toList, ← StateSet.contains_iff_mem, hResult]
    exact (h.represents n).contains_toStateSet hm
  have hLe : largest ((m.toStateSet x.result).toList.map fun s => sInf {i | layer i s}) ≤ n := by
    refine largest_le fun k hk => ?_
    obtain ⟨s, hs, rfl⟩ := List.mem_map.mp hk
    exact Nat.sInf_le ((hStates s).mp hs).2
  have hGe : n ≤ largest ((m.toStateSet x.result).toList.map fun s => sInf {i | layer i s}) := by
    cases n with
    | zero => exact Nat.zero_le _
    | succ n =>
      -- the last step that changed something added a state
      obtain ⟨i, hNew, hOld⟩ := h.isExpanding.exists_new (h.isInside_iterate n)
        (hSettles.changes (by omega))
      rw [← Function.iterate_succ_apply' step] at hNew
      obtain ⟨s, hPosition, hs⟩ := (h.represents (n + 1) i).mp hNew
      have hBefore : ¬ layer n s := by
        rw [← (h.represents n).contains_iff hm hPosition, hOld]
        exact Bool.false_ne_true
      have hFirst : n < sInf {i | layer i s} := by
        have hSome : sInf {i | layer i s} ∈ {i | layer i s} := Nat.sInf_mem ⟨n + 1, hs⟩
        exact Nat.lt_of_not_le fun hLe => hBefore (h.mono hLe hSome)
      have hContains : m.contains s = true := Option.isSome_iff_exists.mpr ⟨i, hPosition⟩
      exact Nat.le_trans hFirst
        (List.le_max?_getD_of_mem (List.mem_map_of_mem ((hStates s).mpr ⟨hContains, hs⟩)))
  omega

/-- A loop ends with the states of all layers, if all of them are among the states
that it is known to find. -/
theorem represents_result (h : m.HasLayers step start layer) {kind : FixpointKind}
    {limit : StateId → Prop} (hLimit : m.Represents (m.leastFixpoint kind step start).result limit)
    (hBelow : ∀ i s, layer i s → limit s) :
    m.Represents (m.leastFixpoint kind step start).result fun s => ∃ i, layer i s := by
  have hLast : m.Represents (m.leastFixpoint kind step start).result (layer _) :=
    (h.settles kind).eq_iterate ▸ h.represents _
  refine hLimit.congr hm fun s i hi => ⟨?_, fun ⟨i, hs⟩ => hBelow i s hs⟩
  intro hs
  exact ⟨_, (hLast.contains_iff hm hi).mp ((hLimit.contains_iff hm hi).mpr hs)⟩

end HasLayers

/-- Layers that follow from each other as the sets do are represented by them. -/
theorem represents_iterate_layer {step : BitSet → BitSet}
    {next : (StateId → Prop) → StateId → Prop} {start : BitSet} {layer : Nat → StateId → Prop}
    (hStep : ∀ X P, m.Represents X P → m.Represents (step X) (next P))
    (hStart : m.Represents start (layer 0)) (hNext : ∀ i s, layer (i + 1) s ↔ next (layer i) s)
    (i : Nat) : m.Represents (step^[i] start) (layer i) := by
  induction i with
  | zero => exact hStart
  | succ i ih =>
    have hLayer : layer (i + 1) = next (layer i) := funext fun s => propext (hNext i s)
    rw [Function.iterate_succ_apply', hLayer]
    exact hStep _ _ ih

-- ---------------------------------------------------------------------------
-- Some path: witnesses
-- ---------------------------------------------------------------------------

/-- The path from a state on through the states of a list follows transitions and
ends in a goal, and all its earlier states are allowed. -/
def IsWitness (m : Model) (allowed goal : StateId → Prop) : StateId → List StateId → Prop
  | s, [] => goal s
  | s, t :: rest => allowed s ∧ m.Step s t ∧ m.IsWitness allowed goal t rest

/-- A path of `k` steps leads from `s` to a goal through allowed states. -/
def ReachesIn (m : Model) (allowed goal : StateId → Prop) (k : Nat) (s : StateId) : Prop :=
  ∃ rest : List StateId, rest.length = k ∧ m.IsWitness allowed goal s rest

/-- Such a path has at most `i` steps. -/
def ReachesWithin (m : Model) (allowed goal : StateId → Prop) (i : Nat) (s : StateId) : Prop :=
  ∃ k ≤ i, m.ReachesIn allowed goal k s

section Witnesses

variable {allowed goal : StateId → Prop} {s : StateId}

theorem reachesIn_zero : m.ReachesIn allowed goal 0 s ↔ goal s := by
  constructor
  · rintro ⟨rest, hLength, hWitness⟩
    rw [List.length_eq_zero_iff.mp hLength] at hWitness
    exact hWitness
  · intro hGoal
    exact ⟨[], rfl, hGoal⟩

theorem reachesIn_succ {k : Nat} :
    m.ReachesIn allowed goal (k + 1) s ↔
      allowed s ∧ ∃ t, m.Step s t ∧ m.ReachesIn allowed goal k t := by
  constructor
  · rintro ⟨rest, hLength, hWitness⟩
    obtain ⟨t, rest, rfl⟩ := List.exists_cons_of_length_eq_add_one hLength
    obtain ⟨hAllowed, hStep, hRest⟩ := hWitness
    exact ⟨hAllowed, t, hStep, rest, Nat.succ.inj hLength, hRest⟩
  · rintro ⟨hAllowed, t, hStep, rest, rfl, hRest⟩
    exact ⟨t :: rest, rfl, hAllowed, hStep, hRest⟩

theorem reachesWithin_zero : m.ReachesWithin allowed goal 0 s ↔ goal s := by
  constructor
  · rintro ⟨k, hk, hReaches⟩
    rw [Nat.le_zero.mp hk] at hReaches
    exact reachesIn_zero.mp hReaches
  · intro hGoal
    exact ⟨0, Nat.le_refl 0, reachesIn_zero.mpr hGoal⟩

/-- A path that is one step longer starts with an allowed state and a step. -/
theorem reachesWithin_succ {i : Nat} :
    m.ReachesWithin allowed goal (i + 1) s ↔
      m.NextReaches allowed (m.ReachesWithin allowed goal i) s := by
  constructor
  · rintro ⟨k, hk, hReaches⟩
    cases k with
    | zero => exact .inr ⟨0, Nat.zero_le i, hReaches⟩
    | succ k =>
      obtain ⟨hAllowed, t, hStep, hRest⟩ := reachesIn_succ.mp hReaches
      exact .inl ⟨⟨t, hStep, k, Nat.le_of_succ_le_succ hk, hRest⟩, hAllowed⟩
  · rintro (⟨⟨t, hStep, k, hk, hRest⟩, hAllowed⟩ | ⟨k, hk, hReaches⟩)
    · exact ⟨k + 1, Nat.succ_le_succ hk, reachesIn_succ.mpr ⟨hAllowed, t, hStep, hRest⟩⟩
    · exact ⟨k, Nat.le_succ_of_le hk, hReaches⟩

/-- Whatever the number of its steps, the path leads to the goal. -/
theorem ReachesWithin.reaches {i : Nat} (h : m.ReachesWithin allowed goal i s) :
    m.Reaches allowed goal s := by
  induction i generalizing s with
  | zero => exact .here (reachesWithin_zero.mp h)
  | succ i ih =>
    rcases reachesWithin_succ.mp h with ⟨⟨t, hStep, hRest⟩, hAllowed⟩ | hBefore
    · exact .step hAllowed hStep (ih hRest)
    · exact ih hBefore

/-- The first layer of a state has the length of its shortest path for its number. -/
theorem sInf_reachesWithin (m : Model) (allowed goal : StateId → Prop) (s : StateId) :
    sInf {i | m.ReachesWithin allowed goal i s} = sInf {k | m.ReachesIn allowed goal k s} := by
  by_cases hSome : ∃ k, m.ReachesIn allowed goal k s
  · have hShortest := Nat.sInf_mem (s := {k | m.ReachesIn allowed goal k s}) hSome
    have hWithin : sInf {k | m.ReachesIn allowed goal k s} ∈ {i | m.ReachesWithin allowed goal i s} :=
      ⟨_, Nat.le_refl _, hShortest⟩
    obtain ⟨k, hk, hReaches⟩ := Nat.sInf_mem ⟨_, hWithin⟩
    exact Nat.le_antisymm (Nat.sInf_le hWithin) (Nat.le_trans (Nat.sInf_le hReaches) hk)
  · have hNone : {k | m.ReachesIn allowed goal k s} = ∅ :=
      Set.eq_empty_iff_forall_notMem.mpr fun k hk => hSome ⟨k, hk⟩
    have hNever : {i | m.ReachesWithin allowed goal i s} = ∅ := by
      refine Set.eq_empty_iff_forall_notMem.mpr ?_
      rintro i ⟨k, -, hk⟩
      exact hSome ⟨k, hk⟩
    rw [hNone, hNever]

end Witnesses

-- ---------------------------------------------------------------------------
-- Every path: meeting a goal in time
-- ---------------------------------------------------------------------------

/-- Every maximal path from `s` meets a goal within `i` steps. -/
def MeetsWithin (m : Model) (goal : StateId → Prop) (i : Nat) (s : StateId) : Prop :=
  ∀ path, m.IsPath path s → ∃ j ≤ i, ∃ t, path j = some t ∧ goal t

section Meeting

variable {goal : StateId → Prop} {s : StateId}

theorem MeetsWithin.succ {i : Nat} (h : m.MeetsWithin goal i s) : m.MeetsWithin goal (i + 1) s := by
  intro path hPath
  obtain ⟨j, hj, hMet⟩ := h path hPath
  exact ⟨j, Nat.le_succ_of_le hj, hMet⟩

theorem meetsWithin_of_goal (hGoal : goal s) (i : Nat) : m.MeetsWithin goal i s :=
  fun _ hPath => ⟨0, Nat.zero_le i, s, hPath.start, hGoal⟩

theorem meetsWithin_zero : m.MeetsWithin goal 0 s ↔ goal s := by
  constructor
  · intro h
    obtain ⟨path, hPath⟩ := m.exists_path s
    obtain ⟨j, hj, t, ht, hGoal⟩ := h path hPath
    rw [Nat.le_zero.mp hj, hPath.start] at ht
    rwa [Option.some.inj ht]
  · exact fun hGoal => meetsWithin_of_goal hGoal 0

/-- A state from which all paths meet a goal one step later has a successor, and all
its successors meet it in time: at a dead end the path would be over. -/
theorem meetsWithin_succ {i : Nat} :
    m.MeetsWithin goal (i + 1) s ↔ m.NextForced (m.MeetsWithin goal i) s := by
  constructor
  · intro h
    by_cases hGoal : goal s
    · exact .inr (meetsWithin_of_goal hGoal i)
    · -- a path from a successor is met by following it from here
      have hAfter (t : StateId) (hStep : m.Step s t) : m.MeetsWithin goal i t := by
        intro path hPath
        obtain ⟨j, hj, u, hu, hMet⟩ := h (follow s path) (isPath_follow hStep hPath)
        cases j with
        | zero =>
          rw [← Option.some.inj hu] at hMet
          exact absurd hMet hGoal
        | succ j => exact ⟨j, Nat.le_of_succ_le_succ hj, u, hu, hMet⟩
      obtain ⟨path, hPath⟩ := m.exists_path s
      obtain ⟨j, -, u, hu, hMet⟩ := h path hPath
      cases j with
      | zero =>
        rw [← Option.some.inj (hPath.start.symm.trans hu)] at hMet
        exact absurd hMet hGoal
      | succ j =>
        obtain ⟨t, -, hStep⟩ := hPath.first_step hu
        exact .inl ⟨⟨t, hStep⟩, hAfter⟩
  · rintro (⟨⟨t, hStep⟩, hAll⟩ | hNow)
    · intro path hPath
      cases hNext : path 1 with
      | none => exact absurd hStep (hPath.stop 0 s hPath.start hNext t)
      | some u =>
        have hFirst : m.Step s u := hPath.step 0 s u hPath.start hNext
        obtain ⟨j, hj, v, hv, hMet⟩ := hAll u hFirst _ (hPath.tail hNext)
        exact ⟨j + 1, Nat.succ_le_succ hj, v, hv, hMet⟩
    · exact hNow.succ

/-- Whatever the number of steps that is enough, every path meets a goal. -/
theorem MeetsWithin.isForced {i : Nat} (h : m.MeetsWithin goal i s) : m.IsForced goal s := by
  induction i generalizing s with
  | zero => exact .here (meetsWithin_zero.mp h)
  | succ i ih =>
    rcases meetsWithin_succ.mp h with ⟨⟨t, hStep⟩, hAll⟩ | hBefore
    · exact .step hStep fun u hu => ih (hAll u hu)
    · exact ih hBefore

end Meeting

-- ---------------------------------------------------------------------------
-- The two fixpoints
-- ---------------------------------------------------------------------------

/-- The position of the state is in the set. -/
def IsMarked (m : Model) (X : BitSet) (s : StateId) : Prop :=
  ∃ i, m.position? s = some i ∧ X.contains i = true

section Built

variable {accepted : List Builder.Call} (hm : m.IsBuiltFrom accepted)
include hm

theorem IsInside.represents_isMarked {X : BitSet} (hX : m.IsInside X) :
    m.Represents X (m.IsMarked X) := by
  have hAll := represents_allPositions hm
  refine represents_of ?_ ?_
  · intro i hi
    refine hAll.exists_position ?_
    rw [← BitSet.mem_toList, hm.allPositions, List.mem_range]
    exact hX.lt_size i hi
  · intro s i hi
    constructor
    · exact fun hMem => ⟨i, hi, hMem⟩
    · rintro ⟨j, hj, hMem⟩
      rwa [Option.some.inj (hi.symm.trans hj)]

theorem hasLayers_someUntil {A G : BitSet} (hA : m.IsInside A) (hG : m.IsInside G) :
    m.HasLayers (m.someUntilStep A) G (m.ReachesWithin (m.IsMarked A) (m.IsMarked G)) where
  isExpanding := m.isExpanding_someUntilStep A
  isInside := hG
  represents := by
    refine represents_iterate_layer ((hA.represents_isMarked hm).someUntilStep hm) ?_
      fun _ _ => reachesWithin_succ
    exact (hG.represents_isMarked hm).congr hm fun s _ _ => reachesWithin_zero.symm
  grows := fun _ _ h => reachesWithin_succ.mpr (.inr h)

theorem hasLayers_allEventually {G : BitSet} (hG : m.IsInside G) :
    m.HasLayers m.allEventuallyStep G (m.MeetsWithin (m.IsMarked G)) where
  isExpanding := m.isExpanding_allEventuallyStep
  isInside := hG
  represents := by
    refine represents_iterate_layer (represents_allEventuallyStep hm) ?_
      fun _ _ => meetsWithin_succ
    exact (hG.represents_isMarked hm).congr hm fun s _ _ => meetsWithin_zero.symm
  grows := fun _ _ h => h.succ

/-- The loop for `someUntil` finds all states from which such a path leads to a goal. -/
theorem represents_someUntil_reachesIn {A G : BitSet} (hA : m.IsInside A) (hG : m.IsInside G) :
    m.Represents (m.someUntil A G).result
      fun s => ∃ k, m.ReachesIn (m.IsMarked A) (m.IsMarked G) k s := by
  have hLimit := represents_someUntil hm (hA.represents_isMarked hm) (hG.represents_isMarked hm)
  refine ((hasLayers_someUntil hm hA hG).represents_result hm hLimit ?_).congr hm fun s _ _ => ?_
  · exact fun i s h => h.reaches
  · constructor
    · rintro ⟨i, k, -, hk⟩
      exact ⟨k, hk⟩
    · rintro ⟨k, hk⟩
      exact ⟨k, k, Nat.le_refl k, hk⟩

/-- The loop for `allEventually` finds all states for which some number of steps is
enough. -/
theorem represents_allEventually_meetsWithin {G : BitSet} (hG : m.IsInside G) :
    m.Represents (m.allEventually G).result fun s => ∃ i, m.MeetsWithin (m.IsMarked G) i s := by
  have hLimit := represents_allEventually hm (hG.represents_isMarked hm)
  exact (hasLayers_allEventually hm hG).represents_result hm hLimit fun i s h => h.isForced

end Built

/-- **Layers and steps of the fixpoints.** In a built model, let `allowed` and `goal`
be the states of two sets of positions.

After `i` steps, the loop for `someUntil` has exactly the states from which a path of
at most `i` steps leads to a goal, with all earlier states allowed. It goes on until
a step changes nothing, and then has the states from which there is such a path
of any length; it takes one step more than the largest length that a shortest
such path has, over these states.

After `i` steps, the loop for `allEventually` has exactly the states from which every
maximal path meets a goal within `i` steps. It goes on until a step changes nothing,
and then has the states for which some number of steps is enough; it takes one step
more than the largest number of steps that a state needs, over these states.

The largest of no numbers is 0. -/
theorem fixpoint_layers (hm : m.IsBuilt) {A G : BitSet} (hA : m.IsInside A) (hG : m.IsInside G) :
    let allowed := m.IsMarked A
    let goal := m.IsMarked G
    let reach := m.someUntil A G
    let forced := m.allEventually G
    (∀ i, m.Represents ((m.someUntilStep A)^[i] G)
      fun s => ∃ k ≤ i, m.ReachesIn allowed goal k s) ∧
    reach.result = (m.someUntilStep A)^[reach.iterations - 1] G ∧
    Settles (m.someUntilStep A) G reach.iterations reach.result ∧
    (m.Represents reach.result fun s => ∃ k, m.ReachesIn allowed goal k s) ∧
    reach.iterations = 1 + largest ((m.toStateSet reach.result).toList.map
      fun s => sInf {k | m.ReachesIn allowed goal k s}) ∧
    (∀ i, m.Represents (m.allEventuallyStep^[i] G) (m.MeetsWithin goal i)) ∧
    forced.result = m.allEventuallyStep^[forced.iterations - 1] G ∧
    Settles m.allEventuallyStep G forced.iterations forced.result ∧
    (m.Represents forced.result fun s => ∃ i, m.MeetsWithin goal i s) ∧
    forced.iterations = 1 + largest ((m.toStateSet forced.result).toList.map
      fun s => sInf {i | m.MeetsWithin goal i s}) := by
  intro allowed goal reach forced
  obtain ⟨accepted, hBuilt⟩ := hm.exists_isBuiltFrom
  have hReach := hasLayers_someUntil hBuilt hA hG
  have hForced := hasLayers_allEventually hBuilt hG
  have hReachEnd := hReach.settles .someUntil
  have hForcedEnd := hForced.settles .allEventually
  have hReachSteps := hReach.iterations_eq hBuilt .someUntil
  have hForcedSteps := hForced.iterations_eq hBuilt .allEventually
  simp only [sInf_reachesWithin] at hReachSteps
  exact ⟨hReach.represents, hReachEnd.eq_iterate, hReachEnd,
    represents_someUntil_reachesIn hBuilt hA hG, hReachSteps, hForced.represents,
    hForcedEnd.eq_iterate, hForcedEnd, represents_allEventually_meetsWithin hBuilt hG, hForcedSteps⟩

/-- In `0 → 1 → 2 → 3` with a shortcut from `0` to `3`, where only `3` carries `p`, two
steps are the most that a shortest path to `p` needs, from `1`; but three steps
are needed until every path has met `p`, from `0`. -/
theorem fixpoint_layers_shortcut :
    let calls : List Builder.Call :=
      [.state ⟨0⟩, .state ⟨1⟩, .state ⟨2⟩, .state ⟨3⟩, .transition ⟨⟨0⟩, ⟨0⟩, ⟨1⟩⟩,
        .transition ⟨⟨1⟩, ⟨1⟩, ⟨2⟩⟩, .transition ⟨⟨2⟩, ⟨2⟩, ⟨3⟩⟩, .transition ⟨⟨3⟩, ⟨0⟩, ⟨3⟩⟩,
        .label ⟨3⟩ "p"]
    let m := (Builder.attemptAll {} calls).1.build
    let G := m.positionsWhere (·.hasLabel "p")
    let A := m.complement G
    let reach := m.someUntil A G
    let forced := m.allEventually G
    m.IsBuilt ∧ m.IsInside A ∧ m.IsInside G ∧ reach.iterations = 3 ∧ forced.iterations = 4 ∧
      largest ((m.toStateSet reach.result).toList.map
        fun s => sInf {k | m.ReachesIn (m.IsMarked A) (m.IsMarked G) k s}) = 2 ∧
      largest ((m.toStateSet forced.result).toList.map
        fun s => sInf {i | m.MeetsWithin (m.IsMarked G) i s}) = 3 := by
  intro calls m G A reach forced
  have hBuilt : m.IsBuilt := ⟨calls, rfl⟩
  obtain ⟨accepted, hFrom⟩ := hBuilt.exists_isBuiltFrom
  have hG : m.IsInside G := m.isInside_positionsWhere _
  have hA : m.IsInside A := isInside_complement hFrom G
  have hSorted : (Builder.attemptAll {} calls).1.sortedStates =
      [{ id := ⟨0⟩, outgoing := [0, 3] }, { id := ⟨1⟩, outgoing := [1] },
        { id := ⟨2⟩, outgoing := [2] }, { id := ⟨3⟩, labels := ["p"] }] :=
    List.mergeSort_of_pairwise (by decide +kernel)
  have hReach : reach.iterations = 3 := by
    simp only [reach, A, G, m, Builder.build, hSorted]
    decide +kernel
  have hForced : forced.iterations = 4 := by
    simp only [forced, G, m, Builder.build, hSorted]
    decide +kernel
  obtain ⟨-, -, -, -, hReachSteps, -, -, -, -, hForcedSteps⟩ := fixpoint_layers hBuilt hA hG
  have hLongest : 1 + largest _ = 1 + 2 := hReachSteps.symm.trans hReach
  have hLatest : 1 + largest _ = 1 + 3 := hForcedSteps.symm.trans hForced
  exact ⟨hBuilt, hA, hG, hReach, hForced, Nat.add_left_cancel hLongest,
    Nat.add_left_cancel hLatest⟩

end BranchingTime.Model
