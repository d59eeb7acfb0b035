import BranchingTime.Proofs.Model.Language
import BranchingTime.Proofs.Text.LineReader
import BranchingTime.Suite

/-!
# BranchingTime — the first line at fault

Models and suites are read by going through lines, up to the first one that is at
fault. So the lines that their errors carry are such lines. The models' reader has
one complaint more, which is about no line: that there is none with labels.

## Results

* `Model.parse_eq_read`, `Suite.parse_eq_read` — both are read line by line.
* `Model.exists_mended` — where labels are missing, nothing else is wrong.
* `errors_point_at_first_fault` — errors carry the first line at fault.
-/

namespace BranchingTime

-- ---------------------------------------------------------------------------
-- Models
-- ---------------------------------------------------------------------------

namespace Model

open Text (Line)

/-- The reader of models. The first line declares states, the others add to them;
what there is after that is a builder, and whether a line gave labels. -/
def reader : Text.LineReader (Option (Builder × Bool)) ModelLineFault where
  skips _ := false
  start := none
  step
    | none, line => (readStates {} line.text).map fun b => some (b, false)
    | some (b, labelled), line =>
      (readLine b line.text).map fun b' => some (b', labelled || isLabelLine line.text)

theorem linesOf_rows (text : String) :
    reader.linesOf (Text.rows text) = Text.filledLines (Text.dropByteOrderMark text.toList) := by
  rw [Text.filledLines_eq_filledRows]
  exact List.filter_true _

theorem stepAt_none (line : Line) :
    reader.stepAt none line =
      ((readStates {} line.text).map fun b => some (b, false)).mapError (line.number, ·) :=
  rfl

theorem stepAt_some (b : Builder) (labelled : Bool) (line : Line) :
    reader.stepAt (some (b, labelled)) line =
      ((readLine b line.text).map fun b' => some (b', labelled || isLabelLine line.text)).mapError
        (line.number, ·) :=
  rfl

theorem readLines_cases (b : Builder) (labelled : Bool) (lines : List Line) :
    (∃ b', readLines b lines = .ok b' ∧
      lines.foldlM reader.stepAt (some (b, labelled)) =
        .ok (some (b', labelled || lines.any (isLabelLine ·.text)))) ∨
    ∃ n fault, readLines b lines = .error (.atLine n fault) ∧
      lines.foldlM reader.stepAt (some (b, labelled)) = .error (n, fault) := by
  induction lines generalizing b labelled with
  | nil => exact .inl ⟨b, rfl, by rw [List.any_nil, Bool.or_false]; rfl⟩
  | cons line rest ih =>
    rw [readLines, List.foldlM_cons, List.any_cons, ← Bool.or_assoc, stepAt_some]
    cases readLine b line.text with
    | error fault => exact .inr ⟨line.number, fault, rfl, rfl⟩
    | ok b' => exact ih b' (labelled || isLabelLine line.text)

/-- A text is what its lines are read as, if it has any, and needs one with
labels. -/
theorem parse_eq_read (text : String) :
    parse text =
      match reader.read text with
      | .error (n, fault) => .error (.atLine n fault)
      | .ok none => .error .empty
      | .ok (some (b, labelled)) =>
        if !labelled && !b.states.isEmpty then
          .error (.atLine ((Text.physicalLines
            (Text.dropByteOrderMark text.toList)).length + 1) .missingLabels)
        else
          .ok b.build := by
  rw [parse, Text.LineReader.read, linesOf_rows]
  cases Text.filledLines (Text.dropByteOrderMark text.toList) with
  | nil => rfl
  | cons first rest =>
    dsimp only
    rw [List.foldlM_cons, show reader.start = none from rfl, stepAt_none]
    cases readStates {} first.text with
    | error fault => rfl
    | ok declared =>
      dsimp only [Except.map, Except.mapError, bind, Except.bind]
      rcases readLines_cases declared false rest with ⟨b, hRead, hFold⟩ | ⟨n, fault, hRead, hFold⟩
      · rw [hRead, hFold, Bool.false_or]
      · rw [hRead, hFold]

-- Every line has complaints of its own; that labels are missing is none of them.

theorem readIdent_ne_missingLabels {letter : Char} {fault : String → ModelLineFault}
    (hFault : ∀ name, fault name ≠ .missingLabels) (name : List Char) :
    readIdent letter fault name ≠ .error .missingLabels := by
  unfold readIdent
  split
  · simp
  · simpa using hFault _

theorem readState_ne_missingLabels (name : List Char) : readState name ≠ .error .missingLabels :=
  readIdent_ne_missingLabels (by simp) name

theorem addPart_ne_missingLabels (b : Builder) (c : Builder.Call) :
    addPart b c ≠ .error .missingLabels := by
  unfold addPart
  cases b.call c <;> simp [Except.mapError]

theorem cutAtColon_ne_missingLabels (wanted : ModelLine) (body : List Char) :
    cutAtColon wanted body ≠ .error .missingLabels := by
  unfold cutAtColon
  split <;> simp

theorem readStates_ne_missingLabels (b : Builder) (text : List Char) :
    readStates b text ≠ .error .missingLabels := by
  unfold readStates
  dsimp only
  split
  · simp
  · refine foldlM_ne_error (fun b name => ?_) _ b
    exact bind_ne_error (readState_ne_missingLabels _) fun id => addPart_ne_missingLabels b _

theorem readTransition_ne_missingLabels (b : Builder) (body : List Char) :
    readTransition b body ≠ .error .missingLabels := by
  refine bind_ne_error (cutAtColon_ne_missingLabels _ _) fun ⟨name, edge⟩ => ?_
  refine bind_ne_error ?_ fun id => bind_ne_error ?_ fun ⟨source, target⟩ => ?_
  · exact readIdent_ne_missingLabels (by simp) name
  · unfold cutAtDash
    split
    · simp
    · split <;> simp
  · refine bind_ne_error (readState_ne_missingLabels _) fun source => ?_
    exact bind_ne_error (readState_ne_missingLabels _) fun target => addPart_ne_missingLabels b _

theorem readLabels_ne_missingLabels (b : Builder) (body : List Char) :
    readLabels b body ≠ .error .missingLabels := by
  refine bind_ne_error (cutAtColon_ne_missingLabels _ _) fun ⟨name, labels⟩ => ?_
  refine bind_ne_error (readState_ne_missingLabels _) fun id => ?_
  refine foldlM_ne_error (fun b word => ?_) _ b
  unfold readLabel
  dsimp only
  split
  · exact addPart_ne_missingLabels b _
  · simp

theorem readLine_ne_missingLabels (b : Builder) (text : List Char) :
    readLine b text ≠ .error .missingLabels := by
  unfold readLine
  dsimp only
  split
  · exact readTransition_ne_missingLabels b _
  · exact readLabels_ne_missingLabels b _
  · simp

theorem read_ne_missingLabels (text : String) (n : Nat) :
    reader.read text ≠ .error (n, .missingLabels) := by
  refine foldlM_ne_error (fun s line hError => ?_) _ _
  obtain ⟨hStep, -⟩ := reader.stepAt_eq_error_iff.mp hError
  rcases s with _ | ⟨b, labelled⟩
  · exact readStates_ne_missingLabels {} line.text (map_eq_error_iff.mp hStep)
  · exact readLine_ne_missingLabels b line.text (map_eq_error_iff.mp hStep)

/-- No line of the text is at fault. -/
def HasNoFault (text : String) : Prop :=
  (∃ m, parse text = .ok m) ∨ parse text = .error .empty ∨
    ∃ n, parse text = .error (.atLine n .missingLabels)

theorem hasNoFault_of_read {text : String} {s : Option (Builder × Bool)}
    (h : reader.read text = .ok s) : HasNoFault text := by
  unfold HasNoFault
  rw [parse_eq_read, h]
  rcases s with _ | ⟨b, labelled⟩
  · exact .inr (.inl rfl)
  · dsimp only
    split
    · exact .inr (.inr ⟨_, rfl⟩)
    · exact .inl ⟨_, rfl⟩

theorem parse_eq_error_iff_read {text : String} {n : Nat} {fault : ModelLineFault}
    (hFault : fault ≠ .missingLabels) :
    parse text = .error (.atLine n fault) ↔ reader.read text = .error (n, fault) := by
  rw [parse_eq_read]
  cases reader.read text with
  | error e =>
    obtain ⟨k, other⟩ := e
    simp
  | ok s =>
    refine iff_of_false (fun h => ?_) (by simp)
    rcases s with _ | ⟨b, labelled⟩
    · cases h
    · dsimp only at h
      split at h
      · cases h
        exact hFault rfl
      · cases h

/-- Labels are found missing behind the last line, when all lines were read. -/
theorem read_of_missingLabels {text : String} {n : Nat}
    (h : parse text = .error (.atLine n .missingLabels)) :
    ∃ b, reader.read text = .ok (some (b, false)) ∧ b.states.isEmpty = false ∧
      n = (Text.rows text).length + 1 := by
  rw [parse_eq_read] at h
  cases hRead : reader.read text with
  | error e =>
    obtain ⟨k, fault⟩ := e
    rw [hRead] at h
    cases h
    exact absurd hRead (read_ne_missingLabels text n)
  | ok s =>
    rw [hRead] at h
    rcases s with _ | ⟨b, labelled⟩
    · cases h
    · dsimp only at h
      split at h
      · rename_i hMissing
        cases h
        rw [Bool.and_eq_true, Bool.not_eq_true', Bool.not_eq_true'] at hMissing
        obtain ⟨rfl, hStates⟩ := hMissing
        have hMark : text.toList ≠ ['\ufeff'] := by
          intro hText
          rw [Text.LineReader.read, linesOf_rows, hText] at hRead
          cases hRead
        refine ⟨b, rfl, hStates, ?_⟩
        rw [Text.physicalLines_dropByteOrderMark hMark, List.length_modifyHead, Text.rows,
          List.length_map]
      · cases h

theorem isTrimmed_noLabels (id : StateId) : Text.IsTrimmed (id.name ++ ":").toList := by
  rw [String.toList_append]
  have hWord := id.isWord_name
  constructor
  case first =>
    intro c hc
    obtain ⟨d, digits, hName⟩ := List.exists_cons_of_ne_nil hWord.filled
    rw [hName] at hc
    cases hc
    exact hWord.isTrimmed.first c (by rw [hName]; rfl)
  case last =>
    intro c hc
    obtain rfl : ':' = c := Option.some.inj (List.getLast?_concat.symm.trans hc)
    decide

/-- A line of labels without any can always be added. -/
theorem readLine_noLabels (b : Builder) (id : StateId) :
    readLine b (id.name ++ ":").toList = .ok b ∧ isLabelLine (id.name ++ ":").toList = true := by
  have hTrimmed := isTrimmed_noLabels id
  have hBody : dropTerminator (id.name ++ ":").toList = id.name.toList ++ [':'] := by
    rw [dropTerminator_plain, Text.trimRight_eq_self hTrimmed.last, String.toList_append]
    · rfl
    · intro c hc
      rw [String.toList_append, show ":".toList = [':'] from rfl, List.getLast?_concat]
      rcases List.mem_pair.mp hc with rfl | rfl <;> decide
  have hName : named? 's' id.name.toList = some id := by
    rw [named?, id.isWord_name.isTrimmed.trim_eq, String.ofList_toList, id.ofName?_name]
  have hSays : Says .labels (dropTerminator (id.name ++ ":").toList) [] := by
    rw [hBody]
    exact @Says.labels _ [] id hName (by decide)
  exact ⟨(readLine_eq_ok_iff hTrimmed.first).mpr ⟨_, _, hSays, rfl⟩,
    (isLabelLine_iff hTrimmed.first hSays).mpr rfl⟩

/-- A further line is read after all others. -/
theorem read_append_row {text text' : String} {b : Builder} {labelled : Bool} {row : List Char}
    (hRead : reader.read text = .ok (some (b, labelled))) (hTrimmed : Text.IsTrimmed row)
    (hFilled : row ≠ []) (hRows : Text.rows text' = Text.rows text ++ [row]) :
    reader.read text' =
      reader.stepAt (some (b, labelled)) ⟨(Text.rows text).length + 1, row⟩ := by
  have hSome : Text.rows text ≠ [] := by
    intro hNil
    rw [Text.LineReader.read, hNil] at hRead
    cases hRead
  have hRow : Text.filledFrom (Text.rows text).length [row] =
      [⟨(Text.rows text).length + 1, row⟩] := by
    simp [Text.filledFrom, hTrimmed.trim_eq, hFilled]
  have hLines : reader.linesOf (Text.rows text') =
      reader.linesOf (Text.rows text) ++ [⟨(Text.rows text).length + 1, row⟩] := by
    rw [Text.LineReader.linesOf, hRows, Text.filledRows_append hSome, List.filter_append, hRow]
    rfl
  rw [Text.LineReader.read, hLines, List.foldlM_append, ← Text.LineReader.read, hRead]
  show [_].foldlM reader.stepAt (some (b, labelled)) = _
  rw [List.foldlM_cons]
  exact bind_pure _

/-- A line for one of the states is all that is missing. -/
theorem exists_mended {text : String} {b : Builder}
    (hRead : reader.read text = .ok (some (b, false))) (hStates : b.states.isEmpty = false) :
    ∃ id : StateId, ∀ text', Text.rows text' = Text.rows text ++ [(id.name ++ ":").toList] →
      ∃ m, parse text' = .ok m ∧ m.contains id = true := by
  have hSize : b.build.states.size = b.states.size := by
    simp [Builder.build, Builder.sortedStates]
  have hPos : 0 < b.build.states.size := by
    rw [hSize, Array.size_pos_iff]
    intro hNil
    rw [hNil] at hStates
    cases hStates
  refine ⟨b.build.states[0].id, fun text' hRows => ?_⟩
  obtain ⟨hLine, hLabels⟩ := readLine_noLabels b b.build.states[0].id
  have hTrimmed := isTrimmed_noLabels b.build.states[0].id
  have hParse : parse text' = .ok b.build := by
    rw [parse_eq_read, read_append_row hRead hTrimmed (by simp) hRows, stepAt_some, hLine, hLabels]
    rfl
  obtain ⟨_, b', -, hCalls, hBuild⟩ := parse_eq_ok_iff.mp hParse
  have hm := isBuiltFrom_of_callAll hCalls
  rw [← hBuild] at hm
  exact ⟨b.build, hParse, hm.contains_iff_exists.mpr ⟨_, Array.getElem_mem hPos, rfl⟩⟩

end Model

-- ---------------------------------------------------------------------------
-- Suites
-- ---------------------------------------------------------------------------

namespace Suite

open Text (Line)

/-- The reader of suites. It passes over comments, and gathers cases. -/
def reader : Text.LineReader (List Expectation) SuiteLineFault where
  skips := Line.isComment
  start := []
  step seen line := (readCase line).map (· :: seen)

theorem stepAt_eq (seen : List Expectation) (line : Line) :
    reader.stepAt seen line = ((readCase line).map (· :: seen)).mapError (line.number, ·) :=
  rfl

theorem readLines_cases (seen : List Expectation) (lines : List Line) :
    (∃ found, readLines seen lines = ⟨found.reverse, none⟩ ∧
      lines.foldlM reader.stepAt seen = .ok found) ∨
    ∃ found n fault, readLines seen lines = ⟨found, some ⟨n, fault⟩⟩ ∧
      lines.foldlM reader.stepAt seen = .error (n, fault) := by
  induction lines generalizing seen with
  | nil => exact .inl ⟨seen, rfl, rfl⟩
  | cons line rest ih =>
    rw [readLines, List.foldlM_cons, stepAt_eq]
    cases readCase line with
    | error fault => exact .inr ⟨_, line.number, fault, rfl, rfl⟩
    | ok found => exact ih (found :: seen)

theorem parse_eq_read (text : String) :
    parse text =
      match reader.read text with
      | .error (n, fault) => .error ⟨n, fault⟩
      | .ok found => .ok ⟨found.reverse⟩ := by
  have hLines : caseLines text = reader.linesOf (Text.rows text) := by
    rw [caseLines, Text.filledLines_eq_filledRows]
    rfl
  rw [parse, read, hLines, Text.LineReader.read, show reader.start = [] from rfl]
  rcases readLines_cases [] (reader.linesOf (Text.rows text)) with
    ⟨found, hRead, hFold⟩ | ⟨found, n, fault, hRead, hFold⟩
  · rw [hRead, hFold]
  · rw [hRead, hFold]

theorem parse_eq_error_iff_read {text : String} {n : Nat} {fault : SuiteLineFault} :
    parse text = .error ⟨n, fault⟩ ↔ reader.read text = .error (n, fault) := by
  rw [parse_eq_read]
  cases reader.read text with
  | error e =>
    obtain ⟨k, other⟩ := e
    simp
  | ok found => simp

end Suite

-- ---------------------------------------------------------------------------
-- Errors with a line
-- ---------------------------------------------------------------------------

/-- **Error lines.** The line that an error of a model or of a suite carries is the
first one at fault: it is not blank, every text with the same lines up to it has
the same error, and the lines before it have none. That labels are missing is
reported behind the last line, and only if one further line is all that is
needed. -/
theorem errors_point_at_first_fault (text : String) :
    (∀ n fault, Model.parse text = .error (.atLine n fault) → fault ≠ .missingLabels →
      Text.IsFirstAtFault text n (fun t => Model.parse t = .error (.atLine n fault))
        Model.HasNoFault) ∧
    (∀ n, Model.parse text = .error (.atLine n .missingLabels) →
      n = (Text.rows text).length + 1 ∧
      (∀ k t, Text.rows t = (Text.rows text).take k → Model.HasNoFault t) ∧
      ∃ id : StateId, ∀ t, Text.rows t = Text.rows text ++ [(id.name ++ ":").toList] →
        ∃ m, Model.parse t = .ok m ∧ m.contains id = true) ∧
    ∀ n fault, Suite.parse text = .error ⟨n, fault⟩ →
      Text.IsFirstAtFault text n (fun t => Suite.parse t = .error ⟨n, fault⟩)
        fun t => ∃ s, Suite.parse t = .ok s := by
  refine ⟨?_, ?_, ?_⟩
  · intro n fault hParse hFault
    have hRead := (Model.parse_eq_error_iff_read hFault).mp hParse
    refine (Model.reader.isFirstAtFault hRead).imp (fun t ht => ?_) fun t ht => ?_
    · exact (Model.parse_eq_error_iff_read hFault).mpr ht
    · obtain ⟨s, hs⟩ := ht
      exact Model.hasNoFault_of_read hs
  · intro n hParse
    obtain ⟨b, hRead, hStates, hn⟩ := Model.read_of_missingLabels hParse
    refine ⟨hn, fun k t hRows => ?_, Model.exists_mended hRead hStates⟩
    obtain ⟨s, hs⟩ := Model.reader.exists_read_take hRead hRows
    exact Model.hasNoFault_of_read hs
  · intro n fault hParse
    have hRead := Suite.parse_eq_error_iff_read.mp hParse
    refine (Suite.reader.isFirstAtFault hRead).imp (fun t ht => ?_) fun t ht => ?_
    · exact Suite.parse_eq_error_iff_read.mpr ht
    · obtain ⟨found, hFound⟩ := ht
      exact ⟨_, by rw [Suite.parse_eq_read, hFound]⟩

/-- A model with a bad label behind a blank line, a model without labels, and a
suite with a short case behind a comment. -/
theorem errors_point_behind_blank_lines :
    (Model.parse "\ufeffs1;\r\n\ns1 : p2;\nx" = .error (.atLine 3 (.invalidLabel "p2")) ∧
      Model.parse "\ufeffs1;\n\ns1 : p2; \ns1 : q;" = .error (.atLine 3 (.invalidLabel "p2")) ∧
      Model.HasNoFault "\ufeffs1;\n\n") ∧
    (Model.parse "s1;\n\n" = .error (.atLine 3 .missingLabels) ∧
      ∃ id : StateId, ∀ t, Text.rows t = [['s', '1', ';'], [], (id.name ++ ":").toList] →
        ∃ m, Model.parse t = .ok m ∧ m.contains id = true) ∧
    Suite.parse "# cases\ns1; p; true\ns1; p\n" = .error ⟨3, .malformedLine⟩ ∧
      ∃ s, Suite.parse "# cases\ns1; p; true" = .ok s := by
  refine ⟨?_, ?_, ?_⟩
  · have hLabel : Model.parse "\ufeffs1;\r\n\ns1 : p2;\nx" =
        .error (.atLine 3 (.invalidLabel "p2")) := by
      rw [← map_eq_error_iff (f := Model.size)]
      decide +kernel
    have hFirst := (errors_point_at_first_fault _).1 3 _ hLabel (by simp)
    have hSame : (Text.rows "\ufeffs1;\n\ns1 : p2; \ns1 : q;").take 3 =
        (Text.rows "\ufeffs1;\r\n\ns1 : p2;\nx").take 3 := by decide +kernel
    have hBefore : Text.rows "\ufeffs1;\n\n" =
        (Text.rows "\ufeffs1;\r\n\ns1 : p2;\nx").take (3 - 1) := by decide +kernel
    exact ⟨hLabel, hFirst.again _ hSame, hFirst.before _ hBefore⟩
  · have hNone : Model.parse "s1;\n\n" = .error (.atLine 3 .missingLabels) := by
      rw [← map_eq_error_iff (f := Model.size)]
      decide +kernel
    have hRows : Text.rows "s1;\n\n" = [['s', '1', ';'], []] := by decide +kernel
    obtain ⟨-, -, hMended⟩ := (errors_point_at_first_fault _).2.1 3 hNone
    rw [hRows] at hMended
    exact ⟨hNone, hMended⟩
  · have hCase : Suite.parse "# cases\ns1; p; true\ns1; p\n" = .error ⟨3, .malformedLine⟩ := by
      decide +kernel
    have hFirst := (errors_point_at_first_fault _).2.2 3 _ hCase
    have hBefore : Text.rows "# cases\ns1; p; true" =
        (Text.rows "# cases\ns1; p; true\ns1; p\n").take (3 - 1) := by decide +kernel
    exact ⟨hCase, hFirst.before _ hBefore⟩

end BranchingTime
