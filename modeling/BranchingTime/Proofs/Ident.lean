import BranchingTime.Ident
import BranchingTime.Proofs.Text.Splitting
import Mathlib.Algebra.Group.Nat.Defs

/-!
# BranchingTime — names of states and transitions

A numeral is read digit by digit, and the reading ends at the first digit that
makes the number too large. That is no earlier than it has to be: further digits
never make a number smaller. So a numeral is read as the number that its digits
write, if that fits, and the name that is written for an identifier is read as
this identifier. Names have letters and digits only, which is what lets readers
cut them out of a line.

## Results

* `Text.foldlM_appendDigit?_eq_some_iff` — reading digit by digit.
* `Text.word32?_eq_some_iff` — what numerals are read as.
* `Ident.ofName?_eq_some_iff` — what names are read as.
* `Ident.ofName?_name` — names are read back.
* `names_are_numerals` — which texts are names, and of what.
-/

namespace BranchingTime

-- ---------------------------------------------------------------------------
-- Numerals
-- ---------------------------------------------------------------------------

namespace Text

/-- A number never gets smaller by digits behind it. -/
theorem le_ofDigitChars (digits : List Char) (start : Nat) :
    start ≤ Nat.ofDigitChars 10 digits start := by
  rw [Nat.ofDigitChars_eq_ofDigitChars_zero]
  exact Nat.le_add_right_of_le (Nat.le_mul_of_pos_left start (Nat.pow_pos (by decide)))

theorem foldlM_appendDigit?_eq_some_iff {digits : List Char} {start n : UInt32} :
    digits.foldlM appendDigit? start = some n ↔
      Nat.ofDigitChars 10 digits start.toNat = n.toNat := by
  induction digits generalizing start with
  | nil =>
    rw [List.foldlM_nil, Nat.ofDigitChars_nil, UInt32.toNat_inj]
    exact Option.some_inj
  | cons c rest ih =>
    rw [List.foldlM_cons, Nat.ofDigitChars_cons, Nat.mul_comm 10, appendDigit?]
    split
    · rename_i hFits
      rw [Option.bind_eq_bind, Option.bind_some, ih, UInt32.toNat_ofNat_of_lt' hFits]
    · -- the number is too large already, and stays so
      rename_i hOver
      have hLe := le_ofDigitChars rest (start.toNat * 10 + (c.toNat - '0'.toNat))
      have hLt : n.toNat < UInt32.size := n.toNat_lt
      constructor
      · intro h
        cases h
      · intro h
        omega

theorem word32?_eq_some_iff {digits : List Char} {n : UInt32} :
    word32? digits = some n ↔
      digits ≠ [] ∧ (∀ c ∈ digits, c.isDigit = true) ∧
        Nat.ofDigitChars 10 digits 0 = n.toNat := by
  unfold word32?
  split
  · rename_i hOther
    rw [Bool.or_eq_true, List.isEmpty_iff, Bool.not_eq_true', ← Bool.not_eq_true,
      List.all_eq_true] at hOther
    constructor
    · intro h
      cases h
    · rintro ⟨hFilled, hDigits, -⟩
      exact absurd hDigits (hOther.resolve_left hFilled)
  · rename_i hNumeral
    rw [Bool.or_eq_true, not_or, List.isEmpty_iff, Bool.not_eq_true', Bool.not_eq_false,
      List.all_eq_true] at hNumeral
    rw [foldlM_appendDigit?_eq_some_iff, and_iff_right hNumeral.1, and_iff_right hNumeral.2]
    rfl

theorem word32?_toDigits (n : UInt32) : word32? (Nat.toDigits 10 n.toNat) = some n := by
  rw [word32?_eq_some_iff]
  refine ⟨Nat.toDigits_ne_nil, fun c hc => ?_, Nat.ofDigitChars_ten_toDigits⟩
  exact Nat.isDigit_of_mem_toDigits (by decide) (Nat.le_refl 10) hc

/-- A letter in front of a numeral makes a word. -/
theorem isWord_of_word32? {letter : Char} (hLetter : letter.isAlpha = true) {digits : List Char}
    {n : UInt32} (h : word32? digits = some n) : IsWord (letter :: digits) where
  filled := List.cons_ne_nil letter digits
  isAlphanum := by
    intro c hc
    rw [Char.isAlphanum, Bool.or_eq_true]
    rcases List.mem_cons.mp hc with rfl | hc
    · exact .inl hLetter
    · exact .inr ((word32?_eq_some_iff.mp h).2.1 c hc)

/-- The number that digits write: every digit counts ten times as much as it would
one place further behind. -/
def numeralValue : List Char → Nat
  | [] => 0
  | c :: rest => (c.toNat - '0'.toNat) * 10 ^ rest.length + numeralValue rest

theorem ofDigitChars_eq_numeralValue (digits : List Char) :
    Nat.ofDigitChars 10 digits 0 = numeralValue digits := by
  induction digits with
  | nil => rfl
  | cons c rest ih =>
    rw [Nat.ofDigitChars_cons, Nat.mul_zero, Nat.zero_add, Nat.ofDigitChars_eq_ofDigitChars_zero,
      ih, Nat.mul_comm, numeralValue]

theorem isDigit_iff {c : Char} : c.isDigit = true ↔ '0' ≤ c ∧ c ≤ '9' := by
  rw [Char.isDigit, Bool.and_eq_true, decide_eq_true_eq, decide_eq_true_eq]
  exact Iff.rfl

/-- A text that is one letter with one or more ASCII digits behind it, which write
a number. -/
def IsNumbered (letter : Char) (value : Nat) (text : String) : Prop :=
  ∃ digits, text.toList = letter :: digits ∧ digits ≠ [] ∧ (∀ c ∈ digits, '0' ≤ c ∧ c ≤ '9') ∧
    numeralValue digits = value

/-- Behind its letter, a text is read as a number iff its digits write that number
and the number fits into 32 bits. -/
theorem exists_word32?_iff {letter : Char} {text : String} {value : Nat} :
    (∃ n : UInt32, n.toNat = value ∧
      ∃ digits, text.toList = letter :: digits ∧ word32? digits = some n) ↔
        IsNumbered letter value text ∧ value ≤ 4294967295 := by
  constructor
  · rintro ⟨n, rfl, digits, hText, hRead⟩
    obtain ⟨hFilled, hDigits, hValue⟩ := word32?_eq_some_iff.mp hRead
    rw [ofDigitChars_eq_numeralValue] at hValue
    have hLt : n.toNat < 4294967296 := n.toNat_lt
    refine ⟨⟨digits, hText, hFilled, fun c hc => isDigit_iff.mp (hDigits c hc), hValue⟩, ?_⟩
    omega
  · rintro ⟨⟨digits, hText, hFilled, hDigits, rfl⟩, hLe⟩
    have hFits : numeralValue digits < UInt32.size := Nat.lt_succ_of_le hLe
    have hNumber := UInt32.toNat_ofNat_of_lt' hFits
    refine ⟨UInt32.ofNat (numeralValue digits), hNumber, digits, hText, ?_⟩
    refine word32?_eq_some_iff.mpr ⟨hFilled, fun c hc => isDigit_iff.mpr (hDigits c hc), ?_⟩
    rw [ofDigitChars_eq_numeralValue, hNumber]

end Text

-- ---------------------------------------------------------------------------
-- Identifiers of either kind
-- ---------------------------------------------------------------------------

namespace Ident

variable {letter : Char}

theorem ofName?_eq_some_iff {name : String} {id : Ident letter} :
    ofName? letter name = some id ↔
      ∃ digits, name.toList = letter :: digits ∧ Text.word32? digits = some id.number := by
  unfold ofName?
  split
  · rename_i hName
    simp [hName]
  · rename_i first digits hName
    rw [hName]
    split
    · rename_i hLetter
      rw [hLetter, Option.map_eq_some_iff]
      grind
    · grind

theorem toList_name (id : Ident letter) :
    id.name.toList = letter :: Nat.toDigits 10 id.number.toNat := by
  rw [name, String.toList_append, Nat.toString_eq_ofList_toDigits, String.toList_singleton,
    String.toList_ofList]
  rfl

theorem ofName?_name (id : Ident letter) : ofName? letter id.name = some id :=
  ofName?_eq_some_iff.mpr ⟨_, id.toList_name, Text.word32?_toDigits id.number⟩

theorem isWord_of_ofName? {name : String} {id : Ident letter} (h : ofName? letter name = some id)
    (hLetter : letter.isAlpha = true := by decide) : Text.IsWord name.toList := by
  obtain ⟨digits, hName, hDigits⟩ := ofName?_eq_some_iff.mp h
  rw [hName]
  exact Text.isWord_of_word32? hLetter hDigits

theorem isWord_name (id : Ident letter) (hLetter : letter.isAlpha = true := by decide) :
    Text.IsWord id.name.toList :=
  isWord_of_ofName? id.ofName?_name hLetter

theorem toNat_ofName?_eq_some_iff {name : String} {value : Nat} :
    (ofName? letter name).map (·.number.toNat) = some value ↔
      Text.IsNumbered letter value name ∧ value ≤ 4294967295 := by
  rw [← Text.exists_word32?_iff, Option.map_eq_some_iff]
  constructor
  · rintro ⟨id, hRead, hValue⟩
    exact ⟨id.number, hValue, ofName?_eq_some_iff.mp hRead⟩
  · rintro ⟨n, hValue, hName⟩
    exact ⟨⟨n⟩, ofName?_eq_some_iff.mpr hName, hValue⟩

theorem eq_of_name_eq {id other : Ident letter} (h : id.name = other.name) : id = other := by
  have hRead := id.ofName?_name
  rw [h, other.ofName?_name] at hRead
  exact (Option.some.inj hRead).symm

end Ident

-- ---------------------------------------------------------------------------
-- States and transitions
-- ---------------------------------------------------------------------------

/-- **Names.** A text is read as the identifier of a state iff it is an `s` with
one or more ASCII digits behind it, zeros in front allowed and however many,
whose decimal value fits in 32 bits; the identifier has this value for its
number. The same holds for transitions and the letter `t`. The name that is
written for an identifier is read as this identifier, and no other identifier
of either kind is written like it. -/
theorem names_are_numerals :
    (∀ name value, (Ident.ofName? 's' name).map (·.number.toNat) = some value ↔
      Text.IsNumbered 's' value name ∧ value ≤ 4294967295) ∧
    (∀ name value, (Ident.ofName? 't' name).map (·.number.toNat) = some value ↔
      Text.IsNumbered 't' value name ∧ value ≤ 4294967295) ∧
    (∀ id : StateId, Ident.ofName? 's' id.name = some id ∧
      (∀ other : StateId, id.name = other.name → id = other) ∧
      ∀ other : TransitionId, id.name ≠ other.name) ∧
    ∀ id : TransitionId, Ident.ofName? 't' id.name = some id ∧
      (∀ other : TransitionId, id.name = other.name → id = other) ∧
      ∀ other : StateId, id.name ≠ other.name := by
  have hLetters (s : StateId) (t : TransitionId) : s.name ≠ t.name := by
    intro hSame
    have hLists := s.toList_name
    rw [hSame, t.toList_name, List.cons.injEq] at hLists
    exact absurd hLists.1 (by decide)
  refine ⟨fun _ _ => Ident.toNat_ofName?_eq_some_iff, fun _ _ => Ident.toNat_ofName?_eq_some_iff,
    ?_, ?_⟩
  · intro id
    exact ⟨id.ofName?_name, fun _ => Ident.eq_of_name_eq, hLetters id⟩
  · intro id
    exact ⟨id.ofName?_name, fun _ => Ident.eq_of_name_eq,
      fun other => (hLetters other id).symm⟩

example : Ident.ofName? 's' "s0004294967295" = some ⟨4294967295⟩ := by decide +kernel

example : Ident.ofName? 's' "s0004294967296" = none := by decide +kernel

end BranchingTime
