/-
  YamlSplice.Proofs.Yaml.Numeral — how integers are written, and read back.

  An integer is written with a minus if it is negative, and with no zero in front but that of zero itself. Among the many
  spellings of a number this is the one that a scalar has to have in order to be written again as it stands.
  - `isInteger_iff`: the spellings of this form are those that integers are written as.
  - `isKeyWord_ofInt` / `Scalar.reads_ofInt`: each of them may stand as a plain scalar, and is read as the integer.
-/

import Mathlib.Data.List.TakeWhile
import YamlSplice.Proofs.Value.Steady
import YamlSplice.Proofs.Yaml.Spelling

namespace YamlSplice

theorem Text.ofInt_ne_nil (n : Int) : ofInt n ≠ [] := by
  unfold ofInt
  split
  · simp
  · rw [ofNat_eq]
    exact Nat.toDigits_ne_nil

namespace Yaml.Form

/-- A numeral without a sign, and with no zero in front but that of zero. -/
def isNatural : Text → Bool
  | [] => false
  | ['0'] => true
  | c :: rest => isPositive c && rest.all isDigit

/-- A numeral of this form, perhaps behind a minus; zero has none. -/
def isInteger : Text → Bool
  | '-' :: rest => isNatural rest && rest != ['0']
  | text => isNatural text

theorem isDigit_iff {c : Char} : isDigit c = true ↔ 48 ≤ c.toNat ∧ c.toNat ≤ 57 := by
  simp only [isDigit, Bool.and_eq_true, decide_eq_true_eq, Char.le_def, UInt32.le_iff_toNat_le]
  exact Iff.rfl

theorem isPositive_iff {c : Char} : isPositive c = true ↔ 49 ≤ c.toNat ∧ c.toNat ≤ 57 := by
  simp only [isPositive, Bool.and_eq_true, decide_eq_true_eq, Char.le_def, UInt32.le_iff_toNat_le]
  exact Iff.rfl

theorem isDigit_ne {c x : Char} (h : isDigit c = true) (hx : isDigit x = false) : c ≠ x := by
  rintro rfl
  rw [h] at hx
  cases hx

theorem isDigit_of_isPositive {c : Char} (h : isPositive c = true) : isDigit c = true := by
  rw [isPositive_iff] at h
  exact isDigit_iff.mpr ⟨by omega, h.2⟩

theorem isNatural_cons_iff {c : Char} {rest : Text} :
    isNatural (c :: rest) = true ↔ c = '0' ∧ rest = [] ∨ isPositive c = true ∧ ∀ d ∈ rest, isDigit d = true := by
  unfold isNatural
  split
  · next h => cases h
  · next h =>
    cases h
    simp
  · next hne h =>
    cases h
    have hzero : ¬ (c = '0' ∧ rest = []) := fun ⟨hc, hrest⟩ => hne hc hrest
    simp [hzero]

/-- A numeral of this form is made of digits. -/
theorem isDigit_of_isNatural {text : Text} (h : isNatural text = true) : text ≠ [] ∧ ∀ c ∈ text, isDigit c = true := by
  cases text with
  | nil => cases h
  | cons c rest =>
    refine ⟨by simp, List.forall_mem_cons.mpr ?_⟩
    rcases isNatural_cons_iff.mp h with ⟨rfl, rfl⟩ | ⟨hc, hrest⟩
    · exact ⟨by decide, by simp⟩
    · exact ⟨isDigit_of_isPositive hc, hrest⟩

/-! ## How integers are written -/

theorem isPositive_digitChar {d : Nat} (hpos : 0 < d) (hd : d < 10) : isPositive d.digitChar = true := by
  rw [isPositive_iff, Nat.toNat_digitChar_of_lt_ten hd]
  omega

/-- The digits of a number other than zero do not start with one. -/
theorem toDigits_cons {n : Nat} (h : 0 < n) : ∃ c rest, Nat.toDigits 10 n = c :: rest ∧ isPositive c = true := by
  induction n using Nat.strongRecOn with
  | ind n ih =>
    rw [Nat.toDigits_eq_if (by decide)]
    split
    · next hlt => exact ⟨_, [], rfl, isPositive_digitChar h hlt⟩
    · obtain ⟨c, rest, hdigits, hc⟩ := ih (n / 10) (by omega) (by omega)
      exact ⟨c, rest ++ [(n % 10).digitChar], by rw [hdigits]; rfl, hc⟩

theorem isDigit_of_mem_ofNat {n : Nat} {c : Char} (h : c ∈ Text.ofNat n) : isDigit c = true := by
  rw [Text.ofNat_eq] at h
  have hdigit := Nat.isDigit_of_mem_toDigits (by decide) (by decide) h
  simpa [Char.isDigit, isDigit, Char.le_def] using hdigit

theorem mem_ofInt {n : Int} {c : Char} (h : c ∈ Text.ofInt n) : isDigit c = true ∨ c = '-' := by
  unfold Text.ofInt at h
  split at h
  · rcases List.mem_cons.mp h with rfl | h
    · exact Or.inr rfl
    · exact Or.inl (isDigit_of_mem_ofNat h)
  · exact Or.inl (isDigit_of_mem_ofNat h)

theorem isNatural_ofNat (n : Nat) : isNatural (Text.ofNat n) = true := by
  by_cases hzero : n = 0
  · rw [hzero]
    rfl
  · obtain ⟨c, rest, hdigits, hc⟩ := toDigits_cons (Nat.pos_of_ne_zero hzero)
    have hmem : ∀ d ∈ rest, isDigit d = true := fun d hd =>
      isDigit_of_mem_ofNat (n := n) (by rw [Text.ofNat_eq, hdigits]; exact List.mem_cons_of_mem _ hd)
    rw [Text.ofNat_eq, hdigits]
    exact isNatural_cons_iff.mpr (Or.inr ⟨hc, hmem⟩)

theorem digitChar_of_isDigit {c : Char} (h : isDigit c = true) : (c.toNat - 48).digitChar = c := by
  rw [isDigit_iff] at h
  apply Char.toNat_inj.mp
  rw [Nat.toNat_digitChar_of_lt_ten (by omega)]
  omega

/-- Digits behind those of a number are the digits of the number that is read on from it. -/
theorem toDigits_append {digits : Text} {n : Nat} (hn : 0 < n) (h : ∀ c ∈ digits, isDigit c = true) :
    Nat.toDigits 10 n ++ digits = Nat.toDigits 10 (Nat.ofDigitChars 10 digits n) := by
  induction digits generalizing n with
  | nil => simp
  | cons c digits ih =>
    obtain ⟨hc, hdigits⟩ := List.forall_mem_cons.mp h
    have hvalue : c.toNat - 48 < 10 := by
      rw [isDigit_iff] at hc
      omega
    calc Nat.toDigits 10 n ++ c :: digits
        = Nat.toDigits 10 n ++ Nat.toDigits 10 (c.toNat - 48) ++ digits := by
          rw [Nat.toDigits_of_lt_base hvalue, digitChar_of_isDigit hc]
          simp
      _ = Nat.toDigits 10 (10 * n + (c.toNat - 48)) ++ digits := by
          rw [Nat.toDigits_append_toDigits (by decide) hn hvalue]
      _ = Nat.toDigits 10 (Nat.ofDigitChars 10 (c :: digits) n) := by
          rw [ih (by omega) hdigits, Nat.ofDigitChars_cons]
          rfl

theorem exists_ofNat {text : Text} (h : isNatural text = true) : ∃ n, text = Text.ofNat n := by
  cases text with
  | nil => cases h
  | cons c rest =>
    rcases isNatural_cons_iff.mp h with ⟨rfl, rfl⟩ | ⟨hc, hrest⟩
    · exact ⟨0, rfl⟩
    · have hpos : 0 < c.toNat - 48 ∧ c.toNat - 48 < 10 := by
        rw [isPositive_iff] at hc
        omega
      have hdigits := toDigits_append hpos.1 hrest
      rw [Nat.toDigits_of_lt_base hpos.2, digitChar_of_isDigit (isDigit_of_isPositive hc)] at hdigits
      exact ⟨_, by rw [Text.ofNat_eq, ← hdigits]; rfl⟩

/-- The numerals of this form are those that integers are written as. -/
theorem isInteger_iff {text : Text} : isInteger text = true ↔ ∃ n : Int, text = Text.ofInt n := by
  constructor
  · intro h
    unfold isInteger at h
    split at h
    · next digits =>
      simp only [Bool.and_eq_true, bne_iff_ne] at h
      obtain ⟨n, rfl⟩ := exists_ofNat h.1
      have hn : n ≠ 0 := fun hzero => h.2 (by rw [hzero]; rfl)
      refine ⟨-(n : Int), ?_⟩
      rw [Text.ofInt, if_pos (by omega), Int.natAbs_neg, Int.natAbs_natCast]
    · obtain ⟨n, rfl⟩ := exists_ofNat h
      exact ⟨n, by rw [Text.ofInt, if_neg (by omega), Int.natAbs_natCast]⟩
  · rintro ⟨n, rfl⟩
    unfold Text.ofInt
    split
    · next hneg =>
      have hzero : Text.ofNat n.natAbs ≠ ['0'] := fun hsame => by
        have hnone : n.natAbs = 0 := Text.ofNat_inj (n := 0) hsame
        omega
      simp [isInteger, isNatural_ofNat, hzero]
    · have hsign : ∀ rest, Text.ofNat n.natAbs ≠ '-' :: rest := fun rest hsame =>
        Text.sign_not_mem_ofNat n.natAbs (hsame ▸ List.mem_cons_self)
      unfold isInteger
      split
      · next hsame => exact absurd hsame (hsign _)
      · exact isNatural_ofNat _

end Yaml.Form

/-! ## How integers are read -/

namespace Decimal

open Yaml.Form

variable {text : Text}

theorem digitValue?_of_isDigit {c : Char} (h : isDigit c = true) : digitValue? c = some (c.toNat - 48) := by
  have hrange : ('0' ≤ c && c ≤ '9') = true := h
  rw [digitValue?, if_pos hrange]

theorem naturalFrom?_digits {acc : Nat} (h : ∀ c ∈ text, isDigit c = true) :
    naturalFrom? 10 acc text = some (Nat.ofDigitChars 10 text acc) := by
  induction text generalizing acc with
  | nil => rfl
  | cons c rest ih =>
    obtain ⟨hc, hrest⟩ := List.forall_mem_cons.mp h
    have hvalue : c.toNat - 48 < 10 := by
      rw [isDigit_iff] at hc
      omega
    rw [Nat.ofDigitChars_cons, Nat.mul_comm]
    cases rest with
    | nil => simp [naturalFrom?, digitValue?_of_isDigit hc, hvalue]
    | cons d rest =>
      rw [naturalFrom?, if_neg (isDigit_ne hc (by decide)), digitValue?_of_isDigit hc]
      simp only [hvalue, if_true]
      exact ih hrest

theorem natural?_ofNat (n : Nat) : natural? 10 (Text.ofNat n) = some n := by
  obtain ⟨hne, hdigits⟩ := isDigit_of_isNatural (isNatural_ofNat n)
  obtain ⟨c, rest, htext⟩ := List.exists_cons_of_ne_nil hne
  rw [htext] at hdigits ⊢
  obtain ⟨hc, hrest⟩ := List.forall_mem_cons.mp hdigits
  have hvalue : c.toNat - 48 < 10 := by
    have := isDigit_iff.mp hc
    omega
  rw [natural?, digitValue?_of_isDigit hc]
  simp only [hvalue, if_true]
  rw [naturalFrom?_digits hrest, ← Nat.ofDigitChars_ten_toDigits (n := n), ← Text.ofNat_eq, htext, Nat.ofDigitChars_cons]
  simp

theorem splitSign_digits (h : ∀ c ∈ text, isDigit c = true) : splitSign text = (false, text) := by
  unfold splitSign
  split
  · exact absurd (h '-' List.mem_cons_self) (by decide)
  · exact absurd (h '+' List.mem_cons_self) (by decide)
  · rfl

theorem plainNumeral_ascii (h : ∀ c ∈ text, 32 < c.toNat ∧ c.toNat < 0x80) : plainNumeral text = text := by
  have hspacing : ∀ c ∈ text, Text.isSpacing c = false := fun c hc => by
    have := h c hc
    simp only [Text.isSpacing, Bool.or_eq_false_iff, Bool.and_eq_false_iff, decide_eq_false_iff_not,
      beq_eq_false_iff_ne]
    omega
  have hdrop : ∀ t : Text, (∀ c ∈ t, Text.isSpacing c = false) → t.dropWhile Text.isSpacing = t := by
    intro t ht
    cases t with
    | nil => rfl
    | cons c rest => rw [List.dropWhile_cons_of_neg (by simp [ht c List.mem_cons_self])]
  unfold plainNumeral
  rw [hdrop text hspacing, hdrop text.reverse (by simpa using hspacing), List.reverse_reverse]
  conv_rhs => rw [← List.map_id text]
  exact List.map_congr_left fun c hc => by simp [(h c hc).2]

theorem plainNumeral_digits (h : ∀ c ∈ text, isDigit c = true) : plainNumeral text = text :=
  plainNumeral_ascii fun c hc => by
    have := isDigit_iff.mp (h c hc)
    omega

theorem dropBaseMark_ten (text : Text) : dropBaseMark 10 text = text := by
  unfold dropBaseMark
  split <;> simp [baseMark?]

theorem integer?_ofNat (n : Nat) : integer? 10 (Text.ofNat n) = some (n : Int) := by
  have hdigits := (isDigit_of_isNatural (isNatural_ofNat n)).2
  simp only [integer?, plainNumeral_digits hdigits, splitSign_digits hdigits, dropBaseMark_ten, natural?_ofNat]
  rfl

end Decimal

namespace Yaml

open Form

namespace Scalar

theorem magnitude_cons {c : Char} {rest : Text} (hc : c ≠ '0') (hplaces : ':' ∉ c :: rest) :
    magnitude (c :: rest) = orFault .noValue (Decimal.integer? 10 (c :: rest)) := by
  unfold magnitude
  split
  case h_6 => rw [if_neg (by simpa using hplaces)]
  all_goals simp_all

theorem magnitude_ofNat (n : Nat) : magnitude (Text.ofNat n) = .ok (n : Int) := by
  by_cases hzero : n = 0
  · rw [hzero]
    rfl
  · obtain ⟨c, rest, htext, hc⟩ := toDigits_cons (Nat.pos_of_ne_zero hzero)
    rw [← Text.ofNat_eq] at htext
    have hne : c ≠ '0' := by
      rintro rfl
      cases hc
    have hplaces : ':' ∉ Text.ofNat n := fun hmem => isDigit_ne (isDigit_of_mem_ofNat hmem) (by decide) rfl
    rw [htext] at hplaces
    rw [htext, magnitude_cons hne hplaces, ← htext, Decimal.integer?_ofNat]
    rfl

theorem dropBars_eq {text : Text} (h : '_' ∉ text) : dropBars text = text :=
  List.filter_eq_self.mpr fun c hc => by simpa using fun hsame : c = '_' => h (hsame ▸ hc)

theorem int_ofInt (n : Int) : int (Text.ofInt n) = .ok (.int n) := by
  have hdigits : ∀ c ∈ Text.ofNat n.natAbs, isDigit c = true := fun c => isDigit_of_mem_ofNat
  have hbars : '_' ∉ Text.ofNat n.natAbs := fun hmem => isDigit_ne (hdigits _ hmem) (by decide) rfl
  unfold Text.ofInt
  split
  · have hsign : '_' ∉ '-' :: Text.ofNat n.natAbs := by simpa using hbars
    simp only [int, dropBars_eq hsign, Decimal.splitSign, magnitude_ofNat, bind, Except.bind, pure, Except.pure, if_true]
    congr 2
    omega
  · simp only [int, dropBars_eq hbars, Decimal.splitSign_digits hdigits, magnitude_ofNat, bind, Except.bind, pure,
      Except.pure, Bool.false_eq_true, if_false]
    congr 2
    omega

end Scalar

namespace Form

theorem unsigned_digits {text : Text} (h : ∀ c ∈ text, isDigit c = true) : unsigned text = text := by
  unfold unsigned
  split
  · exact absurd (h '-' List.mem_cons_self) (by decide)
  · exact absurd (h '+' List.mem_cons_self) (by decide)
  · rfl

theorem unsigned_ofInt (n : Int) : unsigned (Text.ofInt n) = Text.ofNat n.natAbs := by
  unfold Text.ofInt
  split
  · rfl
  · exact unsigned_digits fun c => isDigit_of_mem_ofNat

theorem isInt_ofInt (n : Int) : isInt (Text.ofInt n) = true := by
  unfold isInt
  rw [unsigned_ofInt]
  rcases Nat.eq_zero_or_pos n.natAbs with hzero | hpos
  · rw [hzero]
    rfl
  · obtain ⟨c, rest, htext, hc⟩ := toDigits_cons hpos
    rw [← Text.ofNat_eq] at htext
    have hne : c ≠ '0' := by
      rintro rfl
      cases hc
    have hrest : rest.all isDigitOrBar = true := List.all_eq_true.mpr fun d hd => by
      have hdigit : isDigit d = true := isDigit_of_mem_ofNat (htext ▸ List.mem_cons_of_mem _ hd)
      simp [isDigitOrBar, hdigit]
    have hwhole : isWhole isPositive (c :: rest) = true := by simp [isWhole, hc, hrest]
    simp only [htext]
    split
    case h_4 => simp [hwhole]
    all_goals simp_all

theorem mem_of_mem_unsigned {c : Char} {text : Text} (h : c ∈ unsigned text) : c ∈ text := by
  unfold unsigned at h
  split at h
  · exact List.mem_cons_of_mem _ h
  · exact List.mem_cons_of_mem _ h
  · exact h

theorem isFloat_of_pointless {text : Text} (h : '.' ∉ unsigned text) : isFloat text = false := by
  have hwhole : (unsigned text).takeWhile (· != '.') = unsigned text :=
    List.takeWhile_eq_self_iff.mpr fun c hc => by simpa using fun hsame : c = '.' => h (hsame ▸ hc)
  simp [isFloat, hwhole]

end Form

theorem isKeyChar_of_mem_ofInt {n : Int} {c : Char} (h : c ∈ Text.ofInt n) : isKeyChar c = true := by
  rcases Form.mem_ofInt h with hdigit | rfl
  · have hrange : ('0' ≤ c && c ≤ '9') = true := hdigit
    simp only [isKeyChar, isWordChar, hrange, Bool.true_or]
  · decide

theorem isKeyWord_ofInt (n : Int) : IsKeyWord (Text.ofInt n) := ⟨Text.ofInt_ne_nil n, fun _ => isKeyChar_of_mem_ofInt⟩

/-- The text starts with a digit, perhaps behind a minus. -/
def startsNumber : Text → Bool
  | '-' :: c :: _ => isDigit c
  | c :: _ => isDigit c
  | [] => false

theorem startsNumber_digit {c : Char} (hc : isDigit c = true) (rest : Text) : startsNumber (c :: rest) = true := by
  unfold startsNumber
  split
  · next h => cases h; cases hc
  · next h => cases h; exact hc
  · next h => cases h

theorem startsNumber_ofInt (n : Int) : startsNumber (Text.ofInt n) = true := by
  obtain ⟨hne, hdigits⟩ := isDigit_of_isNatural (isNatural_ofNat n.natAbs)
  obtain ⟨c, rest, htext⟩ := List.exists_cons_of_ne_nil hne
  have hc : isDigit c = true := hdigits c (htext ▸ List.mem_cons_self)
  unfold Text.ofInt
  rw [htext]
  split
  · exact hc
  · exact startsNumber_digit hc rest

/-- A text of one line that starts as a number is no word for a truth value: its form gives the type. -/
theorem ofPlain_of_startsNumber {words : List Text} (hwords : (words.all fun w => !startsNumber w) = true) {text : Text}
    (hstarts : startsNumber text = true) (hline : '\n' ∉ text) :
    (isFloat text = true → Tag.ofPlain words text = .float) ∧
      (isFloat text = false → isInt text = true → Tag.ofPlain words text = .int) := by
  have hempty : text.isEmpty = false := by
    cases text with
    | nil => cases hstarts
    | cons c rest => rfl
  have hclosed : Text.endsLine text = false := Bool.eq_false_iff.mpr fun hends =>
    hline (List.mem_of_getLast? (by simpa [Text.endsLine] using hends : text.getLast? = some '\n'))
  have hword : text ∉ words := fun hw => by
    have hother := List.all_eq_true.mp hwords _ hw
    rw [hstarts] at hother
    cases hother
  constructor
  · intro hfloat
    simp [Tag.ofPlain, dropFinalNewline, hempty, hclosed, hword, hfloat]
  · intro hfloat hint
    simp [Tag.ofPlain, dropFinalNewline, hempty, hclosed, hword, hfloat, hint]

/-- Every integer is a plain scalar of its type, if no word for a truth value starts as a number does. -/
theorem ofPlain_ofInt {words : List Text} (hwords : (words.all fun w => !startsNumber w) = true) (n : Int) :
    Tag.ofPlain words (Text.ofInt n) = .int := by
  have hline : '\n' ∉ Text.ofInt n := fun hmem => by
    rcases mem_ofInt hmem with hdigit | hsign
    · exact isDigit_ne hdigit (by decide) rfl
    · cases hsign
  have hfloat : isFloat (Text.ofInt n) = false := by
    refine isFloat_of_pointless ?_
    rw [unsigned_ofInt]
    exact fun hpoint => isDigit_ne (isDigit_of_mem_ofNat hpoint) (by decide) rfl
  exact (ofPlain_of_startsNumber hwords (startsNumber_ofInt n) hline).2 hfloat (isInt_ofInt n)

/-- An integer is read as it is written. -/
theorem Scalar.reads_ofInt (n : Int) : Scalar.Reads (Text.ofInt n) (.int n) := by
  rw [Reads, ofPlain_ofInt (by decide)]
  exact int_ofInt n

end Yaml

end YamlSplice
