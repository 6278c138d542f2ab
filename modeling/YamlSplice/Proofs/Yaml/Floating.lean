/-
  YamlSplice.Proofs.Yaml.Floating — how floating-point numbers are written, and read back.

  A number is written with the fewest digits that identify it, and these are read as the number again. A plain scalar is
  a floating-point number only if it has a point, so a number that is written without one, such as 1e+16, is read as text.
  - `isPointed_ofFloat`: what is written with a point is a numeral of one form, `Pointed`, behind its sign.
  - `Pointed.unsignedFloat?_text`: such a numeral is read as the decimal that it stands for, rounded.
  - `Scalar.reads_ofFloat`: a number that is written with a point is a plain scalar that is read as the number.
  - `Outline.floatText_cases`: a scalar is written as a numeral with a point, or as a word with one.
-/

import YamlSplice.Proofs.Decimal.Nearest
import YamlSplice.Proofs.Decimal.Sign
import YamlSplice.Proofs.Yaml.Numeral
import YamlSplice.Yaml.Outline

namespace YamlSplice

namespace Decimal

open Yaml.Form

/-! ## Runs of digits -/

theorem charIsDigit_eq (c : Char) : c.isDigit = isDigit c := by
  simp [Char.isDigit, isDigit, Char.le_def]

theorem isDigitOrBar_of_isDigit {c : Char} (h : isDigit c = true) : isDigitOrBar c = true := by
  simp [isDigitOrBar, h]

theorem ofDigitChars_ofNat (n : Nat) : Nat.ofDigitChars 10 (Text.ofNat n) 0 = n := by
  rw [Text.ofNat_eq, Nat.ofDigitChars_ten_toDigits]

/-- A run of digits ends in front of any other character but an underscore. -/
theorem digitRun_append {digits rest : Text} (hdigits : ∀ c ∈ digits, isDigit c = true)
    (hrest : ∀ c ∈ rest.head?, isDigitOrBar c = false) (acc count : Nat) :
    digitRun acc count (digits ++ rest) = (Nat.ofDigitChars 10 digits acc, count + digits.length, rest) := by
  induction digits generalizing acc count with
  | nil =>
    cases rest with
    | nil => rfl
    | cons c rest =>
      have hc := hrest c rfl
      simp only [isDigitOrBar, Bool.or_eq_false_iff, beq_eq_false_iff_ne] at hc
      simp only [List.nil_append, Nat.ofDigitChars_nil, List.length_nil, Nat.add_zero]
      unfold digitRun
      rw [if_neg (by simp [charIsDigit_eq, hc.1])]
      split
      · exact absurd rfl hc.2
      · rfl
  | cons c digits ih =>
    obtain ⟨hc, hdigits⟩ := List.forall_mem_cons.mp hdigits
    rw [List.cons_append]
    unfold digitRun
    rw [if_pos (by rw [charIsDigit_eq, hc]), ih hdigits, Nat.ofDigitChars_cons, Nat.mul_comm, List.length_cons,
      Nat.add_right_comm, Nat.add_assoc]
    rfl

theorem ofNat_digits (n : Nat) : ∀ c ∈ Text.ofNat n, isDigit c = true := fun _ => isDigit_of_mem_ofNat

theorem zeros_digits (n : Nat) : ∀ c ∈ List.replicate n '0', isDigit c = true := fun c hc => by
  rw [List.eq_of_mem_replicate hc]
  rfl

theorem padded_digits (width n : Nat) : ∀ c ∈ Text.padded width n, isDigit c = true :=
  List.forall_mem_append.mpr ⟨zeros_digits _, ofNat_digits n⟩

theorem exponent?_exponentText (e : Int) : exponent? (exponentText e) = some e := by
  have hvalue : Nat.ofDigitChars 10 (Text.padded 2 e.natAbs) 0 = e.natAbs := by
    simp [Text.padded, Nat.ofDigitChars_append, ofDigitChars_ofNat]
  have hcount : (Text.padded 2 e.natAbs).length ≠ 0 := by
    have := List.length_pos_of_ne_nil (isDigit_of_isNatural (isNatural_ofNat e.natAbs)).1
    simp only [Text.padded, List.length_append]
    omega
  have hrun : digitRun 0 0 (Text.padded 2 e.natAbs) = (e.natAbs, (Text.padded 2 e.natAbs).length, []) := by
    have hend : ∀ c ∈ ([] : Text).head?, isDigitOrBar c = false := by simp
    have happend := digitRun_append (padded_digits 2 e.natAbs) hend 0 0
    rwa [List.append_nil, hvalue, Nat.zero_add] at happend
  unfold exponentText
  rcases lt_or_ge e 0 with hneg | hpos
  · rw [if_pos hneg]
    simp [exponent?, splitSign, hrun, hcount, abs_of_neg hneg]
  · rw [if_neg (by omega)]
    simp [exponent?, splitSign, hrun, hcount, abs_of_nonneg hpos]

/-- A character of a floating-point number behind its first digit. -/
def isFloatingChar (c : Char) : Bool := isDigit c || c == '.' || c == 'e' || c == '+' || c == '-'

theorem isFloatingChar_of_isDigit {c : Char} (h : isDigit c = true) : isFloatingChar c = true := by
  simp [isFloatingChar, h]

theorem exponentText_floating (e : Int) : ∀ c ∈ exponentText e, isFloatingChar c = true := by
  unfold exponentText
  refine List.forall_mem_cons.mpr ⟨by decide, List.forall_mem_cons.mpr ⟨by split <;> decide, ?_⟩⟩
  exact fun c hc => isFloatingChar_of_isDigit (padded_digits 2 _ c hc)

/-! ## Numerals with a point -/

/-- Digits around a point, and perhaps an exponent. -/
structure Pointed where
  whole : Text
  fraction : Text
  exponent : Option Int
  starts : whole ≠ []
  digits : ∀ c ∈ whole ++ fraction, isDigit c = true

namespace Pointed

variable (p : Pointed)

def tail : Text := p.exponent.elim [] exponentText

def text : Text := p.whole ++ '.' :: (p.fraction ++ p.tail)

/-- The decimal that the numeral stands for. -/
def value : Scaled := ⟨Nat.ofDigitChars 10 (p.whole ++ p.fraction) 0, p.exponent.getD 0 - p.fraction.length⟩

theorem tail_head : ∀ c ∈ p.tail.head?, c = 'e' := by
  unfold tail
  cases p.exponent with
  | none => simp
  | some e => simp [exponentText]

/-- Such a numeral is read as its decimal, rounded. -/
theorem unsignedFloat?_text : unsignedFloat? p.text = some (scaledFloat p.value.digits p.value.exp) := by
  obtain ⟨hwhole, hfraction⟩ := List.forall_mem_append.mp p.digits
  have htail : ∀ c ∈ p.tail.head?, isDigitOrBar c = false := fun c hc => by rw [p.tail_head c hc]; rfl
  have hexponent : exponent? p.tail = some (p.exponent.getD 0) := by
    unfold tail
    cases p.exponent with
    | none => rfl
    | some e => exact exponent?_exponentText e
  have hpoint : ∀ c ∈ ('.' :: (p.fraction ++ p.tail)).head?, isDigitOrBar c = false := by simp; rfl
  have hcount : p.whole.length + p.fraction.length ≠ 0 := by
    have := List.length_pos_of_ne_nil p.starts
    omega
  have hvalue : Nat.ofDigitChars 10 p.whole 0 * Nat.pow 10 p.fraction.length + Nat.ofDigitChars 10 p.fraction 0 =
      Nat.ofDigitChars 10 (p.whole ++ p.fraction) 0 := by
    rw [Nat.ofDigitChars_append, @Nat.ofDigitChars_eq_ofDigitChars_zero p.fraction (Nat.ofDigitChars 10 p.whole 0), Nat.mul_comm]
    rfl
  simp only [unsignedFloat?, text, digitRun_append hwhole hpoint,
    digitRun_append hfraction htail, Nat.zero_add, if_neg hcount, hexponent, Option.map_some, hvalue, value]

theorem isFloatingChar_tail : ∀ c ∈ p.tail, isFloatingChar c = true := by
  unfold tail
  cases p.exponent with
  | none => simp
  | some e => exact exponentText_floating e

theorem isExponent_tail : isExponent p.tail = true := by
  unfold tail
  cases p.exponent with
  | none => rfl
  | some e =>
    have hdigits : (Text.padded 2 e.natAbs).all isDigit = true := List.all_eq_true.mpr (padded_digits 2 e.natAbs)
    have hempty : (Text.padded 2 e.natAbs).isEmpty = false := by
      simpa [Text.padded] using fun _ => (isDigit_of_isNatural (isNatural_ofNat e.natAbs)).1
    simp only [Option.elim, exponentText]
    split <;> simp [isExponent, allOf, hdigits, hempty]

/-- A numeral starts with a digit, and goes on as floating-point numbers do. -/
theorem text_cons : ∃ c rest, p.text = c :: rest ∧ isDigit c = true ∧ ∀ x ∈ rest, isFloatingChar x = true := by
  obtain ⟨c, whole, hwhole⟩ := List.exists_cons_of_ne_nil p.starts
  have hdigits := p.digits
  rw [hwhole, List.cons_append] at hdigits
  obtain ⟨hc, hdigits⟩ := List.forall_mem_cons.mp hdigits
  obtain ⟨hrest, hfraction⟩ := List.forall_mem_append.mp hdigits
  refine ⟨c, whole ++ '.' :: (p.fraction ++ p.tail), by rw [text, hwhole]; rfl, hc, ?_⟩
  refine List.forall_mem_append.mpr ⟨fun x hx => isFloatingChar_of_isDigit (hrest x hx), List.forall_mem_cons.mpr ⟨rfl, ?_⟩⟩
  exact List.forall_mem_append.mpr ⟨fun x hx => isFloatingChar_of_isDigit (hfraction x hx), p.isFloatingChar_tail⟩

/-- Such a numeral, perhaps with a sign, has the form of a floating-point number. -/
theorem isFloat_of_unsigned {text : Text} (h : unsigned text = p.text) : isFloat text = true := by
  obtain ⟨hwhole, hfraction⟩ := List.forall_mem_append.mp p.digits
  have hpoint : ∀ c ∈ p.whole, (c != '.') = true := fun c hc => by simpa using isDigit_ne (hwhole c hc) (by decide)
  have hspan : p.text.takeWhile (· != '.') = p.whole := by
    rw [Pointed.text, List.takeWhile_append_of_pos hpoint]
    simp
  have hrest : p.text.drop p.whole.length = '.' :: (p.fraction ++ p.tail) := by simp [Pointed.text]
  have hstarts : p.whole.isEmpty = false := by simpa using p.starts
  have hform : isWhole isDigit p.whole = true := by
    obtain ⟨c, whole, htext⟩ := List.exists_cons_of_ne_nil p.starts
    rw [htext] at hwhole ⊢
    obtain ⟨hc, hwhole⟩ := List.forall_mem_cons.mp hwhole
    simpa [isWhole, hc] using fun d hd => isDigitOrBar_of_isDigit (hwhole d hd)
  have hend : (p.fraction ++ p.tail).dropWhile isDigitOrBar = p.tail := by
    rw [List.dropWhile_append_of_pos fun c hc => isDigitOrBar_of_isDigit (hfraction c hc)]
    cases htail : p.tail with
    | nil => rfl
    | cons c rest =>
      have hc := p.tail_head c (by simp [htail])
      rw [List.dropWhile_cons_of_neg (by rw [hc]; decide)]
  simp only [isFloat, h, hspan, hrest, hstarts, hform, isFraction, hend, p.isExponent_tail]
  rfl

end Pointed

/-! ## How floating-point numbers are written -/

theorem point_not_mem_exponentText (e : Int) : '.' ∉ exponentText e := by
  have hdigits : '.' ∉ Text.padded 2 e.natAbs := fun hmem => isDigit_ne (padded_digits 2 _ _ hmem) (by decide) rfl
  unfold exponentText
  split <;> simpa using hdigits

/-- The text is a numeral with a point that is rounded as the decimal is. -/
def Scaled.Spelled (d : Scaled) (text : Text) : Prop :=
  ∃ p : Pointed, p.text = text ∧ scaledBits p.value.digits p.value.exp = scaledBits d.digits d.exp

section Spelled

variable {d : Scaled}

theorem Spelled.zero (h : d.digits = 0) : d.Spelled ['0', '.', '0'] := by
  refine ⟨⟨['0'], ['0'], none, by simp, zeros_digits 2⟩, rfl, ?_⟩
  simp [Pointed.value, scaledBits, h, Nat.ofDigitChars]

/-- All the digits stand behind the point. -/
theorem Spelled.below {n : Nat} (h : d.exp = -(n + (Text.ofNat d.digits).length : Int)) :
    d.Spelled ('0' :: '.' :: List.replicate n '0' ++ Text.ofNat d.digits) := by
  have hall : ∀ c ∈ ['0'] ++ (List.replicate n '0' ++ Text.ofNat d.digits), isDigit c = true :=
    List.forall_mem_append.mpr ⟨zeros_digits 1, List.forall_mem_append.mpr ⟨zeros_digits n, ofNat_digits _⟩⟩
  have hnumber : Nat.ofDigitChars 10 (['0'] ++ (List.replicate n '0' ++ Text.ofNat d.digits)) 0 = d.digits := by
    rw [Nat.ofDigitChars_append, Nat.ofDigitChars_append, Nat.ofDigitChars_replicate_zero]
    exact ofDigitChars_ofNat d.digits
  have hexp : (0 : Int) - (List.replicate n '0' ++ Text.ofNat d.digits).length = d.exp := by
    rw [List.length_append, List.length_replicate]
    omega
  refine ⟨⟨['0'], List.replicate n '0' ++ Text.ofNat d.digits, none, by simp, hall⟩,
    by simp [Pointed.text, Pointed.tail], ?_⟩
  simp only [Pointed.value, Option.getD_none, hexp, hnumber]

/-- All the digits stand in front of the point. -/
theorem Spelled.above {n : Nat} (h : d.exp = n) :
    d.Spelled (Text.ofNat d.digits ++ List.replicate n '0' ++ ['.', '0']) := by
  have hne := (isDigit_of_isNatural (isNatural_ofNat d.digits)).1
  have hall : ∀ c ∈ (Text.ofNat d.digits ++ List.replicate n '0') ++ ['0'], isDigit c = true :=
    List.forall_mem_append.mpr ⟨List.forall_mem_append.mpr ⟨ofNat_digits _, zeros_digits n⟩, zeros_digits 1⟩
  have hnumber : Nat.ofDigitChars 10 ((Text.ofNat d.digits ++ List.replicate n '0') ++ ['0']) 0 = d.digits * 10 ^ (n + 1) := by
    have hzeros : List.replicate n '0' ++ ['0'] = List.replicate (n + 1) '0' := List.replicate_succ'.symm
    rw [List.append_assoc, hzeros, Nat.ofDigitChars_append, ofDigitChars_ofNat, Nat.ofDigitChars_replicate_zero, Nat.mul_comm]
  refine ⟨⟨Text.ofNat d.digits ++ List.replicate n '0', ['0'], none, by simp [hne], hall⟩,
    by simp [Pointed.text, Pointed.tail], ?_⟩
  simp only [Pointed.value, Option.getD_none, hnumber, scaledBits_shift, h]
  congr 1
  simp

/-- The point stands between the digits. -/
theorem Spelled.inside {k : Nat} (hk : 0 < k) (h : d.exp = k - (Text.ofNat d.digits).length)
    (hle : k ≤ (Text.ofNat d.digits).length) :
    d.Spelled ((Text.ofNat d.digits).take k ++ '.' :: (Text.ofNat d.digits).drop k) := by
  have hne : (Text.ofNat d.digits).take k ≠ [] := List.ne_nil_of_length_pos (by rw [List.length_take]; omega)
  have hall : ∀ c ∈ (Text.ofNat d.digits).take k ++ (Text.ofNat d.digits).drop k, isDigit c = true := by
    rw [List.take_append_drop]
    exact ofNat_digits _
  have hexp : (0 : Int) - ((Text.ofNat d.digits).drop k).length = d.exp := by
    rw [List.length_drop]
    omega
  refine ⟨⟨(Text.ofNat d.digits).take k, (Text.ofNat d.digits).drop k, none, hne, hall⟩,
    by simp [Pointed.text, Pointed.tail], ?_⟩
  simp only [Pointed.value, Option.getD_none, List.take_append_drop, ofDigitChars_ofNat, hexp]

/-- The point stands behind the first digit, and an exponent at the end. -/
theorem Spelled.scientific {first : Char} {more : Text} {e : Int} (htext : Text.ofNat d.digits = first :: more)
    (h : d.exp = e - more.length) : d.Spelled (first :: '.' :: more ++ exponentText e) := by
  have hall : ∀ c ∈ [first] ++ more, isDigit c = true := by
    have hdigits := ofNat_digits d.digits
    rwa [htext] at hdigits
  have hnumber : Nat.ofDigitChars 10 ([first] ++ more) 0 = d.digits := by
    rw [← ofDigitChars_ofNat d.digits, htext]
    rfl
  refine ⟨⟨[first], more, some e, by simp, hall⟩, by simp [Pointed.text, Pointed.tail], ?_⟩
  simp only [Pointed.value, Option.getD_some, hnumber, h]

/-- The point and a zero stand between the only digit and an exponent. -/
theorem Spelled.lone {first : Char} {e : Int} (htext : Text.ofNat d.digits = [first]) (h : d.exp = e) :
    d.Spelled (first :: '.' :: '0' :: exponentText e) := by
  have hall : ∀ c ∈ [first] ++ ['0'], isDigit c = true :=
    List.forall_mem_append.mpr ⟨htext ▸ ofNat_digits d.digits, zeros_digits 1⟩
  have hnumber : Nat.ofDigitChars 10 ([first] ++ ['0']) 0 = d.digits * 10 ^ 1 := by
    rw [← htext, Nat.ofDigitChars_append, ofDigitChars_ofNat]
    exact (Nat.ofDigitChars_replicate_zero (n := 1)).trans (Nat.mul_comm _ _)
  refine ⟨⟨[first], ['0'], some e, by simp, hall⟩, rfl, ?_⟩
  simp only [Pointed.value, Option.getD_some, hnumber, scaledBits_shift, h]
  congr 1
  simp

/-- A decimal is laid out with a point, or as a digit and an exponent. -/
theorem Scaled.layout_cases (d : Scaled) : d.Spelled d.layout ∨
    ∃ first e, d.layout = first :: exponentText e ∧ isDigit first = true ∧
      d.Spelled (first :: '.' :: '0' :: exponentText e) := by
  have hcount := List.length_pos_of_ne_nil (isDigit_of_isNatural (isNatural_ofNat d.digits)).1
  unfold layout
  simp only
  split
  · next hzero => exact Or.inl (Spelled.zero hzero)
  split
  · split
    · exact Or.inl (Spelled.below (by omega))
    split
    · exact Or.inl (Spelled.above (by omega))
    · exact Or.inl (Spelled.inside (by omega) (by omega) (by omega))
  · cases htext : Text.ofNat d.digits with
    | nil =>
      rw [htext] at hcount
      cases hcount
    | cons first more =>
      have hfirst : isDigit first = true := ofNat_digits d.digits first (htext ▸ List.mem_cons_self)
      cases more with
      | nil => exact Or.inr ⟨first, _, rfl, hfirst, Spelled.lone htext (by simp only [List.length_singleton]; omega)⟩
      | cons second more => exact Or.inl (Spelled.scientific htext (by simp only [List.length_cons]; omega))

end Spelled

/-! ## How they are read -/

theorem isFloatingChar_iff {c : Char} :
    isFloatingChar c = true ↔ (48 ≤ c.toNat ∧ c.toNat ≤ 57) ∨ c = '.' ∨ c = 'e' ∨ c = '+' ∨ c = '-' := by
  simp only [isFloatingChar, Bool.or_eq_true, beq_iff_eq, isDigit_iff]
  tauto

theorem isFloatingChar_ne {c x : Char} (h : isFloatingChar c = true) (hx : isFloatingChar x = false) : c ≠ x := by
  rintro rfl
  rw [h] at hx
  cases hx

theorem toLower_eq {c : Char} (h : isFloatingChar c = true) : c.toLower = c := by
  unfold Char.toLower
  rw [dif_neg]
  rintro ⟨hlow, hhigh⟩
  have hrange : 65 ≤ c.toNat ∧ c.toNat ≤ 90 := ⟨UInt32.le_iff_toNat_le.mp hlow, UInt32.le_iff_toNat_le.mp hhigh⟩
  rcases isFloatingChar_iff.mp h with hdigit | rfl | rfl | rfl | rfl
  · omega
  all_goals exact absurd hrange (by decide)

theorem lowerAscii_eq {text : Text} (h : ∀ c ∈ text, isFloatingChar c = true) : Text.lowerAscii text = text := by
  conv_rhs => rw [← List.map_id text]
  exact List.map_congr_left fun c hc => toLower_eq (h c hc)

theorem plainNumeral_floating {text : Text} (h : ∀ c ∈ text, isFloatingChar c = true) : plainNumeral text = text := by
  refine plainNumeral_ascii fun c hc => ?_
  rcases isFloatingChar_iff.mp (h c hc) with hdigit | rfl | rfl | rfl | rfl
  · omega
  all_goals decide

namespace Pointed

variable (p : Pointed)

theorem isFloatingChar_text : ∀ c ∈ p.text, isFloatingChar c = true := by
  obtain ⟨c, rest, htext, hc, hrest⟩ := p.text_cons
  rw [htext]
  exact List.forall_mem_cons.mpr ⟨isFloatingChar_of_isDigit hc, hrest⟩

theorem text_ne {word : Text} (h : word.head?.any isDigit = false) : p.text ≠ word := by
  obtain ⟨c, rest, htext, hc, -⟩ := p.text_cons
  rintro rfl
  rw [htext] at h
  simp [hc] at h

theorem splitSign_text : splitSign p.text = (false, p.text) := by
  unfold splitSign
  split
  · next h => exact absurd h (p.text_ne rfl)
  · next h => exact absurd h (p.text_ne rfl)
  · rfl

theorem float?_text : float? p.text = some (scaledFloat p.value.digits p.value.exp) := by
  have hall := p.isFloatingChar_text
  have hinf : p.text ≠ "inf".toList := p.text_ne rfl
  have hinfinity : p.text ≠ "infinity".toList := p.text_ne rfl
  have hnan : p.text ≠ "nan".toList := p.text_ne rfl
  simp only [float?, plainNumeral_floating hall, p.splitSign_text, lowerAscii_eq hall, hinf, hinfinity, hnan,
    p.unsignedFloat?_text]
  rfl

end Pointed

/-- The text is a numeral with a point, perhaps behind a minus, that is rounded to the number. -/
def IsPointed (text : Text) (x : Float) : Prop :=
  ∃ p : Pointed, (text = p.text ∧ scaledFloat p.value.digits p.value.exp = x) ∨
    (text = '-' :: p.text ∧ -(scaledFloat p.value.digits p.value.exp) = x)

/-- A number is written by a word, or as a decimal behind its sign; however the decimal is spelled, it is the number. -/
theorem ofFloat_cases (x : Float) :
    (ofFloat x = "nan".toList ∧ x = notANumber) ∨ (ofFloat x = "inf".toList ∧ x = infinity) ∨
    (ofFloat x = "-inf".toList ∧ x = -infinity) ∨
    ∃ (sign : Text) (d : Scaled), (sign = [] ∨ sign = ['-']) ∧ ofFloat x = sign ++ d.layout ∧
      ∀ text, d.Spelled text → IsPointed (sign ++ text) x := by
  have hself : x.toBits = x.toBits &&& 0x7FFFFFFFFFFFFFFF → Float.ofBits (x.toBits &&& 0x7FFFFFFFFFFFFFFF) = x := fun h => by
    rw [← h, Float.ofBits_toBits]
  unfold ofFloat
  simp only
  split
  · next hnan => exact Or.inl ⟨rfl, eq_notANumber (UInt64.lt_iff_toNat_lt.mp hnan)⟩
  have hle : (x.toBits &&& 0x7FFFFFFFFFFFFFFF).toNat ≤ infinityBits := UInt64.le_iff_toNat_le.mp (UInt64.not_lt.mp ‹_›)
  split
  · next hinf =>
    have hbits : Float.ofBits (x.toBits &&& 0x7FFFFFFFFFFFFFFF) = infinity := by rw [beq_iff_eq.mp hinf]; rfl
    rw [← hbits]
    split
    · next hsign => exact Or.inr (Or.inl ⟨rfl, (hself (beq_iff_eq.mp hsign)).symm⟩)
    · next hsign => exact Or.inr (Or.inr (Or.inl ⟨rfl, (neg_magnitude (by simpa using hsign) hle).symm⟩))
  · next hinf =>
    have hfinite : (x.toBits &&& 0x7FFFFFFFFFFFFFFF).toNat < infinityBits :=
      lt_of_le_of_ne hle fun heq => hinf (beq_iff_eq.mpr (UInt64.toNat_inj.mp heq))
    refine Or.inr (Or.inr (Or.inr ⟨_, _, by split <;> simp, rfl, ?_⟩))
    rintro text ⟨p, rfl, hrounded⟩
    have hmagnitude : scaledFloat p.value.digits p.value.exp = Float.ofBits (x.toBits &&& 0x7FFFFFFFFFFFFFFF) := by
      obtain ⟨hx, hbits⟩ := Binary.isFinite_ofBits hfinite
      rw [scaledFloat, hrounded, scaledBits_select hx, hbits, UInt64.ofNat_toNat]
    refine ⟨p, ?_⟩
    rw [hmagnitude]
    split
    · next hsign => exact Or.inl ⟨rfl, hself (beq_iff_eq.mp hsign)⟩
    · next hsign => exact Or.inr ⟨rfl, neg_magnitude (by simpa using hsign) hle⟩

theorem point_of_isPointed {text : Text} {x : Float} (h : IsPointed text x) : '.' ∈ text := by
  obtain ⟨p, ⟨rfl, -⟩ | ⟨rfl, -⟩⟩ := h <;> simp [Pointed.text]

theorem point_not_mem_lone {first : Char} {e : Int} {sign : Text} (hsign : sign = [] ∨ sign = ['-'])
    (hfirst : isDigit first = true) : '.' ∉ sign ++ first :: exponentText e := by
  have hdigit := isDigit_ne hfirst (by decide : isDigit '.' = false)
  rcases hsign with rfl | rfl <;> simp [hdigit.symm, point_not_mem_exponentText]

/-- What is written with a point is such a numeral. -/
theorem isPointed_ofFloat {x : Float} (h : '.' ∈ ofFloat x) : IsPointed (ofFloat x) x := by
  rcases ofFloat_cases x with ⟨htext, -⟩ | ⟨htext, -⟩ | ⟨htext, -⟩ | ⟨sign, d, hsign, htext, hspelled⟩
  · exact absurd (htext ▸ h) (by decide)
  · exact absurd (htext ▸ h) (by decide)
  · exact absurd (htext ▸ h) (by decide)
  · rw [htext] at h ⊢
    rcases d.layout_cases with hlayout | ⟨first, e, hlayout, hfirst, -⟩
    · exact hspelled _ hlayout
    · exact absurd (hlayout ▸ h) (point_not_mem_lone hsign hfirst)

end Decimal

namespace Yaml

open Form

theorem isKeyChar_of_isFloatingChar {c : Char} (h : Decimal.isFloatingChar c = true) : isKeyChar c = true := by
  rcases Decimal.isFloatingChar_iff.mp h with hdigit | rfl | rfl | rfl | rfl
  · have hrange : ('0' ≤ c && c ≤ '9') = true := isDigit_iff.mpr hdigit
    simp only [isKeyChar, isWordChar, hrange, Bool.true_or]
  all_goals decide

theorem isKeyWord_of_isPointed {text : Text} {x : Float} (h : Decimal.IsPointed text x) : IsKeyWord text := by
  obtain ⟨p, ⟨rfl, -⟩ | ⟨rfl, -⟩⟩ := h
  · exact ⟨p.text_ne rfl, fun c hc => isKeyChar_of_isFloatingChar (p.isFloatingChar_text c hc)⟩
  · refine ⟨by simp, List.forall_mem_cons.mpr ⟨rfl, fun c hc => ?_⟩⟩
    exact isKeyChar_of_isFloatingChar (p.isFloatingChar_text c hc)

theorem startsNumber_of_isPointed {text : Text} {x : Float} (h : Decimal.IsPointed text x) : startsNumber text = true := by
  obtain ⟨p, hp⟩ := h
  obtain ⟨c, rest, htext, hc, -⟩ := p.text_cons
  rw [htext] at hp
  rcases hp with ⟨rfl, -⟩ | ⟨rfl, -⟩
  · exact startsNumber_digit hc rest
  · exact hc

/-- A numeral with a point, also behind a minus, is a plain scalar of its type. -/
theorem tag_of_isPointed {words : List Text} (hwords : (words.all fun w => !startsNumber w) = true) {text : Text} {x : Float}
    (h : Decimal.IsPointed text x) : Tag.ofPlain words text = .float := by
  have hline : '\n' ∉ text := (isKeyWord_of_isPointed h).not_mem (by decide)
  refine (ofPlain_of_startsNumber hwords (startsNumber_of_isPointed h) hline).1 ?_
  obtain ⟨p, ⟨rfl, -⟩ | ⟨rfl, -⟩⟩ := h
  · refine p.isFloat_of_unsigned ?_
    unfold unsigned
    split
    · next h => exact absurd h (p.text_ne rfl)
    · next h => exact absurd h (p.text_ne rfl)
    · rfl
  · exact p.isFloat_of_unsigned rfl

namespace Scalar

/-- A numeral with a point is read as its decimal, with the sign in front of it. -/
theorem float_pointed (p : Decimal.Pointed) :
    float p.text = .ok (.float (Decimal.scaledFloat p.value.digits p.value.exp)) ∧
    float ('-' :: p.text) = .ok (.float (-(Decimal.scaledFloat p.value.digits p.value.exp))) := by
  have hall := p.isFloatingChar_text
  have hsigned : ∀ c ∈ '-' :: p.text, Decimal.isFloatingChar c = true := List.forall_mem_cons.mpr ⟨rfl, hall⟩
  have hbars : ∀ text : Text, (∀ c ∈ text, Decimal.isFloatingChar c = true) → dropBars text = text :=
    fun text h => dropBars_eq fun hbar => Decimal.isFloatingChar_ne (h _ hbar) (by decide) rfl
  have hnan : p.text ≠ ".nan".toList := p.text_ne rfl
  have hinf : p.text ≠ ".inf".toList := p.text_ne rfl
  have hempty : p.text.isEmpty = false := by simpa using p.text_ne (rfl : (([] : Text).head?.any isDigit) = false)
  have hplaces : p.text.contains ':' = false := by
    simpa using fun hmem => Decimal.isFloatingChar_ne (hall _ hmem) (by decide) rfl
  constructor
  · simp only [float, hbars _ hall, Decimal.lowerAscii_eq hall, p.splitSign_text, hempty, hnan, hinf, hplaces, p.float?_text]
    rfl
  · simp only [float, hbars _ hsigned, Decimal.lowerAscii_eq hsigned, Decimal.splitSign, hnan, hinf, hplaces, p.float?_text]
    rfl

theorem reads_of_isPointed {text : Text} {x : Float} (h : Decimal.IsPointed text x) : Reads text (.float x) := by
  rw [Reads, tag_of_isPointed (by decide) h]
  obtain ⟨p, ⟨rfl, rfl⟩ | ⟨rfl, rfl⟩⟩ := h
  · exact (float_pointed p).1
  · exact (float_pointed p).2

/-- A number that is written with a point is read as it is written. -/
theorem reads_ofFloat {x : Float} (h : '.' ∈ Decimal.ofFloat x) : Reads (Decimal.ofFloat x) (.float x) :=
  reads_of_isPointed (Decimal.isPointed_ofFloat h)

end Scalar

/-! ## How they are written as scalars -/

namespace Outline

/-- A character of a number without a point, with a point and a zero in front of the mark of its exponent. -/
def withPoint (c : Char) : Text := if c == 'e' then ['.', '0', 'e'] else [c]

theorem withPoint_of_ne {c : Char} (h : c ≠ 'e') : withPoint c = [c] := by simp [withPoint, h]

theorem flatMap_exponentText (e : Int) : (Decimal.exponentText e).flatMap withPoint = '.' :: '0' :: Decimal.exponentText e := by
  have hdigits : (Text.padded 2 e.natAbs).flatMap withPoint = Text.padded 2 e.natAbs := by
    rw [List.flatMap_congr (g := fun c => [c]) fun c hc =>
      withPoint_of_ne (isDigit_ne (Decimal.padded_digits 2 _ c hc) (by decide)), List.flatMap_singleton']
  unfold Decimal.exponentText
  split
  · rw [List.flatMap_cons, List.flatMap_cons, hdigits]
    rfl
  · rw [List.flatMap_cons, List.flatMap_cons, hdigits]
    rfl

theorem flatMap_withPoint {first : Char} {e : Int} {sign : Text} (hsign : sign = [] ∨ sign = ['-'])
    (hfirst : isDigit first = true) :
    (sign ++ first :: Decimal.exponentText e).flatMap withPoint = sign ++ first :: '.' :: '0' :: Decimal.exponentText e := by
  have hplain : withPoint first = [first] := withPoint_of_ne (isDigit_ne hfirst (by decide))
  rcases hsign with rfl | rfl
  · rw [List.nil_append, List.flatMap_cons, hplain, flatMap_exponentText]
    rfl
  · rw [List.cons_append, List.nil_append, List.flatMap_cons, List.flatMap_cons, hplain, flatMap_exponentText]
    rfl

theorem floatText_eq {x : Float} {text : Text} (htext : Decimal.ofFloat x = text) (hstarts : startsNumber text = true) :
    floatText x = if text.contains '.' then text else text.flatMap withPoint := by
  unfold floatText
  rw [htext]
  split
  · cases hstarts
  · cases hstarts
  · cases hstarts
  · rfl

/-- A scalar is written as a numeral with a point, or as a word with one. -/
theorem floatText_cases (x : Float) :
    (floatText x = ".nan".toList ∧ x = Decimal.notANumber) ∨ (floatText x = ".inf".toList ∧ x = Decimal.infinity) ∨
    (floatText x = "-.inf".toList ∧ x = -Decimal.infinity) ∨ Decimal.IsPointed (floatText x) x := by
  rcases Decimal.ofFloat_cases x with ⟨htext, hx⟩ | ⟨htext, hx⟩ | ⟨htext, hx⟩ | ⟨sign, d, hsign, htext, hspelled⟩
  · exact Or.inl ⟨by rw [floatText, htext]; rfl, hx⟩
  · exact Or.inr (Or.inl ⟨by rw [floatText, htext]; rfl, hx⟩)
  · exact Or.inr (Or.inr (Or.inl ⟨by rw [floatText, htext]; rfl, hx⟩))
  · refine Or.inr (Or.inr (Or.inr ?_))
    rcases d.layout_cases with hlayout | ⟨first, e, hlayout, hfirst, hlone⟩
    · have hpointed := hspelled _ hlayout
      have hpoint : (sign ++ d.layout).contains '.' = true := List.contains_iff_mem.mpr (Decimal.point_of_isPointed hpointed)
      rw [floatText_eq htext (startsNumber_of_isPointed hpointed), if_pos hpoint]
      exact hpointed
    · rw [hlayout] at htext
      have hstarts : startsNumber (sign ++ first :: Decimal.exponentText e) = true := by
        rcases hsign with rfl | rfl
        · exact startsNumber_digit hfirst _
        · exact hfirst
      have hpoint : ¬ (sign ++ first :: Decimal.exponentText e).contains '.' = true := fun hmem =>
        Decimal.point_not_mem_lone hsign hfirst (List.contains_iff_mem.mp hmem)
      rw [floatText_eq htext hstarts, if_neg hpoint, flatMap_withPoint hsign hfirst]
      exact hspelled _ hlone

end Outline

end Yaml
end YamlSplice
