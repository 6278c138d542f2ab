/-
  YamlSplice.Proofs.Edit.Recognize — which keys are recognised by the text they were written as.

  A document keeps the values of its keys, not their spelling, so a key is recognised by the form in which its value
  is written. Every text has that form, and of the spellings of a number or a truth value one has it.
  - `recognises_key_word`: which words these are, and that an edit then changes the line of the key.
  - `capital_truth_value_appended`: a truth value in capitals is not found.
-/

import Mathlib
import YamlSplice.Proofs.Edit.Outcome
import YamlSplice.Proofs.Reading.KeyWord
import YamlSplice.Proofs.Yaml.Floating

namespace YamlSplice

namespace Yaml.Scalar

theorem moment_eq_ok {text : Text} {value : Value} (h : moment text = .ok value) :
    (∃ d, value = .date d) ∨ ∃ t, value = .moment t := by
  unfold moment at h
  simp only [bind, Except.bind, pure, Except.pure] at h
  repeat' split at h
  all_goals cases h
  · exact Or.inl ⟨_, rfl⟩
  · exact Or.inr ⟨_, rfl⟩

/-- The values that a scalar of a type may have: a text only as it stands. -/
def Holds (text : Text) : Tag → Value → Prop
  | .null, .null => True
  | .bool, .bool _ => True
  | .int, .int _ => True
  | .float, .float _ => True
  | .timestamp, .date _ => True
  | .timestamp, .moment _ => True
  | .binary, .bytes _ => True
  | .str, .str other => other = text
  | _, _ => False

theorem holds_of_value {tag : Tag} {text : Text} {v : Value} (h : value tag text = .ok v) : Holds text tag v := by
  cases tag with
  | null => cases h; trivial
  | bool =>
    simp only [value, bool] at h
    unfold orFault at h
    split at h
    · next hfound =>
      obtain ⟨entry, -, rfl⟩ := Option.map_eq_some_iff.mp hfound
      cases h
      trivial
    · cases h
  | int =>
    simp only [value, int, bind, Except.bind, pure, Except.pure] at h
    split at h <;> cases h
    trivial
  | float =>
    obtain ⟨x, rfl⟩ := float_eq_ok h
    trivial
  | timestamp => rcases moment_eq_ok h with ⟨d, rfl⟩ | ⟨t, rfl⟩ <;> trivial
  | binary =>
    rw [value, binary] at h
    repeat' split at h
    all_goals cases h
    trivial
  | str => cases h; rfl
  | _ => cases h

/-- A scalar whose value is a text is read as it stands. -/
theorem Reads.of_str {text other : Text} (h : Reads text (.str other)) : other = text := by
  have hholds := holds_of_value h
  cases htag : Tag.ofPlain boolWords text <;> simp_all [Holds]

theorem mem_of_mem_dropFinalNewline {c : Char} {text : Text} (h : c ∈ dropFinalNewline text) : c ∈ text := by
  unfold dropFinalNewline at h
  split at h
  · exact List.mem_of_mem_dropLast h
  · exact h

/-- Only a scalar with a point is read as a floating-point number. -/
theorem Reads.point {text : Text} {x : Float} (h : Reads text (.float x)) : '.' ∈ text := by
  have hholds := holds_of_value h
  have htag : Tag.ofPlain boolWords text = .float := by
    cases htag : Tag.ofPlain boolWords text <;> simp_all [Holds]
  have hform : Form.isFloat (dropFinalNewline text) = true := by
    unfold Tag.ofPlain at htag
    simp only at htag
    split_ifs at htag
    assumption
  by_contra hpoint
  have hpointless : '.' ∉ Form.unsigned (dropFinalNewline text) := fun hmem =>
    hpoint (mem_of_mem_dropFinalNewline (Form.mem_of_mem_unsigned hmem))
  rw [Form.isFloat_of_pointless hpointless] at hform
  cases hform

end Yaml.Scalar

namespace Edit

open Value Yaml

/-- A document of one row, if it has a key at all, has the one that the word is the spelling of. -/
theorem read_key_word {k : Text} {key v : Value} (hchars : ∀ c ∈ k, isKeyChar c = true)
    (hread : Format.yaml.read (k ++ ": v\n".toList) = .ok (.map [(key, v)])) :
    Scalar.Reads k key ∧ v = .str ['v'] := by
  have hphrase : IsPhrase ['v'] := isPhrase_of_word ⟨by simp, List.forall_mem_singleton.mpr (by decide)⟩ (by decide)
  have hloaded : Yaml.read (k ++ ": v\n".toList) = .ok (.map [(key, v)]) := by
    simp only [Format.yaml] at hread
    cases hall : Yaml.read (k ++ ": v\n".toList) with
    | error fault => rw [hall] at hread; cases hread
    | ok value => rw [hall] at hread; cases hread; rfl
  by_cases hempty : k = []
  · subst hempty
    have hnone : Yaml.read ": v\n".toList = .error .malformed := by cbv
    rw [List.nil_append, hnone] at hloaded
    cases hloaded
  · have hword : IsKeyWord k := ⟨hempty, hchars⟩
    have hrow : k ++ ": v\n".toList = rowText k ['v'] := rfl
    rw [hrow] at hloaded
    by_cases hlength : k.length ≤ 1024
    · rw [read_row hword hlength hphrase rfl] at hloaded
      cases hscalar : Scalar.value (Tag.ofPlain boolWords k) k with
      | error fault => rw [hscalar] at hloaded; cases hloaded
      | ok value =>
        rw [hscalar] at hloaded
        cases hloaded
        exact ⟨hscalar, rfl⟩
    · rw [read_long hword (by omega) hphrase] at hloaded
      cases hloaded

/-- The region of a word in front of a colon is all of the text. -/
theorem ofKey?_row (k : Text) :
    Region.ofKey? k (k ++ ": v\n".toList) = some ⟨0, (k ++ ": v\n".toList).length, [], " v\n".toList⟩ := by
  have hcolon : Region.afterColon? k (k ++ ": v\n".toList) = some " v\n".toList := by
    have hafter : Text.after? k (k ++ ": v\n".toList) = some ": v\n".toList := Text.after?_eq_some_iff.mpr rfl
    rw [Region.afterColon?, hafter]
    rfl
  rw [Region.ofKey?, Region.at?, hcolon]
  simp only [Option.map_some]
  have hheader : Region.dropHeader " v\n".toList = " v\n".toList := by decide
  have hvalue : Region.takeValue " v\n".toList = " v\n".toList := by decide
  rw [hheader, hvalue]
  simp

/-- In a document of one row the key is found by a text if that is how it is written. -/
theorem found_iff {k : Text} {key v : Value} : valueUnder? [(key, v)] (.str k) = some v ↔ keyText key = k := by
  rw [← isCalled_str_iff]
  by_cases hcalled : isCalled key (.str k) = true
  · have hone : [(key, v)].filter (fun e => isCalled e.1 (.str k)) = [(key, v)] := by simp [hcalled]
    exact ⟨fun _ => hcalled, fun _ => valueUnder?_of_filter hone⟩
  · have hnone : valueUnder? [(key, v)] (.str k) = none := valueUnder?_eq_none_iff.mpr (by simpa using hcalled)
    rw [hnone]
    exact iff_of_false (by simp) hcalled

/-- Of the words that are read as a truth value, two are how one is written. -/
theorem ofBool_eq_iff {k : Text} {b : Bool} (hreads : Scalar.Reads k (.bool b)) :
    keyText (.bool b) = k ↔ k = "true".toList ∨ k = "false".toList := by
  constructor
  · rintro rfl
    cases b with
    | true => exact Or.inl rfl
    | false => exact Or.inr rfl
  · have htrue : Scalar.Reads "true".toList (.bool true) := rfl
    have hfalse : Scalar.Reads "false".toList (.bool false) := rfl
    rintro (rfl | rfl)
    · cases htrue.symm.trans hreads
      rfl
    · cases hfalse.symm.trans hreads
      rfl

/-- A word that is read as an integer is how the integer is written if it has the form of its numerals. -/
theorem ofInt_eq_iff {k : Text} {n : Int} (hreads : Scalar.Reads k (.int n)) : Text.ofInt n = k ↔ Form.isInteger k = true := by
  rw [Form.isInteger_iff]
  constructor
  · rintro rfl
    exact ⟨n, rfl⟩
  · rintro ⟨m, rfl⟩
    cases (Scalar.reads_ofInt m).symm.trans hreads
    rfl

/-- A word that is read as a floating-point number is how the number is written if it is how any number is written. -/
theorem ofFloat_eq_iff {k : Text} {x : Float} (hreads : Scalar.Reads k (.float x)) :
    Decimal.ofFloat x = k ↔ ∃ y, Decimal.ofFloat y = k := by
  refine ⟨fun h => ⟨x, h⟩, ?_⟩
  rintro ⟨y, rfl⟩
  cases (Scalar.reads_ofFloat hreads.point).symm.trans hreads
  rfl

/-- The line of the key is what an edit replaces. -/
theorem apply_row {k line : Text} {key v value : Value} {keep : Bool}
    (hread : Format.yaml.read (k ++ ": v\n".toList) = .ok (.map [(key, v)]))
    (hfound : valueUnder? [(key, v)] (.str k) = some v) (ht : value.treatment = .replace) (hdiffers : agrees v value = false)
    (hline : Render.entryKeepingKey Format.yaml keep k value = .ok line) :
    (apply Format.yaml keep (.str k) value (k ++ ": v\n".toList)).result = .ok line := by
  have hclosed : Text.closeLine (k ++ ": v\n".toList) = k ++ ": v\n".toList := by
    simp [Text.closeLine, Text.endsLine, List.getLast?_append]
  have hregion := ofKey?_row k
  rw [← hclosed] at hread hregion
  have hedit := (Outcome.replaced _ _ _ _ hread (Or.inl ht) hfound hdiffers hregion hline).apply_eq_ok
  simpa [Region.splice] using hedit

/-- A word that is read on its own is read as the key of a row. -/
theorem read_of_reads {k : Text} {key : Value} (hword : IsKeyWord k) (hlength : k.length ≤ 1024) (hreads : Scalar.Reads k key) :
    Format.yaml.read (k ++ ": v\n".toList) = .ok (.map [(key, .str ['v'])]) := by
  have hphrase : IsPhrase ['v'] := isPhrase_of_word ⟨by simp, List.forall_mem_singleton.mpr (by decide)⟩ (by decide)
  have hrow : k ++ ": v\n".toList = rowText k ['v'] := rfl
  have hkey : Scalar.value (Tag.ofPlain boolWords k) k = .ok key := hreads
  simp only [Format.yaml, hrow]
  rw [read_row hword hlength hphrase rfl, hkey]
  rfl

/-- Among the documents of one row, whose key is a word of letters, digits and signs: a text is found by the word, a truth
    value if the word is `true` or `false`, an integer if the word is its numeral without a sign or a zero too many, and a
    floating-point number if the word is what some number is written as: digits around a point, and perhaps an exponent.
    What is found is the line that an edit replaces. Every truth value, every integer, and every floating-point number that
    is written with a point is read from what it is written as, if that is not too long for a key. -/
theorem recognises_key_word (k : Text) :
    ((∀ c ∈ k, isKeyChar c = true) → ∀ key v, Format.yaml.read (k ++ ": v\n".toList) = .ok (.map [(key, v)]) →
      (∀ text, key = .str text → text = k ∧ valueUnder? [(key, v)] (.str k) = some v) ∧
      (∀ b, key = .bool b → (valueUnder? [(key, v)] (.str k) = some v ↔ k = "true".toList ∨ k = "false".toList)) ∧
      (∀ n, key = .int n → (valueUnder? [(key, v)] (.str k) = some v ↔ Form.isInteger k = true)) ∧
      (∀ x, key = .float x →
        (valueUnder? [(key, v)] (.str k) = some v ↔ ∃ y, Decimal.ofFloat y = k) ∧
        (valueUnder? [(key, v)] (.str k) = some v →
          Decimal.ofFloat x = k ∧ ∃ p : Decimal.Pointed, k = p.text ∨ k = '-' :: p.text)) ∧
      (valueUnder? [(key, v)] (.str k) = some v →
        Region.ofKey? k (k ++ ": v\n".toList) = some ⟨0, (k ++ ": v\n".toList).length, [], " v\n".toList⟩ ∧
        ∀ keep value line, value.treatment = .replace → agrees v value = false →
          Render.entryKeepingKey Format.yaml keep k value = .ok line →
          (apply Format.yaml keep (.str k) value (k ++ ": v\n".toList)).result = .ok line)) ∧
    (∀ b : Bool, (k = if b then "true".toList else "false".toList) →
      Format.yaml.read (k ++ ": v\n".toList) = .ok (.map [(.bool b, .str ['v'])])) ∧
    (∀ n : Int, k = Text.ofInt n → k.length ≤ 1024 →
      Format.yaml.read (k ++ ": v\n".toList) = .ok (.map [(.int n, .str ['v'])])) ∧
    (∀ x : Float, k = Decimal.ofFloat x → '.' ∈ k → k.length ≤ 1024 →
      Format.yaml.read (k ++ ": v\n".toList) = .ok (.map [(.float x, .str ['v'])])) := by
  refine ⟨fun hchars key v hread => ?_, ?_, ?_, ?_⟩
  · obtain ⟨hreads, -⟩ := read_key_word hchars hread
    refine ⟨?_, ?_, ?_, ?_, fun hfound => ⟨ofKey?_row k, fun keep value line ht hdiffers hline =>
      apply_row hread hfound ht hdiffers hline⟩⟩
    · rintro text rfl
      obtain rfl := hreads.of_str
      exact ⟨rfl, found_iff.mpr rfl⟩
    · rintro b rfl
      rw [found_iff]
      exact ofBool_eq_iff hreads
    · rintro n rfl
      rw [found_iff]
      exact ofInt_eq_iff hreads
    · rintro x rfl
      rw [found_iff]
      refine ⟨ofFloat_eq_iff hreads, fun hwritten => ⟨hwritten, ?_⟩⟩
      obtain ⟨p, hp⟩ := Decimal.isPointed_ofFloat (hwritten ▸ hreads.point)
      exact ⟨p, hwritten ▸ hp.imp And.left And.left⟩
  · rintro b rfl
    cases b with
    | true => exact read_of_reads ⟨by simp, List.all_eq_true.mp (by decide)⟩ (by decide) rfl
    | false => exact read_of_reads ⟨by simp, List.all_eq_true.mp (by decide)⟩ (by decide) rfl
  · rintro n rfl hlength
    exact read_of_reads (isKeyWord_ofInt n) hlength (Scalar.reads_ofInt n)
  · rintro x rfl hpoint hlength
    exact read_of_reads (isKeyWord_of_isPointed (Decimal.isPointed_ofFloat hpoint)) hlength (Scalar.reads_ofFloat hpoint)

/-- A port and a version, both in their usual form. -/
theorem recognises_key_word_port :
    (valueUnder? [(.int 8080, .str ['v'])] (.str "8080".toList) = some (.str ['v']) ∧
      (apply Format.yaml false (.str "8080".toList) (.str ['w']) "8080: v\n".toList).result = .ok "8080: w\n".toList) ∧
    (Decimal.ofFloat (Float.ofBits 0x3FF8000000000000) = "1.5".toList ∧
      (apply Format.yaml false (.str "1.5".toList) (.str ['w']) "1.5: v\n".toList).result = .ok "1.5: w\n".toList) := by
  have hdiffers : agrees (.str ['v']) (.str ['w']) = false := by cbv
  constructor
  · have hchars : ∀ c ∈ "8080".toList, isKeyChar c = true := List.all_eq_true.mp (by decide)
    have hline : Render.entryKeepingKey Format.yaml false "8080".toList (.str ['w']) = .ok "8080: w\n".toList := rfl
    obtain ⟨hrows, -, hnumerals, -⟩ := recognises_key_word "8080".toList
    obtain ⟨-, -, hintegers, -, hedits⟩ := hrows hchars _ _ (hnumerals 8080 rfl (by decide))
    have hfound := (hintegers 8080 rfl).mpr (by decide)
    exact ⟨hfound, (hedits hfound).2 false _ _ rfl hdiffers hline⟩
  · have hwritten : Decimal.ofFloat (Float.ofBits 0x3FF8000000000000) = "1.5".toList := by decide +kernel
    have hchars : ∀ c ∈ "1.5".toList, isKeyChar c = true := List.all_eq_true.mp (by decide)
    have hline : Render.entryKeepingKey Format.yaml false "1.5".toList (.str ['w']) = .ok "1.5: w\n".toList := rfl
    obtain ⟨hrows, -, -, hnumerals⟩ := recognises_key_word "1.5".toList
    obtain ⟨-, -, -, hfloats, hedits⟩ := hrows hchars _ _ (hnumerals _ hwritten.symm (by decide) (by decide))
    have hfound := (hfloats _ rfl).1.mpr ⟨_, hwritten⟩
    exact ⟨hwritten, (hedits hfound).2 false _ _ rfl hdiffers hline⟩

/-- A truth value in capitals is written in small letters, so its word does not find it: an edit adds a second key. -/
theorem capital_truth_value_appended :
    Format.yaml.read "True: v\n".toList = .ok (.map [(.bool true, .str ['v'])]) ∧
    valueUnder? [(.bool true, .str ['v'])] (.str "True".toList) = none ∧
    (apply Format.yaml false (.str "True".toList) (.str ['w']) "True: v\n".toList).result =
      .ok "True: v\n'True': w\n".toList := by
  have hread : Format.yaml.read (Text.closeLine "True: v\n".toList) = .ok (.map [(.bool true, .str ['v'])]) := by cbv
  have habsent : valueUnder? [(.bool true, .str ['v'])] (.str "True".toList) = none := by cbv
  have hentry : Render.entry Format.yaml false (.str "True".toList) (.str ['w']) = .ok "'True': w\n".toList := rfl
  exact ⟨hread, habsent, (Outcome.appended _ _ hread (Or.inl rfl) habsent hentry).apply_eq_ok⟩

end Edit
end YamlSplice
