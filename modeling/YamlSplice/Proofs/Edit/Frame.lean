/-
  YamlSplice.Proofs.Edit.Frame — an edit of one key changes nothing but the region of the key.

  This holds whatever is read of the document and whatever is written for the value: the edits cut
  the text in three ways only, and each cut keeps all that is on its two sides.
  - `apply_keeps_outside`: the text is left alone, its region replaced, an entry put in front of the
    blank lines at its end, or, if it holds no value, behind it.
  - `append_closed`: where an added entry goes in a text that ends with a newline.
-/

import Mathlib
import YamlSplice.Operations
import YamlSplice.Proofs.Edit.Outcome
import YamlSplice.Proofs.Region.Locate

namespace YamlSplice

namespace Text

theorem trailingNewlines_of_endsLine {text : Text} (h : endsLine text = true) :
    ∃ more, trailingNewlines text = '\n' :: more := by
  obtain ⟨front, rfl⟩ := endsLine_iff.mp h
  exact ⟨front.reverse.takeWhile (· == '\n'), by simp [trailingNewlines]⟩

theorem endsLine_closeLine (text : Text) : endsLine (closeLine text) = true := by
  unfold closeLine
  split
  · assumption
  · simp [endsLine]

end Text

namespace Edit

/-- The result is the text with `replacement` between the newline in front of the key line and the
    stop of the region. -/
def Spliced (name text replacement result : Text) : Prop :=
  ∃ region before body after, Region.ofKey? name text = some region ∧
    Region.Cut region text before body after ∧ result = before ++ region.lead ++ replacement ++ after

theorem spliced_splice {name text replacement : Text} {region : Region}
    (h : Region.ofKey? name text = some region) :
    Spliced name text replacement (region.splice text replacement) := by
  obtain ⟨before, body, after, hcut, -⟩ := Region.ofKey?_cut h
  exact ⟨region, before, body, after, h, hcut, hcut.splice_eq replacement⟩

/-- An added entry goes between the last line that is not empty and the blank lines behind it. -/
theorem append_closed {text : Text} (h : Text.endsLine text = true) (addition : Text) :
    ∃ front, text = front ++ (Text.trailingNewlines text).tail ∧ Text.endsLine front = true ∧
      append text addition = front ++ addition ++ (Text.trailingNewlines text).tail := by
  obtain ⟨more, hmore⟩ := Text.trailingNewlines_of_endsLine h
  refine ⟨Text.dropTrailingNewlines text ++ ['\n'], ?_, by simp [Text.endsLine], ?_⟩
  · have := Text.dropTrailingNewlines_append text
    rw [hmore] at this
    simp [hmore, this]
  · simp [append, hmore]

/-- What an edit of the key leaves of the text: the text itself, the text with its region replaced, or
    the text with an entry added. -/
def KeepsOutside (format : Format) (keep : Bool) (name : Text) (value : Value) (text result : Text) : Prop :=
  result = text ∨
  (value.treatment = .remove ∧ Spliced name (Text.closeLine text) [] result) ∨
  (∃ replacement, Render.entryKeepingKey format keep name value = .ok replacement ∧
    Spliced name (Text.closeLine text) replacement result) ∨
  (∃ updates region block, value = .map updates ∧
    Region.ofKey? name (Text.closeLine text) = some region ∧
    (Margin.change name region.value (applyAll format keep updates)).result = .ok block ∧
    Spliced name (Text.closeLine text) (name ++ ':' :: '\n' :: block) result) ∨
  (∃ entries addition front, format.read (Text.closeLine text) = .ok (.map entries) ∧
    Value.valueUnder? entries (.str name) = none ∧
    Render.entry format keep (.str name) value = .ok addition ∧
    Text.closeLine text = front ++ (Text.trailingNewlines (Text.closeLine text)).tail ∧
    result = front ++ addition ++ (Text.trailingNewlines (Text.closeLine text)).tail) ∨
  (∃ addition, format.read (Text.closeLine text) = .ok .null ∧
    Render.entry format keep (.str name) value = .ok addition ∧
    result = if Text.closeLine text = ['\n'] then addition else Text.closeLine text ++ addition)

/-- All of the text before the key line and behind the region of the key is kept, in order, and so is
    all of it when an entry is added. -/
theorem apply_keeps_outside {format : Format} {keep : Bool} {name text result : Text} {value : Value}
    (h : (apply format keep (.str name) value text).result = .ok result) :
    KeepsOutside format keep name value text result := by
  cases outcome_of_apply h with
  | nothing _ _ => exact Or.inl rfl
  | unchanged _ _ _ _ _ _ => exact Or.inl rfl
  | removed _ _ _ _ ht _ hlocated => exact Or.inr (Or.inl ⟨ht, spliced_splice hlocated⟩)
  | replaced _ _ _ replacement _ _ _ _ hlocated hrep =>
    exact Or.inr (Or.inr (Or.inl ⟨replacement, hrep, spliced_splice hlocated⟩))
  | merged _ _ region updates block _ hv _ _ _ hlocated hblock =>
    exact Or.inr (Or.inr (Or.inr (Or.inl
      ⟨updates, region, block, hv, hlocated, hblock, spliced_splice hlocated⟩)))
  | appended entries addition hread _ habsent hadd =>
    obtain ⟨front, hwhole, -, happend⟩ := append_closed (Text.endsLine_closeLine text) addition
    exact Or.inr (Or.inr (Or.inr (Or.inr (Or.inl
      ⟨entries, addition, front, hread, habsent, hadd, hwhole, happend⟩))))
  | filled addition hread _ hadd =>
    refine Or.inr (Or.inr (Or.inr (Or.inr (Or.inr ⟨addition, hread, hadd, ?_⟩))))
    unfold fillEmpty
    split <;> simp

/-- The second of two keys, in a text without a final newline. -/
theorem apply_keeps_outside_second_key :
    (apply Format.yaml false (.str "b".toList) (.str "y".toList) "a: 1\nb: x".toList).result =
      .ok "a: 1\nb: y\n".toList ∧
    KeepsOutside Format.yaml false "b".toList (.str "y".toList) "a: 1\nb: x".toList "a: 1\nb: y\n".toList := by
  have hwhole : Text.closeLine "a: 1\nb: x".toList = ['a', ':', ' ', '1', '\n', 'b', ':', ' ', 'x', '\n'] := rfl
  have hread : Format.yaml.read (Text.closeLine "a: 1\nb: x".toList) =
      .ok (.map [(.str ['a'], .int 1), (.str ['b'], .str ['x'])]) := by rw [hwhole]; cbv
  have hexisting : Value.valueUnder? [(.str ['a'], .int 1), (.str ['b'], .str ['x'])] (.str "b".toList) =
      some (.str ['x']) := by cbv
  have hdiffers : Value.agrees (.str ['x']) (.str "y".toList) = false := by cbv
  have hlocated : Region.ofKey? "b".toList (Text.closeLine "a: 1\nb: x".toList) =
      some ⟨4, 10, ['\n'], [' ', 'x', '\n']⟩ := rfl
  have hwrite : Render.entryKeepingKey Format.yaml false "b".toList (.str "y".toList) =
      .ok ['b', ':', ' ', 'y', '\n'] := rfl
  have hresult := (Outcome.replaced _ _ _ _ hread (Or.inl rfl) hexisting hdiffers hlocated hwrite).apply_eq_ok
  have hspliced : Region.splice ⟨4, 10, ['\n'], [' ', 'x', '\n']⟩ (Text.closeLine "a: 1\nb: x".toList)
      ['b', ':', ' ', 'y', '\n'] = "a: 1\nb: y\n".toList := rfl
  rw [hspliced] at hresult
  exact ⟨hresult, apply_keeps_outside hresult⟩

end Edit
end YamlSplice
