/-
  YamlSplice.Proofs.Edit.Closed — an edit leaves no line without its newline.

  This asks of the writer alone that what it writes ends with a newline. A text may come without one at
  its end; then it is given back as it came, or the edit has closed its last line.
  - `entry_endsLine` / `entryKeepingKey_endsLine`: an entry ends with a newline, however it is moved and
    its key is spelled.
  - `apply_closed`: what an edit of one key leaves.
-/

import YamlSplice.Proofs.Edit.Frame
import YamlSplice.Proofs.Edit.Indent
import YamlSplice.Proofs.Text.Lines

namespace YamlSplice

/-- What is written ends with a newline. -/
def Format.EndsLines (format : Format) : Prop :=
  ∀ value text, format.write value = .ok text → Text.endsLine text = true

/-! ## Entries -/

namespace Render

variable {format : Format} {keep : Bool}

theorem endsLine_outdentLists {text : Text} (h : Text.endsLine text = true) :
    Text.endsLine (outdentLists keep text) = true := by
  unfold outdentLists
  by_cases hkeep : keep = true
  · rwa [if_pos hkeep]
  · obtain ⟨ls, hne, hlines, -⟩ := Text.exists_lines_of_endsLine h
    have hlast : [[]].map outdentLine = [[]] := rfl
    rw [if_neg hkeep, hlines, List.map_append, hlast]
    exact Text.endsLine_unlines (by simpa using hne)

theorem entry_endsLine (hformat : format.EndsLines) {key value : Value} {text : Text}
    (h : entry format keep key value = .ok text) : Text.endsLine text = true := by
  unfold entry at h
  split at h
  · next written hwritten => cases h; exact endsLine_outdentLists (hformat _ _ hwritten)
  · cases h

/-- What follows the colon of a key ends with a newline if the entry does. -/
theorem endsLine_of_colon {front rest : Text} (h : Text.endsLine (front ++ ':' :: rest) = true) :
    Text.endsLine (':' :: rest) = true :=
  Text.endsLine_of_suffix h (List.suffix_append _ _) (List.cons_ne_nil _ _)

/-- The entry with the key as it is in the document ends as the entry does. -/
theorem entryKeepingKey_endsLine (hformat : format.EndsLines) {key text : Text} {value : Value}
    (h : entryKeepingKey format keep key value = .ok text) : Text.endsLine text = true := by
  obtain ⟨entry, hentry, h⟩ := Except.bind_eq_ok.mp h
  obtain ⟨rendered, -, h⟩ := Except.bind_eq_ok.mp h
  have hends := entry_endsLine hformat hentry
  dsimp only at h
  split at h
  · next rest hafter =>
    have hparts := Text.after?_eq_some_iff.mp hafter
    split at h
    · cases h; exact hends
    · cases h
      rw [hparts, List.append_assoc] at hends
      exact Text.endsLine_append (endsLine_of_colon hends)
  · cases h; exact hends

end Render

namespace Edit

open Text (IsClosed)

variable {format : Format} {keep : Bool}

/-! ## Where an edit cuts -/

theorem isClosed_trailingNewlines (text : Text) : IsClosed (Text.trailingNewlines text).tail := by
  rw [Text.trailingNewlines_eq_replicate, List.tail_replicate]
  cases (Text.trailingNewlines text).length - 1 with
  | zero => exact IsClosed.nil
  | succ n => exact Or.inr (by simp [Text.endsLine, List.replicate_succ'])

theorem append_endsLine {text addition : Text} (htext : Text.endsLine text = true)
    (hadd : Text.endsLine addition = true) : Text.endsLine (append text addition) = true := by
  obtain ⟨front, -, -, happend⟩ := append_closed htext addition
  rw [happend]
  rcases isClosed_trailingNewlines text with hnil | hends
  · rw [hnil, List.append_nil]
    exact Text.endsLine_append hadd
  · exact Text.endsLine_append hends

/-- A region goes from the start of a line to the end of a line, so closed text in its place leaves the
    text closed. -/
theorem splice_isClosed {name text replacement : Text} {region : Region} (htext : Text.endsLine text = true)
    (hregion : Region.ofKey? name text = some region) (hreplacement : IsClosed replacement) :
    IsClosed (region.splice text replacement) := by
  obtain ⟨before, body, after, hcut, hlead, -⟩ := Region.ofKey?_cut hregion
  have hafter : IsClosed after := by
    refine IsClosed.of_suffix (Or.inr htext) ?_
    rw [hcut.whole]
    exact List.suffix_append _ _
  have hbefore : IsClosed (before ++ region.lead) := by
    rcases hlead with ⟨rfl, hlead⟩ | hlead
    · exact Or.inl (by rw [hlead]; rfl)
    · rw [hlead]
      exact Or.inr (by simp [Text.endsLine])
  rw [hcut.splice_eq]
  exact (hbefore.append hreplacement).append hafter

/-! ## Edits -/

theorem fillEmpty_endsLine {text addition : Text} (h : Text.endsLine addition = true) :
    Text.endsLine (fillEmpty text addition) = true := Text.endsLine_append h

theorem Outcome.closed (hformat : format.EndsLines) {name text result : Text} {value : Value}
    (h : Outcome format keep name value text result) : result = text ∨ IsClosed result := by
  have hwhole := Text.endsLine_closeLine text
  cases h with
  | nothing _ _ => exact Or.inl rfl
  | unchanged _ _ _ _ _ _ => exact Or.inl rfl
  | filled addition _ _ hadd => exact Or.inr (Or.inr (fillEmpty_endsLine (Render.entry_endsLine hformat hadd)))
  | removed _ _ region _ _ _ hlocated => exact Or.inr (splice_isClosed hwhole hlocated IsClosed.nil)
  | appended _ addition _ _ _ hadd =>
    exact Or.inr (Or.inr (append_endsLine hwhole (Render.entry_endsLine hformat hadd)))
  | replaced _ _ region replacement _ _ _ _ hlocated hrep =>
    exact Or.inr (splice_isClosed hwhole hlocated (Or.inr (Render.entryKeepingKey_endsLine hformat hrep)))
  | merged _ _ region updates block _ _ _ _ _ hlocated hblock =>
    obtain ⟨unit, changed, -, -, rfl⟩ := Margin.change_eq_ok.mp hblock
    exact Or.inr (splice_isClosed hwhole hlocated (Or.inr (Text.endsLine_below (Text.endsLine_closeLine _))))

/-- A key that is not text cannot be located, but it can be added. -/
theorem apply_of_not_text {key value : Value} {text result : Text} (hkey : ∀ name, key ≠ .str name)
    (h : (apply format keep key value text).result = .ok result) :
    result = text ∨ ∃ addition, Render.entry format keep key value = .ok addition ∧
      (result = fillEmpty (Text.closeLine text) addition ∨ result = append (Text.closeLine text) addition) := by
  have hregion : ∀ whole, regionOf key whole = .error .keyNotText := by
    intro whole
    cases key with
    | str name => exact absurd rfl (hkey name)
    | _ => rfl
  rw [apply] at h
  obtain ⟨current, -, h⟩ := Run.bind_eq_ok.mp h
  split at h
  · split at h
    · cases h; exact Or.inl rfl
    · obtain ⟨-, -, h⟩ := Run.bind_eq_ok.mp h
      obtain ⟨addition, hadd, h⟩ := Run.bind_eq_ok.mp h
      cases h
      exact Or.inr ⟨addition, hadd, Or.inl rfl⟩
  · split at h
    · cases h; exact Or.inl rfl
    · obtain ⟨-, -, h⟩ := Run.bind_eq_ok.mp h
      obtain ⟨region, hfound, -⟩ := Run.bind_eq_ok.mp h
      rw [Run.result_ofExcept, hregion] at hfound
      cases hfound
    · cases h
    · obtain ⟨-, -, h⟩ := Run.bind_eq_ok.mp h
      obtain ⟨addition, hadd, h⟩ := Run.bind_eq_ok.mp h
      cases h
      exact Or.inr ⟨addition, hadd, Or.inr rfl⟩
    · split at h
      · obtain ⟨-, -, h⟩ := Run.bind_eq_ok.mp h
        cases h
        exact Or.inl rfl
      · obtain ⟨region, hfound, -⟩ := Run.bind_eq_ok.mp h
        rw [Run.result_ofExcept, hregion] at hfound
        cases hfound
  · cases h

/-- An edit gives the text back as it came, or leaves it closed. -/
theorem apply_closed (hformat : format.EndsLines) {key value : Value} {text result : Text}
    (h : (apply format keep key value text).result = .ok result) : result = text ∨ IsClosed result := by
  by_cases hkey : ∃ name, key = .str name
  · obtain ⟨name, rfl⟩ := hkey
    exact (outcome_of_apply h).closed hformat
  · rcases apply_of_not_text (fun name hname => hkey ⟨name, hname⟩) h with hsame | ⟨addition, hadd, hresult⟩
    · exact Or.inl hsame
    · have hends := Render.entry_endsLine hformat hadd
      rcases hresult with rfl | rfl
      · exact Or.inr (Or.inr (fillEmpty_endsLine hends))
      · exact Or.inr (Or.inr (append_endsLine (Text.endsLine_closeLine text) hends))

end Edit
end YamlSplice
