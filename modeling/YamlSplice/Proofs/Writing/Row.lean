/-
  YamlSplice.Proofs.Writing.Row — what is written for a key is one row, for the key and the value.

  A writable value that is set under a written key is written as a row that is read back and found again, so this is
  what edits of texts in rows ask of the writer. The value has to agree with itself, which the number that is no number
  does not.
  - `Writable.keysApart`: the value keeps its keys apart.
  - `Writable.writesRow`: what is written are the lines of one row of a block.
  - `Writable.spelled`: the row starts with the key as it stands.
-/

import YamlSplice.Proofs.Value.Steady
import YamlSplice.Proofs.Writing.Block

namespace YamlSplice

namespace Layout

open Yaml Value Edit

variable {keep : Bool} {column start : Nat} {name : Text} {value : Value}

/-- No mapping in a writable value has a key twice. -/
theorem Writable.keysApart (h : Writable keep column start value) : KeysApart value := by
  induction h with
  | @scalar _ _ value _ _ hvalue =>
    cases value <;> cases hvalue
    all_goals exact .leaf rfl
  | list _ _ ih => exact .list ih
  | @map _ _ entries hkeys hdistinct _ ih =>
    refine .map (hdistinct.imp_of_mem fun {a b} ha hb hne => ?_) ih
    obtain ⟨name, hname, -⟩ := hkeys a ha
    obtain ⟨other, hother, -⟩ := hkeys b hb
    rw [hname, hother] at hne ⊢
    simpa [same] using hne

/-! ## Written entries -/

theorem IsWrittenKey.unfolded (h : IsWrittenKey name) : Page.Unfolded true 0 name := fun _ => Or.inl fun hmem =>
  absurd (h.key.word.2 _ hmem) (by decide)

/-- A written key is not spelled anew. -/
theorem entryKeepingKey_written (hname : IsWrittenKey name) (keep : Bool) (value : Value) :
    Render.entryKeepingKey Format.yaml keep name value = Render.entry Format.yaml keep (.str name) value := by
  have hphrase : IsPhrase name := isPhrase_of_word hname.key.word hname.key.start
  have hkey : Render.value Format.yaml false (.str name) = .ok (name ++ ['\n']) :=
    value_scalar rfl hphrase hname.plain hname.unfolded
  have hdropped : Text.dropTrailingNewlines (name ++ ['\n']) = name :=
    Text.dropTrailingNewlines_line (newline_not_mem_words hphrase.words)
  rw [Render.entryKeepingKey]
  cases Render.entry Format.yaml keep (.str name) value with
  | error fault => rfl
  | ok text =>
    simp only [hkey, bind, Except.bind, hdropped, if_true]
    cases Text.after? (name ++ [':']) text <;> rfl

/-- What is written for a key and a writable value are the lines of one row. -/
theorem Writable.entry (hname : IsWrittenKey name) (h : Writable keep 2 (name.length + 2) value) :
    ∃ ls, Render.entry Format.yaml keep (.str name) value = .ok (render ls) ∧ Compact 0 ls (.rows [(.str name, value)]) := by
  have hwhole : Writable keep 0 0 (.map [(.str name, value)]) := by
    refine .map (List.forall_mem_singleton.mpr ⟨name, rfl, hname⟩) (by simp) (List.forall_mem_singleton.mpr ?_)
    simpa [keyText, Value.written] using h
  obtain ⟨o, hwritten⟩ := hwhole.written
  rcases hwritten.node with ⟨_, hnode⟩ | ⟨first, block, parts, hnode⟩
  · cases hnode.flat
  · obtain ⟨ls, hwrite, htidy, hcompact⟩ := hnode.lines hwritten
    obtain rfl := hnode.rows rfl
    refine ⟨ls.map (Line.align keep), ?_, hcompact⟩
    have hplain : Render.plain value = value := by simpa [Render.plain, Render.plainEntries] using hwritten.plain
    rw [Render.entry, hplain, hwrite]
    simp only [outdentLists_render htidy]

theorem Compact.endsShown {ls : List Line} {parts : Parts} (h : Compact column ls parts) : EndsShown ls := by
  rintro last hlast rfl
  exact h.shown _ (List.mem_of_getLast? hlast) (Or.inl rfl)

/-- What is written to set a written key to a writable value is a row for it. -/
theorem Writable.writesRow (hname : IsWrittenKey name) (h : Writable keep 2 (name.length + 2) value) (hsteady : Steady value) :
    WritesRow Leaves.simple Format.yaml keep name value := by
  obtain ⟨ls, hentry, hcompact⟩ := h.entry hname
  have hkept := (entryKeepingKey_written hname keep value).trans hentry
  exact .of_written hentry hkept hcompact.block (fun l hl => hcompact.shown l (List.mem_of_mem_head? hl))
    hcompact.endsShown (isCalled_self _) (hsteady.agrees h.keysApart)

/-- What is written to set a written key starts with the key and a colon. -/
theorem Writable.spelled (hname : IsWrittenKey name) (h : Writable keep 2 (name.length + 2) value) :
    ∀ line, Render.entry Format.yaml keep (.str name) value = .ok line → Region.afterColon? name line ≠ none := by
  intro line hline
  obtain ⟨ls, hentry, hcompact⟩ := h.entry hname
  obtain rfl := Except.ok.inj (hentry.symm.trans hline)
  have hrow := hcompact.block.rowLines (Leaves.simple_locatable [name])
    (fun l hl => hcompact.shown l (List.mem_of_mem_head? hl)) hcompact.endsShown
  obtain ⟨spelling, rest, more, rfl, hkey, -⟩ := hrow.head
  have hsame : keyText (.str name) = spelling := hkey.text
  obtain rfl : name = spelling := hsame
  have htext : render (⟨0, name ++ ':' :: rest⟩ :: more) = name ++ ':' :: (rest ++ '\n' :: render more) := by
    simp [render_cons]
  rw [htext, afterColon?_key]
  exact Option.some_ne_none _

end Layout
end YamlSplice
