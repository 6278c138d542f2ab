/-
  YamlSplice.Proofs.Edit.OneKey — a key set or removed in a mapping laid out in rows.

  The document is a block mapping at the margin, its keys differ to the eye, the one to be changed can
  be located, and what is written for it are the lines of one row.
  - `apply_refines`: then the changed text is read as the changed mapping.
  - `apply_not_refines_colon_key`: where two keys look the same up to a colon, another one is removed.
-/

import YamlSplice.Proofs.Writing.Row

namespace YamlSplice.Layout

open Edit Value

variable {L : Leaves}

/-- In a block mapping at the margin, a key that can be located is set or removed as in a mapping. -/
theorem apply_refines {format : Format} {keep : Bool} {name text result : Text} {value : Value} {ls : List Line}
    {rows : List (Value × Value)} (hreads : L.ReadBy format) (hL : L.Locatable [name]) (hname : Locatable name)
    (hblock : Block L 0 ls (.rows rows)) (hne : rows ≠ [])
    (hdiffer : Differ rows) (htext : Text.closeLine text = render ls)
    (hclosed : format.read text = format.read (Text.closeLine text))
    (hsimple : value.treatment = .remove ∨ value.treatment = .replace)
    (hwrites : value.treatment = .replace → WritesRow L format keep name value)
    (h : (apply format keep (.str name) value text).result = .ok result) :
    format.read text = .ok (.map rows) ∧
      ∃ loaded after, format.read result = .ok loaded ∧ loaded.Holds after ∧ Refines name value rows after := by
  have hnames : ∀ other ∈ [name], Locatable other := by simpa using hname
  have reading := marginRows_reading hreads
  obtain ⟨lead, sections, hrender, hsectioned, rfl⟩ := hblock.sectioned hL hnames hdiffer
  have hsections : sections ≠ [] := fun hnil => hne (by rw [hnil]; rfl)
  have hread : format.read text = .ok (.map (rowsOf sections)) := by
    rw [hclosed, htext, hrender]
    exact hsectioned.read_map reading hL.legible hsections
  have hunmerged : value.treatment ≠ .merge := by rcases hsimple with ht | ht <;> simp [ht]
  obtain ⟨changed, hresult, -, hchanged, hrefines⟩ := apply_sections reading hL.legible hsectioned hsections
    (htext.trans hrender) (by simp) hname.newline (fun ht => absurd ht hunmerged)
    (fun ht => (hwrites (hsimple.resolve_left ht)).section hL hnames) h
  refine ⟨hread, ?_⟩
  rcases hresult with ⟨rfl, rfl⟩ | rfl
  · exact ⟨_, _, hread, Or.inl rfl, hrefines⟩
  · obtain ⟨loaded, hloaded, hholds⟩ := hchanged.read reading hL.legible
    exact ⟨loaded, _, hloaded, hholds, hrefines⟩

theorem isWrittenKey_b : IsWrittenKey ['b'] := isWrittenKey_char (by decide) ⟨by simp, by decide, rfl⟩

theorem writable_y : Writable false 2 3 (.str ['y']) := writable_char rfl (by decide) ⟨by simp, by decide, rfl⟩ rfl

theorem locatable_b : Locatable ['b'] := locatable_char rfl (by decide)

/-- The second of two keys. -/
theorem apply_refines_second_key :
    (apply Format.yaml false (.str "b".toList) (.str "y".toList) "a: 1\nb: x\n".toList).result =
      .ok "a: 1\nb: y\n".toList ∧
    ∃ loaded after, Format.yaml.read "a: 1\nb: y\n".toList = .ok loaded ∧ loaded.Holds after ∧
      Refines "b".toList (.str "y".toList) [(.str "a".toList, .int 1), (.str "b".toList, .str "x".toList)] after := by
  have hblock : Block Leaves.simple 0 [⟨0, ['a', ':', ' ', '1']⟩, ⟨0, ['b', ':', ' ', 'x']⟩]
      (.rows [(.str ['a'], .int 1), (.str ['b'], .str ['x'])]) :=
    .charRow Leaves.plain_within (c := 'a') (d := '1') (by decide) (by decide) rfl rfl
      (.charRow Leaves.plain_within (c := 'b') (d := 'x') (by decide) (by decide) rfl rfl (.noRows 0))
  have hkept : Render.entryKeepingKey Format.yaml false ['b'] (.str ['y']) = .ok (render [⟨0, ['b', ':', ' ', 'y']⟩]) := rfl
  have htext : "a: 1\nb: x\n".toList = render [⟨0, ['a', ':', ' ', '1']⟩, ⟨0, ['b', ':', ' ', 'x']⟩] := rfl
  have hclosed : Text.closeLine "a: 1\nb: x\n".toList = "a: 1\nb: x\n".toList := rfl
  have hread : Format.yaml.read (Text.closeLine "a: 1\nb: x\n".toList) =
      .ok (.map [(.str ['a'], .int 1), (.str ['b'], .str ['x'])]) := by
    rw [hclosed, htext, Leaves.simple_readBy hblock]
    cbv
  have hlocated : Region.ofKey? "b".toList (Text.closeLine "a: 1\nb: x\n".toList) =
      some ⟨4, 10, ['\n'], [' ', 'x', '\n']⟩ := rfl
  have hexisting : valueUnder? [(.str ['a'], .int 1), (.str ['b'], .str ['x'])] (.str "b".toList) =
      some (.str ['x']) := by cbv
  have hdiffers : agrees (.str ['x']) (.str "y".toList) = false := by cbv
  have hresult := (Outcome.replaced _ _ _ _ hread (Or.inl rfl) hexisting hdiffers hlocated hkept).apply_eq_ok
  have hspliced : Region.splice ⟨4, 10, ['\n'], [' ', 'x', '\n']⟩ (Text.closeLine "a: 1\nb: x\n".toList)
      (render [⟨0, ['b', ':', ' ', 'y']⟩]) = "a: 1\nb: y\n".toList := rfl
  rw [hspliced] at hresult
  have hdiffer : Differ [(.str ['a'], .int 1), (.str ['b'], .str ['x'])] := by simp [Differ, keyText, written]
  exact ⟨hresult, (apply_refines Leaves.simple_readBy (Leaves.simple_locatable _) locatable_b hblock (by simp) hdiffer
    (hclosed.trans htext) (by rw [hclosed]) (Or.inr rfl)
    (fun _ => writable_y.writesRow isWrittenKey_b (.scalar rfl (same_of_isPlainKey rfl))) hresult).2⟩

/-- A colon with no white space behind it is part of a key for the reader, and the end of one for the search:
    the line of another key is removed. -/
theorem apply_not_refines_colon_key :
    Format.yaml.read "b:c: 1\nb: 2\n".toList = .ok (.map [(.str "b:c".toList, .int 1), (.str "b".toList, .int 2)]) ∧
    (apply Format.yaml false (.str "b".toList) .null "b:c: 1\nb: 2\n".toList).result = .ok "b: 2\n".toList ∧
    Format.yaml.read "b: 2\n".toList = .ok (.map [(.str "b".toList, .int 2)]) ∧
    ¬ Refines "b".toList .null [(.str "b:c".toList, .int 1), (.str "b".toList, .int 2)] [(.str "b".toList, .int 2)] := by
  refine ⟨by cbv, by cbv, by cbv, fun hrefines => ?_⟩
  have hgone : isCalled (.str "b".toList) (.str "b".toList) = false := hrefines.removed rfl _ List.mem_cons_self
  have hcalled : isCalled (.str "b".toList) (.str "b".toList) = true := by cbv
  rw [hcalled] at hgone
  cases hgone

end YamlSplice.Layout
