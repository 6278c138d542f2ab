/-
  YamlSplice.Proofs.Writing.Ends — what is written ends with a newline.

  A page can be ended if that brings a newline to its end: there is something on its last line, or the
  newline has been written already. Only an empty plain scalar writes nothing at all.
  - `node_complete`: behind a node inside a collection the page can be ended, since a mark or a colon
    stands in front of it. The root may leave the page empty, but then another mark follows.
  - `write_endsLine`: so every text that is written ends with a newline.
-/

import YamlSplice.Proofs.Writing.Page

namespace YamlSplice.Yaml

namespace Page

variable {p : Page}

/-- The page ends with a newline when its last line is ended. -/
def Endable (p : Page) : Prop := p.atMargin = false ∨ 0 < p.column ∨ p.written.head? = some '\n'

theorem close_endable (p : Page) (sign : Text) : (p.close sign).Endable := Or.inl rfl

theorem sign_endable (p : Page) (s : Text) : (p.sign s).Endable := close_endable _ _

theorem mark_endable (p : Page) (c : Char) : (p.mark [c]).Endable := by
  refine Or.inr (Or.inl ?_)
  simp only [mark, sign, close, put]
  split <;> simp

theorem Endable.endsLine_indentTo (h : p.Endable) : Text.endsLine (p.indentTo 0).text = true := by
  have hhead : (p.indentTo 0).written.head? = some '\n' := by
    simp only [indentTo, Nat.not_lt_zero, if_false]
    split
    · rfl
    · next hline =>
      rcases h with hmargin | hcolumn | hhead
      · exact absurd (by simp [hmargin]) hline
      · exact absurd (by simp [hcolumn]) hline
      · exact hhead
  simp [Text.endsLine, text, hhead]

/-! ## Scalars -/

theorem plainPieces_atMargin {fold : Bool} {indent : Nat} {pieces : List Piece} (h : p.atMargin = false) :
    (plainPieces fold indent p pieces).atMargin = false := by
  induction pieces generalizing p with
  | nil => exact h
  | cons piece rest ih =>
    cases piece with
    | word | breaks => exact ih h
    | gap count =>
      rw [plainPieces]
      by_cases hfold : p.mayFold fold count = true
      · rw [if_pos hfold]
        exact ih rfl
      · rw [if_neg hfold]
        exact ih h

theorem literalLines_head {indent : Nat} {ls : List Text} (h : p.written.head? = some '\n') :
    (literalLines p indent ls).written.head? = some '\n' := by
  induction ls generalizing p with
  | nil => exact h
  | cons line rest ih => exact ih rfl

/-- A plain scalar may be without text, every other one is seen on the page. -/
theorem scalar_endable {style : Style} {key : Bool} {indent : Nat} {text : Text} (h : style = .plain → p.Endable) :
    (p.scalar style key indent text).Endable := by
  cases style with
  | plain =>
    by_cases htext : text.isEmpty = true
    · rw [scalar, plain, if_pos htext]
      exact h rfl
    · rw [scalar, plain, if_neg htext]
      exact Or.inl (plainPieces_atMargin rfl)
  | single | double => exact close_endable _ _
  | literal => exact Or.inr (Or.inr (literalLines_head rfl))

end Page

namespace Write

open Page (Endable)

variable {shared : List Nat}

/-! ## Nodes -/

/-- What a node in its place leaves: a page that can be ended, or at the root one that ends in a plain
    scalar. -/
def Complete (place : Place) (p : Page) : Prop := p.Endable ∨ place.indent = none ∧ p.openEnded = true

/-- A node is a reference, or written behind its anchor, or written alone. -/
theorem mentioned_cases {P : Page → Prop} {s : Sheet} {label : Option Nat} {node : Sheet → Sheet}
    (again : ∀ text, P (s.page.sign text)) (first : ∀ text met, P (node ⟨s.page.sign text, met⟩).page)
    (alone : P (node s).page) : P (mentioned shared s label node).page := by
  unfold mentioned
  split
  · exact again _
  · exact first _ _
  · exact alone

theorem scalar_complete {place : Place} {p : Page} {tag : Tag} {text : Text} {literal : Bool}
    (h : p.Endable ∨ place.indent = none) : Complete place (scalar place p tag text literal) := by
  rcases h with h | h
  · exact Or.inl (Page.scalar_endable fun hplain => by simpa [hplain] using h)
  · by_cases hplain : Style.choose (Style.traits text) (tag == Tag.ofPlain broadBoolWords text) place.key literal = .plain
    · exact Or.inr ⟨h, by simp [scalar, hplain, h]⟩
    · exact Or.inl (Page.scalar_endable fun h => absurd h hplain)

mutual

theorem node_complete (o : Outline) {place : Place} {s : Sheet} (h : s.page.Endable ∨ place.indent = none) :
    Complete place (node shared place o s).page := by
  cases o with
  | scalar tag text literal label =>
    rw [node]
    exact mentioned_cases (fun _ => Or.inl (Page.sign_endable _ _))
      (fun _ _ => scalar_complete (Or.inl (Page.sign_endable _ _))) (scalar_complete h)
  | sequence items =>
    rw [node]
    left
    split
    · exact Page.close_endable _ _
    · next hitems => exact sequence_endable items (by simpa using hitems)
  | mapping isSet entries label =>
    rw [node]
    left
    have hentries : ∀ s : Sheet, (if entries.isEmpty then { s with page := (s.page.sign ['\x7b']).close ['\x7d'] }
        else mapping shared (inner place.indent) entries s).page.Endable := by
      intro s
      split
      · exact Page.close_endable _ _
      · next hentries => exact mapping_endable entries (by simpa using hentries)
    exact mentioned_cases (fun _ => Page.sign_endable _ _) (fun _ _ => hentries _) (hentries _)

/-- The page can be ended behind the last item, whatever stands in front of the sequence. -/
theorem sequence_endable (items : List Outline) {indent : Nat} {s : Sheet} (h : items ≠ []) :
    (sequence shared indent items s).page.Endable := by
  cases items with
  | nil => exact absurd rfl h
  | cons item rest =>
    cases rest with
    | nil =>
      rw [sequence, sequence]
      exact (node_complete item (Or.inl (Page.mark_endable _ _))).resolve_right (by simp)
    | cons next rest =>
      rw [sequence]
      exact sequence_endable (next :: rest) (List.cons_ne_nil _ _)

theorem mapping_endable (entries : List (Outline × Outline)) {indent : Nat} {s : Sheet} (h : entries ≠ []) :
    (mapping shared indent entries s).page.Endable := by
  cases entries with
  | nil => exact absurd rfl h
  | cons entry rest =>
    obtain ⟨key, value⟩ := entry
    cases rest with
    | nil =>
      rw [mapping, mapping]
      refine (node_complete value (Or.inl ?_)).resolve_right (by simp)
      split
      · exact Page.close_endable _ _
      · exact Page.mark_endable _ _
    | cons next rest =>
      rw [mapping]
      exact mapping_endable (next :: rest) (List.cons_ne_nil _ _)

end

theorem document_endsLine (o : Outline) : Text.endsLine (document o).text = true := by
  have hroot : Complete ⟨none, false⟩ (node o.sharedLabels ⟨none, false⟩ o {}).page := node_complete o (Or.inr rfl)
  rw [document]
  generalize (node o.sharedLabels ⟨none, false⟩ o {}).page = p at hroot
  have hopen : (p.indentTo 0).openEnded = p.openEnded := by
    rw [show p.indentTo 0 = _ from Page.indentTo_openEnded p 0 p.openEnded]
  split
  · exact (Page.sign_endable _ _).endsLine_indentTo
  · next hclosed => exact (hroot.resolve_right fun h => hclosed (hopen.trans h.2)).endsLine_indentTo

end Write

/-- What is written ends with a newline. -/
theorem write_endsLine {value : Value} {text : Text} (h : write value = .ok text) : Text.endsLine text = true := by
  unfold write writeShared at h
  cases houtline : (Outline.ofValue value).run [] with
  | error e => simp [houtline, bind, Except.bind] at h
  | ok outline =>
    rw [houtline] at h
    cases h
    exact Write.document_endsLine outline.1

end YamlSplice.Yaml
