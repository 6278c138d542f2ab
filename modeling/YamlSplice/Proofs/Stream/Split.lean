/-
  YamlSplice.Proofs.Stream.Split — cutting a text into documents, and joining them.

  Documents are well formed if the first has no separator and every other a separator line, no body
  has such a line, and every body but the last ends its last line.
  - `eq_split_iff`: of the documents that a text can be joined from, those that it is cut into are the
    well-formed ones. So joining undoes cutting, and cutting undoes joining.
  - `wellFormed_line_iff` / `wellFormed_cons`: the documents of a text by its first line, and by its first
    document.
-/

import YamlSplice.Edit.Stream.Basic
import YamlSplice.Proofs.Text.Lines

namespace YamlSplice.Stream

open Text (IsClosed)

/-- A line, with its newline, that separates documents: three hyphens and nothing else, or a space or a
    tab behind them and then anything. -/
def SeparatorLine (line : Text) : Prop :=
  ∃ rest, '\n' ∉ rest ∧ (∀ c ∈ rest.head?, c = ' ' ∨ c = '\t') ∧ line = '-' :: '-' :: '-' :: rest ++ ['\n']

/-- No line of the text, with its newline, separates documents. -/
def Unseparated (text : Text) : Prop :=
  ∀ above line below, text = above ++ line ++ below → IsClosed above → ¬ SeparatorLine line

/-- Documents as a text is cut into them. -/
structure WellFormed (documents : List Document) : Prop where
  head : documents.head?.map Document.separator = some []
  tail : ∀ d ∈ documents.tail, SeparatorLine d.separator
  bodies : ∀ d ∈ documents, Unseparated d.body
  closed : ∀ d ∈ documents.dropLast, IsClosed d.body

/-! ## Separator lines -/

theorem separatorLine_iff {line : Text} (h : '\n' ∉ line) : SeparatorLine (line ++ ['\n']) ↔ isSeparator line = true := by
  constructor
  · rintro ⟨rest, -, hblank, hline⟩
    rw [List.append_cancel_right hline]
    cases rest with
    | nil => rfl
    | cons c rest => simpa [isSeparator] using hblank c rfl
  · intro hsep
    unfold isSeparator at hsep
    split at hsep
    · next rest =>
      refine ⟨rest, fun hmem => h (by simp [hmem]), fun c hc => ?_, rfl⟩
      cases rest with
      | nil => cases hc
      | cons d rest =>
        obtain rfl : d = c := by simpa using hc
        simpa using hsep
    · cases hsep

/-- What stands in front of the newline of a separator line has none of its own. -/
theorem SeparatorLine.exists_line {line : Text} (h : SeparatorLine line) :
    ∃ front, '\n' ∉ front ∧ line = front ++ ['\n'] ∧ isSeparator front = true := by
  obtain ⟨rest, hrest, hblank, rfl⟩ := h
  have hfront : '\n' ∉ '-' :: '-' :: '-' :: rest := by simpa using hrest
  exact ⟨_, hfront, rfl, (separatorLine_iff hfront).mp ⟨rest, hrest, hblank, rfl⟩⟩

/-! ## Bodies -/

theorem unseparated_last {line : Text} (h : '\n' ∉ line) : Unseparated line := by
  rintro above sep below rfl - hsep
  obtain ⟨front, -, rfl, -⟩ := hsep.exists_line
  exact h (by simp)

theorem unseparated_line_iff {line rest : Text} (h : '\n' ∉ line) :
    Unseparated (line ++ '\n' :: rest) ↔ isSeparator line = false ∧ Unseparated rest := by
  constructor
  · intro hwhole
    refine ⟨?_, fun above sep below hrest habove => ?_⟩
    · rw [← Bool.not_eq_true, ← separatorLine_iff h]
      exact hwhole [] _ rest (by simp) IsClosed.nil
    · exact hwhole (line ++ '\n' :: above) sep below (by simp [hrest]) (Text.isClosed_line_iff.mpr habove)
  · rintro ⟨hline, hrest⟩ above sep below htext habove hsep
    obtain ⟨front, hfront, rfl, hfrontSep⟩ := hsep.exists_line
    induction above using Text.by_lines with
    | last front' hfront' =>
      -- the separator is the first line
      obtain rfl := habove.eq_nil hfront'
      obtain ⟨rfl, -⟩ := Text.line_inj h hfront (by simpa using htext)
      rw [hfrontSep] at hline
      cases hline
    | cons first above hfirst _ =>
      obtain ⟨rfl, rfl⟩ := Text.line_inj h hfirst (by simpa using htext)
      exact hrest above _ below (by simp) (Text.isClosed_line_iff.mp habove) hsep

/-! ## Well-formed documents -/

/-- The documents of a text without separators. -/
theorem wellFormed_singleton {body : Text} : WellFormed [⟨[], body⟩] ↔ Unseparated body :=
  ⟨fun h => h.bodies _ List.mem_cons_self, fun h => ⟨rfl, by simp, by simpa using h, by simp⟩⟩

/-- The first document ends in front of a separator line; behind it others begin in the same way. -/
theorem wellFormed_cons {body : Text} {d : Document} {later : List Document} :
    WellFormed (⟨[], body⟩ :: d :: later) ↔
      Unseparated body ∧ IsClosed body ∧ SeparatorLine d.separator ∧ WellFormed (⟨[], d.body⟩ :: later) := by
  constructor
  · intro h
    obtain ⟨hbody, hbodies⟩ := List.forall_mem_cons.mp h.bodies
    obtain ⟨hclosed, hcloseds⟩ := List.forall_mem_cons.mp h.closed
    obtain ⟨hd, hlater⟩ := List.forall_mem_cons.mp h.tail
    obtain ⟨hdBody, hlaterBodies⟩ := List.forall_mem_cons.mp hbodies
    refine ⟨hbody, hclosed, hd, rfl, hlater, List.forall_mem_cons.mpr ⟨hdBody, hlaterBodies⟩, ?_⟩
    cases later with
    | nil => simp
    | cons next later =>
      obtain ⟨hdClosed, hlaterClosed⟩ := List.forall_mem_cons.mp hcloseds
      exact List.forall_mem_cons.mpr ⟨hdClosed, hlaterClosed⟩
  · rintro ⟨hbody, hclosed, hd, h⟩
    obtain ⟨hdBody, hlaterBodies⟩ := List.forall_mem_cons.mp h.bodies
    refine ⟨rfl, List.forall_mem_cons.mpr ⟨hd, h.tail⟩,
      List.forall_mem_cons.mpr ⟨hbody, List.forall_mem_cons.mpr ⟨hdBody, hlaterBodies⟩⟩,
      List.forall_mem_cons.mpr ⟨hclosed, ?_⟩⟩
    cases later with
    | nil => simp
    | cons next later =>
      obtain ⟨hdClosed, hlaterClosed⟩ := List.forall_mem_cons.mp h.closed
      exact List.forall_mem_cons.mpr ⟨hdClosed, hlaterClosed⟩

/-- A line in front of the first body that is no separator line. -/
theorem wellFormed_line_iff {line body : Text} {later : List Document} (h : '\n' ∉ line) :
    WellFormed (⟨[], line ++ '\n' :: body⟩ :: later) ↔
      isSeparator line = false ∧ WellFormed (⟨[], body⟩ :: later) := by
  cases later with
  | nil => rw [wellFormed_singleton, wellFormed_singleton, unseparated_line_iff h]
  | cons d later =>
    rw [wellFormed_cons, wellFormed_cons, unseparated_line_iff h, Text.isClosed_line_iff, and_assoc]

/-- Documents with the separators of well-formed ones. -/
theorem WellFormed.of_separators {documents later : List Document} (h : WellFormed documents)
    (hseparators : later.map Document.separator = documents.map Document.separator)
    (hbodies : ∀ d ∈ later, Unseparated d.body) (hclosed : ∀ d ∈ later.dropLast, IsClosed d.body) :
    WellFormed later := by
  refine ⟨?_, fun d hd => ?_, hbodies, hclosed⟩
  · rw [← List.head?_map, hseparators, List.head?_map]
    exact h.head
  · have hmem : d.separator ∈ (documents.map Document.separator).tail := by
      rw [← hseparators, ← List.map_tail]
      exact List.mem_map_of_mem hd
    rw [← List.map_tail] at hmem
    obtain ⟨e, he, hseparator⟩ := List.mem_map.mp hmem
    rw [← hseparator]
    exact h.tail e he

/-! ## Cutting by lines -/

theorem split_last {line : Text} (h : '\n' ∉ line) : split line = [⟨[], line⟩] := by
  rw [split, Text.lines_last h]
  rfl

theorem split_cons {line rest body : Text} {later : List Document} (h : '\n' ∉ line)
    (hrest : split rest = ⟨[], body⟩ :: later) :
    split (line ++ '\n' :: rest) =
      if isSeparator line then ⟨[], []⟩ :: ⟨line ++ ['\n'], body⟩ :: later
      else ⟨[], line ++ '\n' :: body⟩ :: later := by
  have hparts : splitLines (Text.lines rest) = (body, later) := by
    simp only [split, List.cons.injEq, Document.mk.injEq, true_and] at hrest
    exact Prod.ext hrest.1 hrest.2
  obtain ⟨next, more, hlines⟩ := List.exists_cons_of_ne_nil (Text.pieces_ne_nil '\n' rest)
  rw [← Text.lines] at hlines
  rw [split, Text.lines_cons h, hlines, splitLines, ← hlines, hparts]
  by_cases hline : isSeparator line = true
  · simp only [hline, if_true]
  · simp only [hline, Bool.false_eq_true, if_false]

/-- What a text is cut into is well formed. -/
theorem wellFormed_split (text : Text) : WellFormed (split text) := by
  induction text using Text.by_lines with
  | last line h =>
    rw [split_last h, wellFormed_singleton]
    exact unseparated_last h
  | cons line rest h ih =>
    have hrest : split rest = ⟨[], _⟩ :: _ := rfl
    rw [hrest] at ih
    rw [split_cons h hrest]
    by_cases hline : isSeparator line = true
    · have hempty : '\n' ∉ ([] : Text) := List.not_mem_nil
      rw [if_pos hline, wellFormed_cons]
      exact ⟨unseparated_last hempty, IsClosed.nil, (separatorLine_iff h).mpr hline, ih⟩
    · rw [if_neg hline, wellFormed_line_iff h]
      exact ⟨by simpa using hline, ih⟩

/-- Well-formed documents are what their text is cut into. -/
theorem split_join {documents : List Document} (h : WellFormed documents) : split (join documents) = documents := by
  obtain ⟨body, later, rfl⟩ : ∃ body later, documents = ⟨[], body⟩ :: later := by
    have hhead := h.head
    cases documents with
    | nil => cases hhead
    | cons d later =>
      obtain ⟨separator, body⟩ := d
      obtain rfl : separator = [] := by simpa using hhead
      exact ⟨body, later, rfl⟩
  have hjoin : ∀ body, join (⟨[], body⟩ :: later) = body ++ join later := fun body => by simp [join]
  rw [hjoin]
  -- on the documents, and for each on the lines of its body
  induction later generalizing body with
  | nil =>
    induction body using Text.by_lines with
    | last line hline => rw [join, List.flatMap_nil, List.append_nil, split_last hline]
    | cons line rest hline ih =>
      obtain ⟨hsep, hrest⟩ := (wellFormed_line_iff hline).mp h
      rw [List.append_assoc, List.cons_append, split_cons hline (ih hrest), hsep, if_neg Bool.false_ne_true]
  | cons d later ihLater =>
    induction body using Text.by_lines with
    | last line hline =>
      obtain ⟨-, hclosed, hd, hrest⟩ := wellFormed_cons.mp h
      obtain rfl := hclosed.eq_nil hline
      obtain ⟨front, hfront, hseparator, hsep⟩ := hd.exists_line
      have hbehind := ihLater d.body hrest fun body => by simp [join]
      have htext : [] ++ join (d :: later) = front ++ '\n' :: (d.body ++ join later) := by simp [join, hseparator]
      rw [htext, split_cons hfront hbehind, if_pos hsep, ← hseparator]
    | cons line rest hline ih =>
      obtain ⟨hsep, hrest⟩ := (wellFormed_line_iff hline).mp h
      rw [List.append_assoc, List.cons_append, split_cons hline (ih hrest), hsep, if_neg Bool.false_ne_true]

/-- A text is cut into the only well-formed documents that it can be joined from. -/
theorem eq_split_iff {text : Text} {documents : List Document} :
    documents = split text ↔ WellFormed documents ∧ join documents = text := by
  constructor
  · rintro rfl
    exact ⟨wellFormed_split text, join_split text⟩
  · rintro ⟨h, rfl⟩
    exact (split_join h).symm

/-- Three hyphens separate only if nothing but a blank follows them, and a newline ends the line. -/
example : split "---\n---\t#\n---x\n--- y\n---\r\n---".toList =
    [⟨[], []⟩, ⟨"---\n".toList, []⟩, ⟨"---\t#\n".toList, "---x\n".toList⟩,
      ⟨"--- y\n".toList, "---\r\n---".toList⟩] := by decide

end YamlSplice.Stream
