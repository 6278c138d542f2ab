/-
  YamlSplice.Proofs.Writing.Page — what a page holds while block collections are written.

  Between two nodes a page is at a column, behind indentation and marks (`At`), or behind text (`Behind`).
  Indentation leads from the one to the other, and a plain scalar back again.
  - `plain_at` / `plain_apart`: a plain scalar that is not folded is written as it stands.
  - `traits_plain`: a line of words may be plain.
-/

import YamlSplice.Proofs.Yaml.Plain
import YamlSplice.Yaml.Write

namespace YamlSplice.Yaml

namespace Page

variable {p : Page} {column : Nat} {text word : Text}

theorem put_put (p : Page) (a b : Text) : (p.put a).put b = p.put (a ++ b) := by
  simp [put, Nat.add_assoc]

/-! ## Places on a page -/

/-- The page ends at a column, and only indentation and marks stand on its last line. -/
structure At (p : Page) (column : Nat) (text : Text) : Prop where
  text : p.text = text
  column : p.column = column
  spaced : p.spaced = true
  atMargin : p.atMargin = true
  openEnded : p.openEnded = false

/-- The page ends at a column, directly behind a mark. -/
structure Marked (p : Page) (column : Nat) (text : Text) : Prop where
  text : p.text = text
  column : p.column = column
  spaced : p.spaced = false
  atMargin : p.atMargin = true
  openEnded : p.openEnded = false

/-- The page ends at a column, directly behind text. -/
structure Behind (p : Page) (column : Nat) (text : Text) : Prop where
  text : p.text = text
  column : p.column = column
  spaced : p.spaced = false
  atMargin : p.atMargin = false
  openEnded : p.openEnded = false

/-- The page has these lines, the last of which is still to be ended. -/
def Ends (p : Page) (lines : Text) : Prop := ∃ column text, p.Behind column text ∧ lines = text ++ ['\n']

theorem at_start : ({} : Page).At 0 [] := ⟨rfl, rfl, rfl, rfl, rfl⟩

theorem At.indentTo (h : p.At column text) : (p.indentTo column).At column text := by
  have hsame : p.indentTo column = p := by simp [Page.indentTo, h.column, h.spaced, h.atMargin]
  rwa [hsame]

theorem Ends.indentTo {lines : Text} (h : p.Ends lines) (column : Nat) :
    (p.indentTo column).At column (lines ++ List.replicate column ' ') := by
  obtain ⟨_, body, h, rfl⟩ := h
  have hbroken : p.indentTo column = if 0 < column then
      { (p.breakLine '\n').put (List.replicate column ' ') with spaced := true } else p.breakLine '\n' := by
    simp [Page.indentTo, h.atMargin, breakLine]
  rw [hbroken]
  split
  · exact ⟨by rw [← h.text, ← text_breakLine, ← text_put]; rfl, by simp [put, breakLine], rfl, rfl, h.openEnded⟩
  · next hzero =>
    obtain rfl : column = 0 := Nat.eq_zero_of_not_pos hzero
    exact ⟨by rw [text_breakLine, h.text]; simp, rfl, rfl, rfl, h.openEnded⟩

theorem At.mark (h : p.At column text) : (p.mark ['-']).Marked (column + 1) (text ++ ['-']) := by
  have hsign : p.mark ['-'] = { p.put ['-'] with spaced := false, atMargin := p.atMargin, openEnded := false } := by
    simp [Page.mark, sign, h.spaced, close]
  rw [hsign]
  exact ⟨by rw [← h.text, ← text_put]; rfl, by simp [put, h.column], rfl, h.atMargin, rfl⟩

theorem At.sign (h : p.At column text) (s : Text) : (p.sign s).Ends (text ++ (s ++ ['\n'])) := by
  have hsign : p.sign s = { p.put s with spaced := false, atMargin := false, openEnded := false } := by
    simp [Page.sign, h.spaced, close]
  rw [hsign]
  refine ⟨_, text ++ s, ⟨by rw [← h.text, ← text_put]; rfl, rfl, rfl, rfl, rfl⟩, by simp⟩

theorem indentTo_openEnded (p : Page) (column : Nat) (b : Bool) :
    ({ p with openEnded := b }).indentTo column = { p.indentTo column with openEnded := b } := by
  unfold Page.indentTo
  simp only [breakLine, put]
  split <;> split <;> rfl

theorem Marked.indentTo (h : p.Marked column text) : (p.indentTo (column + 1)).At (column + 1) (text ++ [' ']) := by
  have hput : p.indentTo (column + 1) = { p.put [' '] with spaced := true } := by
    have hleft : ¬ column + 1 < column := by omega
    have hone : column + 1 - column = 1 := by omega
    simp [Page.indentTo, h.atMargin, h.column, hleft, hone]
  rw [hput]
  exact ⟨by rw [← h.text, ← text_put]; rfl, by simp [put, h.column], rfl, h.atMargin, h.openEnded⟩

theorem Behind.close (h : p.Behind column text) : (p.close [':']).Behind (column + 1) (text ++ [':']) :=
  ⟨by rw [← h.text, ← text_put]; rfl, by simp [Page.close, put, h.column], rfl, rfl, rfl⟩

/-- Two signs apart from what stands before them. -/
theorem brackets_apart (hspaced : p.spaced = false) (a b : Char) :
    ((p.sign [a]).close [b]).Ends (p.text ++ ' ' :: ([a, b] ++ ['\n'])) := by
  have htext : ((p.sign [a]).close [b]).text = p.text ++ [' ', a, b] := by
    have hclose : ((p.sign [a]).close [b]).text = (p.put [' ', a]).text ++ [b] := by
      rw [← text_put, Page.sign, hspaced]
      rfl
    rw [hclose, text_put, List.append_assoc]
    rfl
  exact ⟨_, _, ⟨htext, rfl, rfl, rfl, rfl⟩, by simp⟩

/-! ## Plain scalars -/

theorem gap_of_mem_cons {c : Char} {n : Nat} {pieces : List Piece} (hc : c ≠ ' ') (h : Piece.gap n ∈ Piece.cons c pieces) :
    Piece.gap n ∈ pieces := by
  unfold Piece.cons at h
  rw [if_neg (by simpa using hc)] at h
  by_cases hkept : Style.isKept c = true
  · rw [if_pos hkept] at h
    split at h <;> simpa using h
  · rw [if_neg hkept] at h
    split at h <;> simpa using h

/-- Only a text with a space has a gap. -/
theorem space_of_gap {n : Nat} (h : Piece.gap n ∈ Piece.ofText text) : ' ' ∈ text := by
  induction text with
  | nil => cases h
  | cons c rest ih =>
    by_cases hc : c = ' '
    · exact hc ▸ List.mem_cons_self
    · exact List.mem_cons_of_mem _ (ih (gap_of_mem_cons hc h))

theorem plainPieces_eq_put {fold : Bool} {indent : Nat} {pieces : List Piece}
    (h : fold = true → (∀ n, Piece.gap n ∉ pieces) ∨ p.column + (pieces.flatMap Piece.text).length ≤ width) :
    plainPieces fold indent p pieces = p.put (pieces.flatMap Piece.text) := by
  induction pieces generalizing p with
  | nil => rfl
  | cons piece rest ih =>
    have hrest : plainPieces fold indent (p.put piece.text) rest = p.put (piece.text ++ rest.flatMap Piece.text) := by
      rw [← put_put]
      refine ih fun hfold => (h hfold).imp (fun h n hn => h n (List.mem_cons_of_mem _ hn)) fun h => ?_
      rw [List.flatMap_cons, List.length_append] at h
      simp only [put]
      omega
    cases piece with
    | word | breaks => exact hrest
    | gap count =>
      have hstays : p.mayFold fold count = false := by
        cases fold with
        | false => rfl
        | true =>
          have hwidth := (h rfl).resolve_left fun h => h count List.mem_cons_self
          simp [mayFold]
          omega
      rw [plainPieces, hstays]
      exact hrest

/-- A scalar of this text is not folded if it starts at the column. -/
def Unfolded (fold : Bool) (column : Nat) (text : Text) : Prop :=
  fold = true → ' ' ∉ text ∨ column + text.length ≤ width

theorem plainPieces_ofText {fold : Bool} {indent : Nat} (h : Unfolded fold p.column word) :
    plainPieces fold indent p (Piece.ofText word) = p.put word := by
  have hpieces := Piece.flatMap_ofText word
  rw [plainPieces_eq_put, hpieces]
  rw [hpieces]
  exact fun hfold => (h hfold).imp_left fun hspace n hn => hspace (space_of_gap hn)

/-- A plain scalar at a column. -/
theorem plain_at {fold : Bool} {indent : Nat} (h : p.At column text) (hne : word ≠ []) (hfold : Unfolded fold column word) :
    (p.plain fold indent word).Behind (column + word.length) (text ++ word) := by
  have hunfolded : Unfolded fold p.afterText.column word := by simpa only [afterText, h.column] using hfold
  have hput : p.plain fold indent word = p.afterText.put word := by
    rw [Page.plain, if_neg (by simpa using hne), if_pos h.spaced, plainPieces_ofText hunfolded]
  rw [hput]
  exact ⟨by rw [← h.text, ← text_put]; rfl, by simp [put, afterText, h.column], rfl, rfl, h.openEnded⟩

/-- A plain scalar apart from what stands before it. -/
theorem plain_apart {fold : Bool} {indent : Nat} (hspaced : p.spaced = false) (hopen : p.openEnded = false) (hne : word ≠ [])
    (hfold : Unfolded fold (p.column + 1) word) :
    (p.plain fold indent word).Ends (p.text ++ ' ' :: (word ++ ['\n'])) := by
  have hput : p.plain fold indent word = (p.put [' ']).afterText.put word := by
    rw [Page.plain, if_neg (by simpa using hne), if_neg (by simp [hspaced]), plainPieces_ofText hfold]
  rw [hput]
  refine ⟨_, p.text ++ ' ' :: word, ⟨?_, rfl, rfl, rfl, hopen⟩, by simp⟩
  have htext : ((p.put [' ']).afterText.put word).text = (p.put [' ']).text ++ word := text_put _ _
  rw [htext, text_put]
  simp

end Page

/-! ## The plain style -/

namespace Style

theorem empty_of_ne_nil {text : Text} (h : text ≠ []) : (traits text).empty = false := by
  unfold traits
  rw [if_neg (by simpa using h)]

/-- What may be plain has no line breaks, and no sign of something else. -/
theorem line_of_plain {text : Text} (hne : text ≠ []) (h : (traits text).plain = true) :
    (traits text).multiline = false ∧ hasSign text = false := by
  unfold traits at h ⊢
  rw [if_neg (by simpa using hne)] at h ⊢
  simp only [Bool.and_eq_true, Bool.not_eq_true'] at h
  exact ⟨h.1.1.1.2, h.2⟩

theorem atMark_of_not_startsWith {mark : Char} {text : Text} (hmark : mark ≠ '\n')
    (h : Text.startsWith text [mark, mark, mark] = false) : atMark mark (text ++ ['\n']) = false := by
  match text with
  | [] | [a] => rfl
  | [a, b] => simp [atMark, hmark.symm]
  | a :: b :: c :: rest =>
    refine Bool.eq_false_iff.mpr fun hat => ?_
    simp only [List.cons_append, atMark, Bool.and_eq_true, beq_iff_eq] at hat
    obtain ⟨⟨⟨rfl, rfl⟩, rfl⟩, -⟩ := hat
    have hstarts : Text.startsWith (c :: c :: c :: rest) [c, c, c] = true := Text.startsWith_iff.mpr ⟨rest, rfl⟩
    rw [hstarts] at h
    cases h

/-- What may be plain is not taken for the mark of a document. -/
theorem atDocumentMark_of_plain {text : Text} (hne : text ≠ []) (h : (traits text).plain = true) :
    atDocumentMark (text ++ ['\n']) = false := by
  have hsign := (line_of_plain hne h).2
  simp only [hasSign, Bool.or_eq_false_iff] at hsign
  rw [atDocumentMark, atMark_of_not_startsWith (by decide) hsign.1.1.1, atMark_of_not_startsWith (by decide) hsign.1.1.2]
  rfl

theorem isOrdinary_of_isPlainChar {c : Char} (h : isPlainChar c = true) (htop : c ≠ Char.ofNat 0x10FFFF) :
    isOrdinary c = true := by
  have hmark := toNat_ne_of_isPlainChar h (by decide : isPlainChar '\uFEFF' = false)
  have htab := toNat_ne_of_isPlainChar h (by decide : isPlainChar '\t' = false)
  have hreturn := toNat_ne_of_isPlainChar h (by decide : isPlainChar '\r' = false)
  have hlast : c.toNat ≠ 0x10FFFF := fun hcode => htop (Char.toNat_inj.mp hcode)
  have hvalid : c.toNat < 0x110000 := c.valid.elim (fun h => Nat.lt_trans h (by decide)) (·.2)
  simp only [isPlainChar, isAllowed, Bool.and_eq_true, Bool.or_eq_true, decide_eq_true_eq, beq_iff_eq] at h
  simp only [isOrdinary, Bool.and_eq_true, Bool.or_eq_true, decide_eq_true_eq, beq_iff_eq, bne_iff_ne,
    Char.reduceToNat] at hmark htab hreturn ⊢
  omega

theorem isKept_of_isPlainChar {c : Char} (h : isPlainChar c = true) : isKept c = false := by
  have hbreak := isBreak_of_isInline (isInline_of_isPlainChar h)
  simp only [isBreak, Bool.or_eq_false_iff] at hbreak
  simp [isKept, hbreak]

theorem hasPair_eq_false {first second : Char → Bool} {text : Text} (h : ∀ c ∈ text, second c = false) :
    hasPair first second text = false := by
  refine List.any_eq_false.mpr fun pair hpair => ?_
  have hsecond := h pair.2 (List.mem_of_mem_tail (List.of_mem_zip hpair).2)
  simp [hsecond]

theorem hasInnerSign_eq_false {text : Text} (hcolon : ':' ∉ text) (hsign : '#' ∉ text) (before : Char) :
    hasInnerSign before text = false := by
  induction text generalizing before with
  | nil => rfl
  | cons c rest ih =>
    rw [List.mem_cons, not_or] at hcolon hsign
    have hc : (c == ':') = false := by simpa using Ne.symm hcolon.1
    have hd : (c == '#') = false := by simpa using Ne.symm hsign.1
    rw [hasInnerSign, hc, hd, ih hcolon.2 hsign.2]
    rfl

theorem isLeadingSign_of_isPlainStart {c : Char} (h : isPlainStart c = true) : isLeadingSign c = false := by
  have hsigns : ("#,[]\x7b\x7d&*!|>'\"%@".toList.all fun x => !isPlainStart x) = true := by decide
  rw [Bool.eq_false_iff]
  intro hsign
  simp only [isLeadingSign, Bool.or_eq_true, List.contains_iff_mem, beq_iff_eq] at hsign
  rcases hsign with hmem | hcode
  · have hno := List.all_eq_true.mp hsigns c hmem
    simp [h] at hno
  · simp [isPlainStart, hcode] at h

theorem hasLeadingSign_of_opensPlain {text : Text} (h : opensPlain text = true) : hasLeadingSign text = false := by
  unfold opensPlain at h
  split at h
  · have hwhite := isWhite_of_isPlainChar h
    have hbreak := isBreak_of_isInline (isInline_of_isPlainChar h)
    simp [hasLeadingSign, atWhite, hwhite, hbreak, isLeadingSign]
  · simp [hasLeadingSign, isLeadingSign_of_isPlainStart h, isPlainStart_ne h (by decide : isPlainStart '?' = false),
      isPlainStart_ne h (by decide : isPlainStart ':' = false), isPlainStart_ne h (by decide : isPlainStart '-' = false)]
  · cases h

/-- Words on a line may be written plain, if they are not taken for the mark of a document. -/
theorem traits_plain {text : Text} (h : IsPhrase text) (hdashes : Text.startsWith text ['-', '-', '-'] = false)
    (hdots : Text.startsWith text ['.', '.', '.'] = false) (htop : Char.ofNat 0x10FFFF ∉ text) :
    (traits text).plain = true := by
  have hkept : ∀ c ∈ text, isKept c = false := fun c hc => by
    rcases h.words.mem c hc with hplain | rfl
    · exact isKept_of_isPlainChar hplain
    · decide
  have hordinary : text.all isOrdinary = true := List.all_eq_true.mpr fun c hc => by
    rcases h.words.mem c hc with hplain | rfl
    · exact isOrdinary_of_isPlainChar hplain fun hlast => htop (hlast ▸ hc)
    · decide
  have hedge : ∀ c, isPlainChar c = true → (c == ' ' || isKept c) = false := fun c hc => by
    simp [isKept_of_isPlainChar hc, isPlainChar_ne hc (by decide : isPlainChar ' ' = false)]
  have hmultiline : text.any isKept = false := List.any_eq_false.mpr fun c hc => by simp [hkept c hc]
  obtain ⟨x, rest, hx, hplain⟩ := h.words.exists_cons
  have hhead : (text.head?.any fun c => c == ' ' || isKept c) = false := by
    rw [hx]
    exact hedge x hplain
  have hlast : (text.getLast?.any fun c => c == ' ' || isKept c) = false := by
    cases hfound : text.getLast? with
    | none => rfl
    | some last => exact hedge last (h.words.getLast last hfound)
  have hsign : hasSign text = false := by
    have hcolon := h.words.not_mem (by decide : isPlainChar ':' = false) (by decide)
    have hcomment := h.words.not_mem (by decide : isPlainChar '#' = false) (by decide)
    have hleading := hasLeadingSign_of_opensPlain h.start
    rw [hx] at hdashes hdots hleading hcolon hcomment ⊢
    rw [List.mem_cons, not_or] at hcolon hcomment
    simp only [hasSign, hdashes, hdots, hleading, hasInnerSign_eq_false hcolon.2 hcomment.2 x, Bool.or_false]
  rw [traits, if_neg (by simpa using h.words.ne_nil)]
  simp only [hasPair_eq_false hkept, hordinary, hmultiline, hhead, hlast, hsign]
  rfl

end Style

/-- A text that is written plain under a tag. -/
structure IsPlain (tag : Tag) (text : Text) : Prop where
  ne_nil : text ≠ []
  traits : (Style.traits text).plain = true
  tag : Tag.ofPlain broadBoolWords text = tag

theorem IsPlain.choose {tag : Tag} {text : Text} (h : IsPlain tag text) (key : Bool) :
    Style.choose (Style.traits text) (tag == Tag.ofPlain broadBoolWords text) key false = .plain := by
  simp [Style.choose, h.tag, h.traits, Style.empty_of_ne_nil h.ne_nil, (Style.line_of_plain h.ne_nil h.traits).1]

namespace Write

theorem scalar_plain {tag : Tag} {text : Text} (h : IsPlain tag text) (indent : Nat) (key : Bool) (p : Page) :
    scalar ⟨some indent, key⟩ p tag text false = p.plain (!key) (indent + 2) text := by
  simp [scalar, h.choose, Page.scalar]

/-- A document that is a plain scalar is followed by the mark of its end. -/
theorem document_plain {tag : Tag} {text : Text} (h : IsPlain tag text) (hfold : Page.Unfolded true 0 text) :
    (document (.plain tag text)).text = text ++ "\n...\n".toList := by
  let p : Page := Page.plain {} true 2 text
  have hscalar : (node [] ⟨none, false⟩ (.plain tag text) {}).page = { p with openEnded := true } := by
    have hchoose := h.choose false
    simp [node, Outline.plain, mentioned, mention, scalar, hchoose, Page.scalar, p]
  have hbehind : p.Behind (0 + text.length) ([] ++ text) := Page.plain_at Page.at_start h.ne_nil hfold
  have hmargin : (p.indentTo 0).At 0 (text ++ ['\n']) := by
    have hends : p.Ends (text ++ ['\n']) := ⟨_, _, hbehind, rfl⟩
    simpa using hends.indentTo 0
  have hmark := (hmargin.sign "...".toList).indentTo 0
  have hdocument : document (.plain tag text) = ((p.indentTo 0).sign "...".toList).indentTo 0 := by
    have hshared : (Outline.plain tag text).sharedLabels = [] := rfl
    rw [document, hshared, hscalar, Page.indentTo_openEnded, if_pos rfl]
    rfl
  rw [hdocument, hmark.text]
  simp

/-- A key that is written plain stands on the line of its colon, if it is short. -/
theorem isSimpleKey_plain {tag : Tag} {text : Text} (h : IsPlain tag text) (hshort : (tagText tag).length + text.length < 128)
    (s : Sheet) : isSimpleKey [] s (.plain tag text) = true := by
  simp [isSimpleKey, Outline.plain, labelOf, mention, tagOf, hshort, Style.empty_of_ne_nil h.ne_nil,
    (Style.line_of_plain h.ne_nil h.traits).1]

end Write
end YamlSplice.Yaml
