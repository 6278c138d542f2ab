/-
  YamlSplice.Proofs.Reading.KeyWord — a document of one row, its key any word of letters, digits and signs.

  Such a word may be spelled as a number or a truth value, and may start with a hyphen. It is read as what a plain
  scalar of its spelling is, if it is short enough to be a key (`read_row`); a longer word is no key (`read_long`).
-/

import YamlSplice.Proofs.Yaml.Unfold

namespace YamlSplice.Yaml

open Layout Lexer

/-- The word of a key is scanned as a plain scalar, also if it is a hyphen. -/
theorem IsKeyWord.token {word rest : Text} (h : IsKeyWord word) {s : Lexer} (hs : s.cursor.rest = word ++ ':' :: rest) :
    s.token = s.plainScalar := by
  have hmark := Leaves.atDocumentMark_word h.isWord rest
  by_cases hlone : word = ['-']
  · subst hlone
    exact Lexer.token_hyphen hs rfl fun _ => hmark
  · exact Lexer.token_phrase hs (opensPlain_append (h.opensPlain hlone) _) fun _ => hmark

/-! ## Tokens -/

/-- A row: a word, a colon, and a scalar behind a space. -/
def rowText (word first : Text) : Text := word ++ ':' :: ' ' :: (first ++ ['\n'])

section

variable {word first : Text} {value : Value}

theorem isAllowed_row (hword : IsKeyWord word) (hfirst : IsPhrase first) : (rowText word first).all isAllowed = true := by
  refine List.all_eq_true.mpr fun c hc => ?_
  simp only [rowText, List.mem_append, List.mem_cons, List.not_mem_nil, or_false] at hc
  rcases hc with hc | rfl | rfl | hc | rfl
  · have hplain := isPlainChar_of_isKeyChar (hword.chars c hc)
    simp only [isPlainChar, Bool.and_eq_true] at hplain
    exact hplain.1.1.1.1
  · decide
  · decide
  · exact (hfirst.words.isAllowed_inline c hc).1
  · decide

/-- The cursor at the start of a row. -/
def rowStart (word first : Text) : Cursor := { rest := rowText word first }

/-- The cursor at the colon of a row. -/
def rowColon (word first : Text) : Cursor := ⟨':' :: ' ' :: (first ++ ['\n']), 0 + word.length, 0, 0 + word.length⟩

theorem content_row (hword : IsKeyWord word) : content (rowStart word first) = (rowStart word first, false) := by
  obtain ⟨c, more, rfl⟩ := List.exists_cons_of_ne_nil hword.ne_nil
  have hc := isPlainChar_of_isKeyChar (hword.chars c List.mem_cons_self)
  exact content_of_char rfl (isPlainChar_ne hc (by decide)) (isPlainChar_ne hc (by decide))
    (isBreak_of_isInline (isInline_of_isPlainChar hc))

theorem unmarked_row (hword : IsKeyWord word) : (rowStart word first).rest.head? ≠ some '\uFEFF' := by
  obtain ⟨c, more, rfl⟩ := List.exists_cons_of_ne_nil hword.ne_nil
  have hc := isPlainChar_of_isKeyChar (hword.chars c List.mem_cons_self)
  simpa [rowStart, rowText] using isPlainChar_ne hc (by decide)

theorem scan_row (hword : IsKeyWord word) :
    Plain.scan false (-1 + 1) ((rowStart word first).rest.length + 1) (rowStart word first) =
      (word, rowColon word first, false) := by
  have hstop : Plain.Stops (-1 + 1) (rowColon word first) (rowColon word first) false := Plain.stops_colon rfl rfl
  exact Plain.scan_stopped (isWords_of_word hword.isWord) rfl (by simp [rowStart]) hstop

/-- The tokens of a row. -/
theorem tokens_row (hword : IsKeyWord word) (hlength : word.length ≤ 1024) (hfirst : IsPhrase first) :
    Tokens.ofText (rowText word first) =
      ⟨[.blockMappingStart, .key, .scalar word true, .value, .scalar first true, .blockEnd, .streamEnd], none⟩ := by
  let all : List Token :=
    [.blockMappingStart, .key, .scalar word true, .value, .scalar first true, .blockEnd, .streamEnd]
  have hends : Ends (ready (rowStart word first) [] (-1) []) all := by
    have hcontent : (content (rowStart word first)).1 = rowStart word first := by rw [content_row hword]
    have hopens : Opens .blockMappingStart (rowStart word first).column (-1) [] [-1] [] [.blockMappingStart] :=
      Or.inr ⟨by simp [rowStart], rfl, rfl⟩
    refine Ends.key_of_scan hcontent rfl (unmarked_row hword) hword.ne_nil hlength rfl (hword.token rfl)
      (scan_row hword) hopens ?_
    have hnone : Returns (0 : Nat) [] := .nil
    have hrest : ' ' :: (first ++ ['\n']) = ' ' :: (first ++ '\n' :: render ([] ++ [])) := rfl
    refine lexesLeaf_scalar hfirst .nil (hung_nil 0) hrest (by simp [rowStart]) hnone fun next hnext => ?_
    rw [List.append_nil]
    exact Ends.close (Ends.finish hnext) hnext (@Returns.nil (-1)) (by simp) (by simp)
  rw [Tokens.ofText, if_pos (isAllowed_row hword hfirst)]
  exact run_more hends (Nat.add_le_add_right (length_content_le (rowStart word first)) 2)

theorem run_step {fuel : Nat} {s a next : Lexer} (ha : s.arrive = .ok a) (hnext : a.token = .ok next)
    (hmore : next.tokens.head? ≠ some .streamEnd) : run (fuel + 1) s = run fuel next := by
  rw [arrive] at ha
  rw [run]
  cases hs : s.dropStale with
  | error fault =>
    rw [hs] at ha
    cases ha
  | ok t =>
    rw [hs] at ha
    have happroach : t.approach = .ok a := ha
    have hnot : (next.tokens.head? == some .streamEnd) = false := by simpa using hmore
    simp only [fetch, happroach, bind, Except.bind, hnext, hnot, Bool.false_eq_true, if_false]

/-- Behind too long a word the colon belongs to no key. -/
theorem tokens_long (hword : IsKeyWord word) (hlength : 1024 < word.length) (hfirst : IsPhrase first) :
    Tokens.ofText (rowText word first) = ⟨[.scalar word true], some .malformed⟩ := by
  let k : PendingKey := ⟨0, false, 0, 0, 0⟩
  let s : Lexer := { ready (rowColon word first) [.scalar word true] (-1) [] with keyAllowed := false, key := some k }
  let t : Lexer := { s with key := none }
  have hcontent : (content (rowStart word first)).1 = rowStart word first := by rw [content_row hword]
  have harrive : arrive (ready (rowStart word first) [] (-1) []) = .ok (ready (rowStart word first) [] (-1) []) := by
    have hright : (-1 : Int) ≤ (rowStart word first).column := by simp [rowStart]
    exact @arrive_right _ _ [] (-1) [] true hcontent (unmarked_row hword) hright
  have hscalar : token (ready (rowStart word first) [] (-1) []) = .ok s :=
    (hword.token rfl).trans (plainScalar_of_scan saveKey_ready (scan_row hword))
  -- the word is still pending as a key, but too far away
  have hstale : s.isStale k = true := by simp [isStale, s, k, ready, rowColon, hlength]
  have hdropped : s.dropStale = .ok t := dropStale_of_isStale rfl rfl hstale rfl
  have hcolon : content (rowColon word first) = (rowColon word first, false) :=
    content_of_char rfl (by decide) (by decide) (by decide)
  have hfetch : t.fetch = .error .malformed := by
    have harrived : t.arrive = .ok t := by
      have hunmarked : t.cursor.rest.head? ≠ some '\uFEFF' := by simp [t, s, ready, rowColon]
      rw [arrive_of_none rfl rfl hunmarked]
      have hheld : content t.cursor = (rowColon word first, false) := hcolon
      rw [hheld, unwind_of_le (by simp [t, s, ready])]
      rfl
    have happroach : t.approach = .ok t := by
      rw [arrive, dropStale_of_none rfl rfl] at harrived
      exact harrived
    have hvalue : t.token = t.value := token_colon rfl rfl
    rw [fetch, happroach]
    exact hvalue
  have hfault : ∀ fuel, run (fuel + 1) s = ⟨[.scalar word true], some .malformed⟩ := fun fuel => by
    rw [run, hdropped]
    simp only [hfetch]
    rfl
  have hlong : (rowText word first).length + 2 = (rowText word first).length + 1 + 1 := rfl
  rw [Tokens.ofText, if_pos (isAllowed_row hword hfirst), hlong]
  exact (run_step harrive hscalar (by simp [s, ready])).trans (hfault _)

/-! ## Nodes and values -/

/-- The nodes of a row. -/
def rowGraph (word first : Text) : Graph :=
  #[⟨.map, .mapping [(1, 2)]⟩, ⟨Tag.ofPlain boolWords word, .scalar word⟩, ⟨Tag.ofPlain boolWords first, .scalar first⟩]

theorem graph_row (hword : IsKeyWord word) (hlength : word.length ≤ 1024) (hfirst : IsPhrase first) :
    Graph.ofText (rowText word first) = .ok (rowGraph word first, some 0) := by
  rw [Graph.ofText, tokens_row hword hlength hfirst]
  rfl

/-- A word that is too long for a key makes the text no document. -/
theorem read_long (hword : IsKeyWord word) (hlength : 1024 < word.length) (hfirst : IsPhrase first) :
    read (rowText word first) = .error .malformed := by
  rw [read, readShared, Graph.ofText, tokens_long hword hlength hfirst]
  rfl

/-- A word of letters, digits and signs is a scalar with a value, and no sign of the language. -/
theorem IsKeyWord.tag (hword : IsKeyWord word) : (Tag.ofPlain boolWords word).isCollection = false ∧
    Tag.ofPlain boolWords word ≠ .merge ∧ Tag.ofPlain boolWords word ≠ .default := by
  have hnewline : '\n' ∉ word := hword.not_mem (by decide)
  have hends : Text.endsLine word = false := Bool.eq_false_iff.mpr fun hends =>
    hnewline (List.mem_of_getLast? (by simpa [Text.endsLine] using hends))
  have hne : ∀ (c : Char) (sign : Text), isKeyChar c = false → c ∈ sign → word ≠ sign := fun c sign hc hmem hsame =>
    hword.not_mem hc (hsame ▸ hmem)
  have hmerge : word ≠ ['<', '<'] := hne '<' _ (by decide) (by simp)
  have hdefault : word ≠ ['='] := hne '=' _ (by decide) (by simp)
  unfold Tag.ofPlain dropFinalNewline
  simp only [hends, Bool.false_eq_true, if_false, beq_iff_eq, hmerge, hdefault]
  refine ⟨?_, ?_, ?_⟩ <;> repeat' split
  all_goals simp [Tag.isCollection]

theorem leaf_row : (rowGraph word first).leaf 1 = (Scalar.value (Tag.ofPlain boolWords word) word).map fun value =>
    ⟨if Tag.ofPlain boolWords word == .float && Scalar.isNotANumber word then none else some 1, value⟩ := by
  simp [Graph.leaf, Graph.textOf?, Graph.isScalar, Graph.contentOf, Graph.tagOf, rowGraph]

theorem flatten_row (hword : IsKeyWord word) : (rowGraph word first).flatten 0 = .ok (rowGraph word first) := by
  have hentries : (rowGraph word first).entriesOf 0 = [(1, 2)] := rfl
  refine Graph.flatten_eq hentries fun e he => ?_
  rw [List.mem_singleton.mp he]
  exact hword.tag.2

/-- What is found at the start of a row: the mapping. -/
def rowFilling (word first : Text) : Filling := { graph := rowGraph word first, found := #[0] }

theorem part_first (hfirst : Scalar.Reads first value) : ∃ origin,
    (Fill.part 2).run (rowFilling word first) = .ok (.leaf ⟨origin, value⟩, rowFilling word first) := by
  have hnode : (rowGraph word first)[2]? = some ⟨Tag.ofPlain boolWords first, .scalar first⟩ := rfl
  obtain ⟨origin, hleaf, -⟩ := Graph.leaf_scalar hnode hfirst
  refine ⟨origin, Fill.part_leaf ?_ hleaf⟩
  rw [rowFilling, Graph.tagOf_eq hnode]
  exact hfirst.tag.1

/-- The cell of the mapping, or the fault of its key. -/
theorem cell_row (hword : IsKeyWord word) (hfirst : Scalar.Reads first value) : ∃ origin,
    (Fill.cell 0).run (rowFilling word first) = ((rowGraph word first).leaf 1).map fun leaf =>
      (.map [(leaf, .leaf ⟨origin, value⟩)], rowFilling word first) := by
  obtain ⟨origin, hsecond⟩ := @part_first word first value hfirst
  have htag : ((rowFilling word first).graph.tagOf 1).isCollection = false := hword.tag.1
  have hentries := @Fill.entries_run_eq (rowFilling word first) 0 [(1, 2)] rfl (flatten_row hword)
  refine ⟨origin, ?_⟩
  rw [Fill.cell, run_bind_of Fill.get_run]
  cases hleaf : (rowGraph word first).leaf 1 with
  | error fault =>
    have hkey : (Fill.key 1).run (rowFilling word first) = .error fault := run_bind_error (Fill.part_fault htag hleaf)
    have hentry : (Fill.entry (1, 2)).run (rowFilling word first) = .error fault := run_bind_error hkey
    rw [List.mapM_cons, run_bind_error hentry] at hentries
    exact run_bind_error hentries
  | ok leaf =>
    have hkey : (Fill.key 1).run (rowFilling word first) = .ok (leaf, rowFilling word first) := by
      rw [Fill.key, run_bind_of (Fill.part_leaf htag hleaf)]
      rfl
    have hentry : (Fill.entry (1, 2)).run (rowFilling word first) =
        .ok ((leaf, .leaf ⟨origin, value⟩), rowFilling word first) := by
      rw [Fill.entry, run_bind_of hkey, run_bind_of hsecond]
      rfl
    rw [List.mapM_cons, run_bind_of hentry] at hentries
    exact run_bind_of hentries

/-- A row is read as a mapping of one entry, whose key is what the word is the spelling of. -/
theorem read_row (hword : IsKeyWord word) (hlength : word.length ≤ 1024) (hphrase : IsPhrase first)
    (hfirst : Scalar.Reads first value) :
    read (rowText word first) =
      (Scalar.value (Tag.ofPlain boolWords word) word).map fun key => .map [(key, value)] := by
  obtain ⟨origin, hcell⟩ := @cell_row word first value hword hfirst
  have htop : (Fill.part 0).run { graph := rowGraph word first } = .ok (.collection 0, rowFilling word first) :=
    Fill.part_new rfl (by simp)
  rw [leaf_row] at hcell
  rw [read, readShared, graph_row hword hlength hphrase]
  simp only [bind, Except.bind]
  cases hscalar : Scalar.value (Tag.ofPlain boolWords word) word with
  | error fault =>
    rw [hscalar] at hcell
    have hfill : (Fill.allFrom 4 0).run (rowFilling word first) = .error fault := by
      rw [Fill.allFrom, run_bind_of Fill.get_run]
      exact run_bind_error hcell
    have hwhole : (Fill.whole 0).run { graph := rowGraph word first } = .error fault := by
      rw [Fill.whole, run_bind_of htop, run_bind_of Fill.get_run]
      exact run_bind_error hfill
    rw [hwhole]
    rfl
  | ok key =>
    rw [hscalar] at hcell
    obtain ⟨leaf, rfl, hfilled⟩ : ∃ leaf : Leaf, leaf.value = key ∧ (Fill.cell 0).run (rowFilling word first) =
        .ok (.map [(leaf, .leaf ⟨origin, value⟩)], rowFilling word first) := ⟨_, rfl, hcell⟩
    let s : Filling := { rowFilling word first with cells := #[.map [(leaf, .leaf ⟨origin, value⟩)]] }
    have hfill : (Fill.allFrom 4 0).run (rowFilling word first) = .ok ((), s) := by
      have hnext : (rowFilling word first).found[0]? = some 0 := rfl
      rw [Fill.allFrom, run_bind_of Fill.get_run]
      simp only [hnext]
      rw [run_bind_of hfilled]
      rfl
    have hwhole : (Fill.whole 0).run { graph := rowGraph word first } = .ok (.collection 0, s) := by
      rw [Fill.whole, run_bind_of htop, run_bind_of Fill.get_run]
      exact run_bind_of hfill
    have hfound : s.cell? 0 = some (.map [(leaf, .leaf ⟨origin, value⟩)]) := by
      have hindex : s.found.finIdxOf? 0 = some ⟨0, Nat.one_pos⟩ :=
        Array.finIdxOf?_eq_some_iff.mpr ⟨rfl, fun j hj => absurd hj (Nat.not_lt_zero j.val)⟩
      rw [Filling.cell?, hindex]
      rfl
    rw [hwhole]
    simp [pure, Except.pure, Except.map, Reading.ofPart, hfound, Reading.ofEntries, ofLeaf_value, s]

end

end YamlSplice.Yaml
