/-
  YamlSplice.Proofs.Yaml.Lexer — steps of the lexer over block collections.

  `Ends s all` says that the lexer gets from `s` to the end of the text, and that the tokens are `all`.
  It depends on the place of the next content only, and the lemmas below carry it back over one step
  each: a key with its colon, a plain scalar, an empty collection in brackets, the mark of an item, the
  end of a block, the end of the text.
-/

import YamlSplice.Proofs.Yaml.Lines

namespace YamlSplice

/-! ## Empty collections -/

namespace Layout.Parts

/-- What an empty collection looks like on the line of its key or its mark. -/
def brackets : Parts → Text
  | rows _ => "\x7b\x7d".toList
  | items _ => "[]".toList

/-- The tokens of the brackets. -/
def flowStart : Parts → Yaml.Token
  | rows _ => .flowMappingStart
  | items _ => .flowSequenceStart

def flowEnd : Parts → Yaml.Token
  | rows _ => .flowMappingEnd
  | items _ => .flowSequenceEnd

end Layout.Parts

namespace Yaml.Lexer

open Layout Cursor

/-! ## Runs -/

/-- Moves to the next token, as each step does first. -/
def arrive (s : Lexer) : Except Fault Lexer := s.dropStale.bind approach

theorem run_eq_iff {fuel : Nat} {s : Lexer} {all : List Token} :
    run (fuel + 1) s = ⟨all, none⟩ ↔ ∃ a next, s.arrive = .ok a ∧ a.token = .ok next ∧
      if next.tokens.head? == some .streamEnd then next.tokens.reverse = all else run fuel next = ⟨all, none⟩ := by
  rw [run, arrive]
  cases s.dropStale with
  | error fault => simp [Except.bind]
  | ok t =>
    simp only [fetch, Except.bind, bind]
    cases t.approach with
    | error fault => simp
    | ok a =>
      simp only [Except.ok.injEq, exists_and_left, exists_eq_left']
      cases a.token with
      | error fault => simp
      | ok next =>
        simp only [Except.ok.injEq, exists_eq_left']
        split <;> simp

theorem run_more {fuel more : Nat} {s : Lexer} {all : List Token} (h : run fuel s = ⟨all, none⟩)
    (hle : fuel ≤ more) : run more s = ⟨all, none⟩ := by
  induction fuel generalizing more s with
  | zero => simp [run] at h
  | succ fuel ih =>
    obtain ⟨more, rfl⟩ : ∃ n, more = n + 1 := ⟨more - 1, by omega⟩
    obtain ⟨a, next, ha, hnext, hrest⟩ := run_eq_iff.mp h
    refine run_eq_iff.mpr ⟨a, next, ha, hnext, ?_⟩
    split
    · next hend => rwa [if_pos hend] at hrest
    · next hend =>
      rw [if_neg hend] at hrest
      exact ih hrest (by omega)

/-- The lexer gets to the end of the text, with these tokens in all. The steps are counted by what is
    left behind the next content, so the place before it is of no account. -/
def Ends (s : Lexer) (all : List Token) : Prop := run ((content s.cursor).1.rest.length + 2) s = ⟨all, none⟩

theorem Ends.of_step {s a next : Lexer} {all : List Token} (h : Ends next all) (ha : s.arrive = .ok a)
    (hnext : a.token = .ok next) (hmore : next.tokens.head? ≠ some .streamEnd)
    (hless : (content next.cursor).1.rest.length < (content s.cursor).1.rest.length) : Ends s all := by
  refine run_eq_iff.mpr ⟨a, next, ha, hnext, ?_⟩
  rw [if_neg (by simpa using hmore)]
  exact run_more h (by omega)

theorem Ends.of_arrive_eq {s t : Lexer} {all : List Token} (h : Ends t all) (harrive : s.arrive = t.arrive)
    (hcontent : (content s.cursor).1 = (content t.cursor).1) : Ends s all := by
  rw [Ends, hcontent]
  obtain ⟨a, next, ha, hnext, hrest⟩ := run_eq_iff.mp h
  exact run_eq_iff.mpr ⟨a, next, harrive ▸ ha, hnext, hrest⟩

/-! ## Between two tokens -/

/-- A lexer outside flow collections that no key is pending on. -/
def ready (c : Cursor) (done : List Token) (indent : Int) (outer : List Int) : Lexer :=
  ⟨c, done, done.length, indent, outer, true, none, []⟩

theorem dropStale_of_none {s : Lexer} (hkey : s.key = none) (houter : s.outerKeys = []) : s.dropStale = .ok s := by
  cases s
  cases hkey
  cases houter
  rfl

/-- A pending key on the line of the cursor, and not too far away, is kept. -/
theorem dropStale_of_fresh {s : Lexer} {k : PendingKey} (hkey : s.key = some k) (houter : s.outerKeys = [])
    (hline : k.line = s.cursor.line) (hnear : s.cursor.index - k.index ≤ 1024) : s.dropStale = .ok s := by
  have hfresh : s.isStale k = false := by simp [isStale, hline, hnear]
  cases s
  cases hkey
  cases houter
  simp [dropStale, dropIfStale, hfresh, pure, Except.pure, bind, Except.bind]

/-- A pending key that can no longer be one is given up, unless it is required. -/
theorem dropStale_of_isStale {s : Lexer} {k : PendingKey} (hkey : s.key = some k) (houter : s.outerKeys = [])
    (hstale : s.isStale k = true) (hrequired : k.required = false) : s.dropStale = .ok { s with key := none } := by
  cases s
  cases hkey
  cases houter
  simp [dropStale, dropIfStale, hstale, hrequired, pure, Except.pure, bind, Except.bind]

/-- A pending key on another line is given up, unless it is required. -/
theorem dropStale_of_stale {s : Lexer} {k : PendingKey} (hkey : s.key = some k) (houter : s.outerKeys = [])
    (hline : k.line < s.cursor.line) (hrequired : k.required = false) : s.dropStale = .ok { s with key := none } :=
  dropStale_of_isStale hkey houter (by simp [isStale, Nat.ne_of_lt hline]) hrequired

/-- The key of a flow collection is kept while it is fresh. -/
theorem dropStale_of_outer {s : Lexer} {key : Option PendingKey} (hkey : s.key = none) (houter : s.outerKeys = [key])
    (hfresh : ∀ k ∈ key, s.isStale k = false) : s.dropStale = .ok s := by
  cases s
  cases hkey
  cases houter
  cases key with
  | none => rfl
  | some k => simp [dropStale, dropIfStale, hfresh k rfl, pure, Except.pure, bind, Except.bind]

theorem skipToToken_eq {s : Lexer} (hmark : s.cursor.rest.head? ≠ some '\uFEFF') (houter : s.outerKeys = []) :
    s.skipToToken =
      { s with cursor := (content s.cursor).1, keyAllowed := s.keyAllowed || (content s.cursor).2 } := by
  simp [skipToToken, hmark, content, inFlow, houter]

theorem arrive_of_none {s : Lexer} (hkey : s.key = none) (houter : s.outerKeys = [])
    (hmark : s.cursor.rest.head? ≠ some '\uFEFF') :
    s.arrive = .ok (unwind
      { s with cursor := (content s.cursor).1, keyAllowed := s.keyAllowed || (content s.cursor).2 }
      (content s.cursor).1.column) := by
  rw [arrive, dropStale_of_none hkey houter]
  simp only [Except.bind, approach, skipToToken_eq hmark houter]
  rw [dropStale_of_none (by simpa using hkey) (by simpa using houter)]
  rfl

theorem skipToToken_of_content {s : Lexer} (hmark : s.cursor.rest.head? ≠ some '\uFEFF')
    (hcontent : content s.cursor = (s.cursor, false)) : s.skipToToken = s := by
  rw [content] at hcontent
  simp [skipToToken, hmark, hcontent]

/-- A pending key is of no account on the way to the next content, if that is on another line. -/
theorem arrive_of_pending {s : Lexer} {k : PendingKey} (hkey : s.key = some k) (houter : s.outerKeys = [])
    (hmark : s.cursor.rest.head? ≠ some '\uFEFF') (hrequired : k.required = false)
    (hline : k.line < (content s.cursor).1.line) : s.arrive = arrive { s with key := none } := by
  cases hstale : s.isStale k with
  | true =>
    rw [arrive, dropStale_of_isStale hkey houter hstale hrequired, arrive, @dropStale_of_none { s with key := none } rfl houter]
  | false =>
    rw [@arrive_of_none { s with key := none } rfl houter hmark, arrive]
    have hkept : s.dropStale = .ok s := by
      cases s
      cases hkey
      cases houter
      simp [dropStale, dropIfStale, hstale, pure, Except.pure, bind, Except.bind]
    have hdropped := @dropStale_of_stale
      { s with cursor := (content s.cursor).1, keyAllowed := s.keyAllowed || (content s.cursor).2 } k hkey houter hline hrequired
    simp only [hkept, Except.bind, approach, skipToToken_eq hmark houter, hdropped, bind, pure, Except.pure]

theorem unwind_of_le {s : Lexer} {column : Int} (h : s.indent ≤ column) : s.unwind column = s := by
  unfold unwind
  split
  · rfl
  · cases s.outerIndents with
    | nil => rfl
    | cons outer more => rw [closeBlocks, if_neg (by omega)]

theorem unwind_cons {c : Cursor} {done : List Token} {indent outer column : Int} {more : List Int} {allowed : Bool}
    (h : column < indent) :
    unwind ⟨c, done, done.length, indent, outer :: more, allowed, none, []⟩ column =
      unwind ⟨c, .blockEnd :: done, done.length + 1, outer, more, allowed, none, []⟩ column := by
  simp [unwind, inFlow, closeBlocks, h, emit]

/-- Blocks closed up to a column on the right may be closed further. -/
theorem closeBlocks_closeBlocks {left right : Int} {outer : List Int} {s : Lexer} (h : left ≤ right)
    (hs : s.outerIndents = outer) :
    closeBlocks left (closeBlocks right outer s).outerIndents (closeBlocks right outer s) =
      closeBlocks left outer s := by
  induction outer generalizing s with
  | nil => simp [closeBlocks, hs]
  | cons column more ih =>
    by_cases hright : right < s.indent
    · have hleft : left < s.indent := Int.lt_of_le_of_lt h hright
      simp only [closeBlocks, hright, hleft, if_true]
      exact ih rfl
    · have hstay : closeBlocks right (column :: more) s = s := by rw [closeBlocks, if_neg hright]
      rw [hstay, hs]

theorem outerKeys_closeBlocks (column : Int) (outer : List Int) (s : Lexer) :
    (closeBlocks column outer s).outerKeys = s.outerKeys := by
  induction outer generalizing s with
  | nil => rfl
  | cons outer more ih =>
    rw [closeBlocks]
    split
    · rw [ih]
      rfl
    · rfl

theorem unwind_unwind {left right : Int} {s : Lexer} (h : left ≤ right) :
    (s.unwind right).unwind left = s.unwind left := by
  by_cases hflow : s.inFlow = true
  · simp [unwind, hflow]
  · have hsame : (closeBlocks right s.outerIndents s).inFlow = s.inFlow := by
      rw [inFlow, outerKeys_closeBlocks, inFlow]
    simp only [unwind, hflow, hsame, Bool.false_eq_true, if_false]
    exact closeBlocks_closeBlocks h rfl

theorem key_closeBlocks (column : Int) (outer : List Int) (s : Lexer) : (closeBlocks column outer s).key = s.key := by
  induction outer generalizing s with
  | nil => rfl
  | cons outer more ih =>
    rw [closeBlocks]
    split
    · rw [ih]
      rfl
    · rfl

theorem key_unwind (s : Lexer) (column : Int) : (s.unwind column).key = s.key := by
  unfold unwind
  split
  · rfl
  · exact key_closeBlocks column s.outerIndents s

theorem cursor_closeBlocks (column : Int) (outer : List Int) (s : Lexer) :
    (closeBlocks column outer s).cursor = s.cursor := by
  induction outer generalizing s with
  | nil => rfl
  | cons outer more ih =>
    rw [closeBlocks]
    split
    · rw [ih]
      rfl
    · rfl

theorem cursor_unwind (s : Lexer) (column : Int) : (s.unwind column).cursor = s.cursor := by
  unfold unwind
  split
  · rfl
  · exact cursor_closeBlocks column s.outerIndents s

/-! ## The end of the text -/

theorem token_at_end {s : Lexer} (hrest : s.cursor.rest = []) (hkey : s.key = none) :
    s.token = .ok { (s.unwind (-1)).emit .streamEnd with keyAllowed := false, key := none } := by
  have hpending : (s.unwind (-1)).key = none := by rw [key_unwind, hkey]
  simp [token, hrest, streamEnd, dropKey, hpending, emit, bind, Except.bind, pure, Except.pure]

/-- At the end of the text it is of no account which blocks have been closed already. -/
theorem token_unwind_at_end {s : Lexer} {column : Int} (hrest : s.cursor.rest = []) (hkey : s.key = none)
    (hcolumn : -1 ≤ column) :
    (s.unwind column).token = .ok { (s.unwind (-1)).emit .streamEnd with keyAllowed := false, key := none } := by
  rw [token_at_end (by rw [cursor_unwind, hrest]) (by rw [key_unwind, hkey]), unwind_unwind hcolumn]

/-- The end of the text closes what is open. -/
theorem Ends.finish {c : Cursor} {done : List Token} (h : c.Before []) :
    Ends (ready c done (-1) []) (.streamEnd :: done).reverse := by
  have hrest := h.end
  have harrive := arrive_of_none (s := ready c done (-1) []) rfl rfl h.unmarked
  rw [unwind_of_le (by simp only [ready]; omega)] at harrive
  refine run_eq_iff.mpr ⟨_, _, harrive, token_at_end hrest rfl, ?_⟩
  simp [emit, unwind, closeBlocks, inFlow, ready]

/-! ## Closing blocks -/

/-- A block ends where lines return to a column on its left. -/
theorem Ends.close {c : Cursor} {done all : List Token} {outer column left : Int} {more : List Int} {rest : List Line}
    (h : Ends (ready c (.blockEnd :: done) outer more) all) (hc : c.Before rest) (hrest : Returns left rest)
    (hleft : left < column) (hcolumn : 0 ≤ column) : Ends (ready c done column (outer :: more)) all := by
  have hopen := arrive_of_none (s := ready c done column (outer :: more)) rfl rfl hc.unmarked
  have hclosed := arrive_of_none (s := ready c (.blockEnd :: done) outer more) rfl rfl hc.unmarked
  induction hrest with
  | nil =>
    have hend : (content c).1.rest = [] := hc.end
    obtain ⟨a, next, ha, hnext, hall⟩ := run_eq_iff.mp h
    obtain rfl := Except.ok.inj (hclosed.symm.trans ha)
    refine run_eq_iff.mpr ⟨_, next, hopen, ?_, hall⟩
    rw [token_unwind_at_end hend rfl (by omega)] at hnext ⊢
    rw [← hnext]
    simp only [ready]
    rw [unwind_cons (by omega)]
    rfl
  | skip hskipped _ ih => exact ih (hc.skipped hskipped)
  | line hindent hshows =>
    obtain ⟨index, line, hcontent⟩ := hc.shows hshows
    refine h.of_arrive_eq ?_ rfl
    rw [hopen, hclosed]
    simp only [ready]
    rw [unwind_cons (by rw [hcontent]; simp only; omega)]
    rfl

/-! ## Opening blocks -/

/-- The block at a column is the present one, or a token opens it. -/
def Opens (t : Token) (column indent : Int) (outer outer' : List Int) (done done' : List Token) : Prop :=
  indent = column ∧ outer' = outer ∧ done' = done ∨
    indent < column ∧ outer' = indent :: outer ∧ done' = t :: done

theorem Opens.le {t : Token} {column indent : Int} {outer outer' : List Int} {done done' : List Token}
    (h : Opens t column indent outer outer' done done') : indent ≤ column := by
  rcases h with ⟨h, -⟩ | ⟨h, -⟩ <;> omega

theorem Opens.openBlock {t : Token} {d : Cursor} {indent : Int} {outer outer' : List Int} {done done' : List Token}
    (h : Opens t d.column indent outer outer' done done') :
    (ready d done indent outer).openBlock t = ready d done' d.column outer' := by
  rcases h with ⟨rfl, rfl, rfl⟩ | ⟨hlt, rfl, rfl⟩
  · simp [Lexer.openBlock, indentTo, ready]
  · simp [Lexer.openBlock, indentTo, ready, hlt, emit]

section

variable {c d : Cursor} {done done' all : List Token} {indent : Int} {outer outer' : List Int}

/-- To the right of the present block nothing is closed on the way to the next content. -/
theorem arrive_right {allowed : Bool} (hcontent : (content c).1 = d) (hmark : c.rest.head? ≠ some '\uFEFF')
    (hright : indent ≤ d.column) :
    arrive { ready c done indent outer with keyAllowed := allowed } =
      .ok { ready d done indent outer with keyAllowed := allowed || (content c).2 } := by
  subst hcontent
  rw [arrive_of_none rfl rfl hmark]
  exact congrArg Except.ok (unwind_of_le hright)

/-- Behind a line break a simple key may start. -/
theorem Ends.newline {ls : List Line} (hc : c.rest = '\n' :: render ls)
    (h : ∀ next : Cursor, next.Before ls → Ends (ready next done indent outer) all) :
    Ends { ready c done indent outer with keyAllowed := false } all := by
  have hmark : c.rest.head? ≠ some '\uFEFF' := by simp [hc]
  have hcontent := content_newline hc
  have hat : Cursor.At ⟨render ls, c.index + 1, c.line + 1, 0⟩ ls := at_render rfl rfl
  have hbefore : c.Before ls := ⟨⟨_, hat, by rw [hcontent]⟩, hmark⟩
  refine (h c hbefore).of_arrive_eq ?_ rfl
  rw [arrive_of_none rfl rfl hmark, arrive_of_none rfl rfl hmark]
  simp [ready, hcontent]

/-- The mark of an item opens a sequence if need be. -/
theorem Ends.dash {rest : Text} (hcontent : (content c).1 = d) (hd : d.rest = '-' :: ' ' :: rest)
    (hmark : c.rest.head? ≠ some '\uFEFF')
    (hopens : Opens .blockSequenceStart d.column indent outer outer' done done')
    (h : Ends (ready ⟨' ' :: rest, d.index + 1, d.line, d.column + 1⟩ (.blockEntry :: done') d.column outer') all) :
    Ends (ready c done indent outer) all := by
  have hentry : (ready d done indent outer).token = (ready d done indent outer).blockEntry := by
    have hdashes : atMark '-' ('-' :: ' ' :: rest) = false := by cases rest <;> simp [atMark]
    have hdots : atMark '.' ('-' :: ' ' :: rest) = false := by cases rest <;> simp [atMark]
    simp [token, ready, hd, hdashes, hdots, atWhite, isWhite]
  have hskip : d.skip 1 = ⟨' ' :: rest, d.index + 1, d.line, d.column + 1⟩ := next_inline hd (by decide)
  refine h.of_step (arrive_right hcontent hmark hopens.le) ?_ (by simp [ready]) ?_
  · rw [Bool.true_or]
    refine hentry.trans ?_
    rw [← hskip, Lexer.blockEntry, hopens.openBlock]
    rfl
  · refine Nat.lt_of_le_of_lt (length_content_le _) ?_
    simp [ready, hcontent, hd]

/-! ## Plain scalars -/

/-- The mark of a document counts at the margin only. -/
theorem not_mark {s : Lexer} {text : Text} (hmark : s.cursor.column = 0 → atDocumentMark text = false) (mark : Char)
    (hsign : mark = '-' ∨ mark = '.') : (s.cursor.column == 0 && atMark mark text) = false := by
  by_cases hcolumn : s.cursor.column = 0
  · have := hmark hcolumn
    simp only [atDocumentMark, Bool.or_eq_false_iff] at this
    rcases hsign with rfl | rfl <;> simp [this]
  · simp [hcolumn]

theorem token_plain {s : Lexer} {x : Char} {rest : Text} (hrest : s.cursor.rest = x :: rest)
    (hx : isPlainStart x = true) (hmark : s.cursor.column = 0 → atDocumentMark (x :: rest) = false) :
    s.token = s.plainScalar := by
  have hne : ∀ y, isPlainStart y = false → (x == y) = false := fun y hy => by simpa using isPlainStart_ne hx hy
  have hstarts : s.startsPlain x rest = true := by
    have hplain := hx
    simp only [isPlainStart, isPlainChar, Bool.and_eq_true, Bool.not_eq_true', bne_iff_ne] at hplain
    have hbreak := isBreak_of_isInline (isInline_of_isPlainChar (isPlainChar_of_start hx))
    have hwhite := isWhite_of_isPlainChar (isPlainChar_of_start hx)
    simp only [startsPlain, hplain, hbreak, hwhite]
    simp [hplain]
  rw [token, hrest]
  simp only [not_mark hmark '-' (Or.inl rfl), not_mark hmark '.' (Or.inr rfl), hne '%' (by decide), hne '[' (by decide),
    hne '\x7b' (by decide), hne ']' (by decide), hne '\x7d' (by decide), hne ',' (by decide), hne '-' (by decide),
    hne '?' (by decide), hne ':' (by decide), hne '*' (by decide), hne '&' (by decide), hne '!' (by decide),
    hne '|' (by decide), hne '>' (by decide), hne '\'' (by decide), hne '"' (by decide), hstarts, Bool.false_and,
    Bool.false_eq_true, if_false, if_true]

/-- A hyphen starts a plain scalar if no white space follows. -/
theorem token_hyphen {s : Lexer} {rest : Text} (hrest : s.cursor.rest = '-' :: rest) (hwhite : atWhite rest = false)
    (hmark : s.cursor.column = 0 → atDocumentMark ('-' :: rest) = false) : s.token = s.plainScalar := by
  have hstarts : s.startsPlain '-' rest = true := by simp [startsPlain, hwhite]
  rw [token, hrest]
  simp only [not_mark hmark '-' (Or.inl rfl), not_mark hmark '.' (Or.inr rfl), hwhite, hstarts]
  simp

theorem token_phrase {s : Lexer} {text : Text} (hrest : s.cursor.rest = text) (htext : opensPlain text = true)
    (hmark : s.cursor.column = 0 → atDocumentMark text = false) : s.token = s.plainScalar := by
  unfold opensPlain at htext
  split at htext
  · refine token_hyphen hrest ?_ hmark
    simp [atWhite, isWhite_of_isPlainChar htext, isBreak_of_isInline (isInline_of_isPlainChar htext)]
  · exact token_plain hrest htext hmark
  · cases htext

/-- A colon with white space behind it is a token of its own. -/
theorem token_colon {s : Lexer} {rest : Text} (hs : s.cursor.rest = ':' :: rest) (hrest : atWhite rest = true) :
    s.token = s.value := by
  have hmarks : atDocumentMark (':' :: rest) = false := Text.atDocumentMark_cons (by decide)
  simp only [atDocumentMark, Bool.or_eq_false_iff] at hmarks
  simp [token, hs, hmarks, hrest]

theorem plainScalar_of_scan {s t : Lexer} {text : Text} {next : Cursor} {broken : Bool} (hsave : s.saveKey = .ok t)
    (hscan : Plain.scan t.inFlow (t.indent + 1) (t.cursor.rest.length + 1) t.cursor = (text, next, broken)) :
    s.plainScalar = .ok { t.emit (.scalar text true) with cursor := next, keyAllowed := broken } := by
  simp [plainScalar, hsave, hscan, bind, Except.bind, pure, Except.pure]

theorem saveKey_not_allowed :
    saveKey { ready d done indent outer with keyAllowed := false } =
      .ok { ready d done indent outer with keyAllowed := false } := rfl

theorem saveKey_ready :
    saveKey (ready d done indent outer) =
      .ok { ready d done indent outer with
        key := some ⟨done.length, indent == d.column, d.index, d.line, d.column⟩ } := by
  simp [saveKey, ready, dropKey, inFlow, bind, Except.bind, pure, Except.pure]

/-- A plain scalar is read up to where it ends on a further line. Where a simple key may start it is remembered as one,
    but only up to the end of its first line. -/
theorem Ends.scalar_of_scan {allowed : Bool} {text : Text} {next : Cursor} (hcontent : (content c).1 = d)
    (hmark : c.rest.head? ≠ some '\uFEFF') (hopens : opensPlain d.rest = true) (hright : indent < d.column)
    (hmargin : d.column = 0 → atDocumentMark d.rest = false)
    (hscan : Plain.scan false (indent + 1) (d.rest.length + 1) d = (text, next, true))
    (hline : d.line < next.line) (hless : (content next).1.rest.length < d.rest.length)
    (h : Ends (ready next (.scalar text true :: done) indent outer) all) :
    Ends { ready c done indent outer with keyAllowed := allowed } all := by
  have harrive : arrive { ready c done indent outer with keyAllowed := allowed } = _ :=
    arrive_right hcontent hmark (Int.le_of_lt hright)
  have htoken : ∀ known, token { ready d done indent outer with keyAllowed := known } =
      plainScalar { ready d done indent outer with keyAllowed := known } := fun known =>
    token_phrase rfl hopens hmargin
  rw [← hcontent] at hless
  cases hknown : (allowed || (content c).2) with
  | false =>
    rw [hknown] at harrive
    refine h.of_step harrive ?_ (by simp [ready]) hless
    rw [htoken, plainScalar_of_scan saveKey_not_allowed hscan]
    rfl
  | true =>
    rw [hknown] at harrive
    let k : PendingKey := ⟨done.length, indent == d.column, d.index, d.line, d.column⟩
    have hrequired : k.required = false := by simp only [k, beq_eq_false_iff_ne]; omega
    have hstale : Ends { ready next (.scalar text true :: done) indent outer with key := some k } all := by
      refine h.of_arrive_eq ?_ rfl
      rw [arrive, dropStale_of_stale (k := k) rfl rfl hline hrequired, arrive, dropStale_of_none rfl rfl]
      rfl
    refine hstale.of_step harrive ?_ (by simp [ready]) hless
    exact (htoken true).trans (plainScalar_of_scan saveKey_ready hscan)

/-- A plain scalar is read up to the end of its last line if the lines below return. -/
theorem Ends.scalar {allowed : Bool} {column : Nat} {first added : Text} {more : List Text} {hung ls : List Line}
    (hcontent : (content c).1 = d) (hd : d.rest = first ++ '\n' :: render (hung ++ ls))
    (hmark : c.rest.head? ≠ some '\uFEFF') (hfirst : IsPhrase first) (hmore : Folds more added)
    (hhung : Hung column hung more) (hright : column < d.column) (hreturns : Returns column ls)
    (h : ∀ next : Cursor, next.Before ls → Ends (ready next (.scalar (first ++ added) true :: done) column outer) all) :
    Ends { ready c done column outer with keyAllowed := allowed } all := by
  obtain ⟨next, hadds, hbefore, hline⟩ := Plain.adds_folds hmore hhung hreturns
    (c := ⟨'\n' :: render (hung ++ ls), d.index + first.length, d.line, d.column + first.length⟩) rfl
  have hscan : Plain.scan false (column + 1) (d.rest.length + 1) d = (first ++ added, next, true) :=
    Plain.scan_line hfirst.words hd (by omega) (Nat.le_succ _) hadds
  have hopens : opensPlain d.rest = true := hd ▸ opensPlain_append hfirst.start _
  refine Ends.scalar_of_scan hcontent hmark hopens (by omega) (fun hmargin => ?_) hscan hline ?_ (h next hbefore)
  · omega
  · have := hbefore.length_content_le
    rw [hd]
    simp only [render_append, List.length_append, List.length_cons]
    omega

/-- The state behind a plain scalar that may be a key: it started at `d`, and is still pending where it ends. -/
def behindName (d : Cursor) (name rest : Text) (done : List Token) (indent : Int) (outer : List Int) : Lexer :=
  { ready ⟨':' :: rest, d.index + name.length, d.line, d.column + name.length⟩ (.scalar name true :: done) indent outer
    with keyAllowed := false, key := some ⟨done.length, indent == d.column, d.index, d.line, d.column⟩ }

theorem content_colon (rest : Text) (index line column : Nat) :
    content ⟨':' :: rest, index, line, column⟩ = (⟨':' :: rest, index, line, column⟩, false) :=
  content_of_char rfl (by decide) (by decide) (by decide)

theorem arrive_behindName {name rest : Text} (hlength : name.length ≤ 1024) (hright : indent ≤ d.column) :
    (behindName d name rest done indent outer).arrive = .ok (behindName d name rest done indent outer) := by
  have hkept : (behindName d name rest done indent outer).dropStale = .ok (behindName d name rest done indent outer) :=
    dropStale_of_fresh rfl rfl rfl (by simp only [behindName, ready]; omega)
  have hskip : (behindName d name rest done indent outer).skipToToken = behindName d name rest done indent outer := by
    rw [skipToToken_eq (by simp [behindName, ready]) rfl]
    simp [behindName, ready, content_colon]
  rw [arrive, hkept]
  simp only [Except.bind, approach, hskip, hkept, bind, pure, Except.pure]
  rw [unwind_of_le]
  simp only [behindName, ready]
  omega

/-- The colon behind a name makes it a key, and opens a mapping if need be. -/
theorem value_behindName {name rest : Text} (hopens : Opens .blockMappingStart d.column indent outer outer' done done') :
    (behindName d name rest done indent outer).value =
      .ok { ready ⟨rest, d.index + name.length + 1, d.line, d.column + name.length + 1⟩
        (.value :: .scalar name true :: .key :: done') d.column outer' with keyAllowed := false } := by
  let e : Cursor := ⟨':' :: rest, d.index + name.length, d.line, d.column + name.length⟩
  have hpast : e.skip 1 = ⟨rest, d.index + name.length + 1, d.line, d.column + name.length + 1⟩ :=
    next_inline (c := e) rfl (by decide)
  rcases hopens with ⟨rfl, rfl, rfl⟩ | ⟨hlt, rfl, rfl⟩
  · simp [Lexer.value, behindName, ready, insertAt, indentTo, inFlow, take, emit, pure, Except.pure, ← hpast, e]
  · have htwo : done.length + 1 + 1 - done.length = 2 := by omega
    simp [Lexer.value, behindName, ready, insertAt, indentTo, inFlow, take, emit, pure, Except.pure, hlt, htwo, ← hpast, e]

theorem Ends.behind_name {name rest : Text} (hlength : name.length ≤ 1024) (hrest : atWhite rest = true)
    (hopens : Opens .blockMappingStart d.column indent outer outer' done done')
    (h : Ends { ready ⟨rest, d.index + name.length + 1, d.line, d.column + name.length + 1⟩
      (.value :: .scalar name true :: .key :: done') d.column outer' with keyAllowed := false } all) :
    Ends (behindName d name rest done indent outer) all := by
  have htoken : (behindName d name rest done indent outer).token = _ :=
    (token_colon rfl hrest).trans (value_behindName hopens)
  refine h.of_step (arrive_behindName hlength hopens.le) htoken (by simp [ready]) ?_
  have hless := length_content_le ⟨rest, d.index + name.length + 1, d.line, d.column + name.length + 1⟩
  simp only [behindName, ready, content_colon, List.length_cons]
  exact Nat.lt_succ_of_le hless

/-- A plain scalar in front of a colon is a key, and opens a mapping if need be. -/
theorem Ends.key_of_scan {name rest : Text} (hcontent : (content c).1 = d) (hd : d.rest = name ++ ':' :: rest)
    (hmark : c.rest.head? ≠ some '\uFEFF') (hne : name ≠ []) (hlength : name.length ≤ 1024)
    (hrest : atWhite rest = true)
    (hplain : token (ready d done indent outer) = plainScalar (ready d done indent outer))
    (hscan : Plain.scan false (indent + 1) (d.rest.length + 1) d =
      (name, ⟨':' :: rest, d.index + name.length, d.line, d.column + name.length⟩, false))
    (hopens : Opens .blockMappingStart d.column indent outer outer' done done')
    (h : Ends { ready ⟨rest, d.index + name.length + 1, d.line, d.column + name.length + 1⟩
      (.value :: .scalar name true :: .key :: done') d.column outer' with keyAllowed := false } all) :
    Ends (ready c done indent outer) all := by
  have hscalar : token (ready d done indent outer) = .ok (behindName d name rest done indent outer) :=
    hplain.trans (plainScalar_of_scan saveKey_ready hscan)
  refine (h.behind_name hlength hrest hopens).of_step (arrive_right hcontent hmark hopens.le) ?_
    (by simp [behindName, ready]) ?_
  · rw [Bool.true_or]
    exact hscalar
  · have hfound : (content (ready c done indent outer).cursor).1 = d := hcontent
    have hlong : 0 < name.length := List.length_pos_iff.mpr hne
    rw [hfound, hd]
    simp only [behindName, ready, content_colon, List.length_cons, List.length_append]
    omega

/-- A word or more in front of a colon is a key, and opens a mapping if need be. -/
theorem Ends.key {name rest : Text} (hcontent : (content c).1 = d) (hd : d.rest = name ++ ':' :: rest)
    (hmark : c.rest.head? ≠ some '\uFEFF') (hname : IsPhrase name) (hlength : name.length ≤ 1024)
    (hrest : atWhite rest = true) (hstarts : d.rest.startsRow = true)
    (hopens : Opens .blockMappingStart d.column indent outer outer' done done')
    (h : Ends { ready ⟨rest, d.index + name.length + 1, d.line, d.column + name.length + 1⟩
      (.value :: .scalar name true :: .key :: done') d.column outer' with keyAllowed := false } all) :
    Ends (ready c done indent outer) all := by
  have hright := hopens.le
  have hscan := Plain.scan_stopped hname.words hd (by omega : indent + 1 ≤ d.column + 1) (Plain.stops_colon rfl hrest)
  have hplain : token (ready d done indent outer) = plainScalar (ready d done indent outer) :=
    token_phrase rfl (hd ▸ opensPlain_append hname.start _) fun _ => Text.atDocumentMark_of_startsRow hstarts
  exact Ends.key_of_scan hcontent hd hmark hname.words.ne_nil hlength hrest hplain hscan hopens h

/-! ## Brackets -/

variable {parts : Parts} {rest : Text} {key : Option PendingKey}

theorem token_opening {s : Lexer} (hs : s.cursor.rest = parts.brackets ++ rest) : s.token = s.flowStart parts.flowStart := by
  have hmarks : ∀ mark, mark = '-' ∨ mark = '.' → atMark mark s.cursor.rest = false := by
    rintro _ (rfl | rfl) <;> rw [hs] <;> cases parts <;> cases rest <;> rfl
  cases parts <;> simp [token, hmarks] <;> simp [hs, Parts.brackets, Parts.flowStart]

theorem token_closing {s : Lexer} (hs : s.cursor.rest = parts.brackets.tail ++ rest) : s.token = s.flowEnd parts.flowEnd := by
  have hmarks : ∀ mark, mark = '-' ∨ mark = '.' → atMark mark s.cursor.rest = false := by
    rintro _ (rfl | rfl) <;> rw [hs] <;> cases parts <;> rcases rest with _ | ⟨_, _ | _⟩ <;> rfl
  cases parts <;> simp [token, hmarks] <;> simp [hs, Parts.brackets, Parts.flowEnd]

/-- The key was saved where the cursor stood, and is not required. -/
def SavedAt (d : Cursor) (key : Option PendingKey) : Prop :=
  ∀ k ∈ key, k.index = d.index ∧ k.line = d.line ∧ k.required = false

/-- The state between the brackets of an empty collection that started at `d`. -/
def between (d : Cursor) (parts : Parts) (rest : Text) (done : List Token) (indent : Int) (outer : List Int)
    (key : Option PendingKey) : Lexer :=
  ⟨⟨parts.brackets.tail ++ rest, d.index + 1, d.line, d.column + 1⟩, parts.flowStart :: done, done.length + 1,
    indent, outer, true, none, [key]⟩

/-- The state behind the brackets of an empty collection that started at `d`. -/
def behindBrackets (d : Cursor) (parts : Parts) (rest : Text) (done : List Token) (indent : Int) (outer : List Int)
    (key : Option PendingKey) : Lexer :=
  { ready ⟨rest, d.index + 2, d.line, d.column + 2⟩ (parts.flowEnd :: parts.flowStart :: done) indent outer
    with keyAllowed := false, key }

theorem flowStart_of_saveKey {s t : Lexer} {token : Token} (h : s.saveKey = .ok t) :
    s.flowStart token = .ok { t.take 1 token with keyAllowed := true, key := none, outerKeys := t.key :: t.outerKeys } := by
  simp [flowStart, h, bind, Except.bind, pure, Except.pure]

theorem exists_between {allowed : Bool} (hd : d.rest = parts.brackets ++ rest) (hright : indent < d.column) :
    ∃ key, SavedAt d key ∧
      token { ready d done indent outer with keyAllowed := allowed } = .ok (between d parts rest done indent outer key) := by
  have hskip : d.skip 1 = ⟨parts.brackets.tail ++ rest, d.index + 1, d.line, d.column + 1⟩ := by
    cases parts <;> exact next_inline hd (by decide)
  cases allowed with
  | false =>
    refine ⟨none, by simp [SavedAt], ?_⟩
    rw [token_opening hd, flowStart_of_saveKey saveKey_not_allowed]
    simp [take, emit, ready, between, hskip]
  | true =>
    refine ⟨some ⟨done.length, indent == d.column, d.index, d.line, d.column⟩, ?_, ?_⟩
    · rintro k ⟨⟩
      exact ⟨rfl, rfl, by simp only [beq_eq_false_iff_ne]; omega⟩
    · refine (token_opening hd).trans ((flowStart_of_saveKey saveKey_ready).trans ?_)
      simp [take, emit, ready, between, hskip]

theorem content_between : content (between d parts rest done indent outer key).cursor =
    ((between d parts rest done indent outer key).cursor, false) := by
  cases parts <;> exact content_of_char rfl (by decide) (by decide) (by decide)

theorem arrive_between (hkey : SavedAt d key) :
    (between d parts rest done indent outer key).arrive = .ok (between d parts rest done indent outer key) := by
  have hkept : (between d parts rest done indent outer key).dropStale = .ok (between d parts rest done indent outer key) := by
    refine dropStale_of_outer rfl rfl fun k hk => ?_
    obtain ⟨hindex, hline, -⟩ := hkey k hk
    simp only [isStale, between, hline, hindex, bne_self_eq_false, Bool.false_or, decide_eq_false_iff_not]
    omega
  have hstays : (between d parts rest done indent outer key).skipToToken = between d parts rest done indent outer key :=
    skipToToken_of_content (by cases parts <;> simp [between, Parts.brackets]) content_between
  rw [arrive, hkept]
  simp only [Except.bind, approach, hstays, hkept, bind, pure, Except.pure]
  simp [unwind, inFlow, between]

theorem token_between : (between d parts rest done indent outer key).token =
    .ok (behindBrackets d parts rest done indent outer key) := by
  have hskip : Cursor.skip ⟨parts.brackets.tail ++ rest, d.index + 1, d.line, d.column + 1⟩ 1 =
      ⟨rest, d.index + 2, d.line, d.column + 2⟩ := by
    cases parts with
    | rows => exact @next_inline ⟨'\x7d' :: rest, d.index + 1, d.line, d.column + 1⟩ _ _ rfl (by decide)
    | items => exact @next_inline ⟨']' :: rest, d.index + 1, d.line, d.column + 1⟩ _ _ rfl (by decide)
  rw [token_closing rfl, flowEnd]
  simp [dropKey, between, behindBrackets, take, emit, ready, hskip, bind, Except.bind, pure, Except.pure]

theorem Ends.behind_brackets {ls : List Line} (hkey : SavedAt d key)
    (h : ∀ next : Cursor, next.Before ls → Ends (ready next (parts.flowEnd :: parts.flowStart :: done) indent outer) all) :
    Ends (behindBrackets d parts ('\n' :: render ls) done indent outer key) all := by
  let c : Cursor := ⟨'\n' :: render ls, d.index + 2, d.line, d.column + 2⟩
  have hends : Ends (behindBrackets d parts ('\n' :: render ls) done indent outer none) all := Ends.newline (c := c) rfl h
  cases key with
  | none => exact hends
  | some k =>
    obtain ⟨-, hline, hrequired⟩ := hkey k rfl
    refine hends.of_arrive_eq (arrive_of_pending rfl rfl (by simp [behindBrackets, ready]) hrequired ?_) rfl
    have hbelow := line_content_le ⟨render ls, c.index + 1, c.line + 1, 0⟩
    have hcontent : content c = _ := content_newline rfl
    rw [show (behindBrackets d parts ('\n' :: render ls) done indent outer (some k)).cursor = c from rfl, hcontent, hline]
    exact hbelow

/-- An empty collection in brackets. Where a simple key may start it is remembered as one, but only up to the end of the
    line. -/
theorem Ends.brackets {allowed : Bool} {ls : List Line} (hcontent : (content c).1 = d)
    (hd : d.rest = parts.brackets ++ '\n' :: render ls) (hmark : c.rest.head? ≠ some '\uFEFF') (hright : indent < d.column)
    (h : ∀ next : Cursor, next.Before ls → Ends (ready next (parts.flowEnd :: parts.flowStart :: done) indent outer) all) :
    Ends { ready c done indent outer with keyAllowed := allowed } all := by
  obtain ⟨key, hkey, htoken⟩ := @exists_between d done indent outer parts _ (allowed || (content c).2) hd hright
  have hbehind := Ends.behind_brackets hkey h
  have hbetween : Ends (between d parts ('\n' :: render ls) done indent outer key) all := by
    refine hbehind.of_step (arrive_between hkey) token_between (by cases parts <;> simp [behindBrackets, ready, Parts.flowEnd]) ?_
    rw [content_between]
    refine Nat.lt_of_le_of_lt (length_content_le _) ?_
    cases parts <;> simp [behindBrackets, ready, between, Parts.brackets]
  refine hbetween.of_step (arrive_right hcontent hmark (Int.le_of_lt hright)) htoken ?_ ?_
  · cases parts <;> simp [between, Parts.flowStart]
  · have hfound : (content { ready c done indent outer with keyAllowed := allowed }.cursor).1 = d := hcontent
    rw [content_between, hfound, hd]
    cases parts <;> simp [between, Parts.brackets]

end

end Yaml.Lexer
end YamlSplice
