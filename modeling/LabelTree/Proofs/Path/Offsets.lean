import Mathlib.Data.List.Basic
import Mathlib.Data.List.TakeWhile
import LabelTree.Proofs.Path.Sound
import LabelTree.Proofs.Path.Takes

/-!
# Path — offsets of lexemes

Reading takes characters off the front of what remains, and the offset of a cursor grows by the
bytes that were taken. So each lexeme of a text stands at its offset: a cursor is there, before
which the text takes that many bytes, and which reads the lexeme and all that follow
(`Lexemes.exists_cursor`).
-/

namespace LabelTree

/-! ## What remains is an ending -/

theorem Glyph.read_suffix {cs rest : List Char} {glyphs : List Glyph}
    (h : read cs = some (glyphs, rest)) : rest <:+ cs := by
  fun_induction read cs generalizing glyphs rest with
  | case1 =>
    cases h
    exact List.suffix_refl []
  | case2 => cases h
  | case3 c cs ih =>
    obtain ⟨⟨gs, r⟩, hr, heq⟩ := Option.map_eq_some_iff.mp h
    cases heq
    exact (ih hr).trans (List.suffix_append ['\\', c] cs)
  | case4 =>
    cases h
    exact List.suffix_refl _
  | case5 c cs _ _ _ ih =>
    obtain ⟨⟨gs, r⟩, hr, heq⟩ := Option.map_eq_some_iff.mp h
    cases heq
    exact (ih hr).trans (List.suffix_cons c cs)

theorem Text.unquote_suffix {quote : Char} {cs text rest : List Char}
    (h : unquote quote cs = some (text, rest)) : rest <:+ cs := by
  fun_induction unquote quote cs generalizing text rest with
  | case1 => cases h
  | case2 c cs ih =>
    obtain ⟨⟨t, r⟩, hr, heq⟩ := Option.map_eq_some_iff.mp h
    cases heq
    exact (ih hr).trans (List.suffix_append ['\\', c] cs)
  | case3 =>
    cases h
    exact List.suffix_cons _ _
  | case4 c cs _ _ ih =>
    obtain ⟨⟨t, r⟩, hr, heq⟩ := Option.map_eq_some_iff.mp h
    cases heq
    exact (ih hr).trans (List.suffix_cons c cs)

/-! ## Cursors of one text -/

namespace Cursor

/-- That `d` is reached from `c` by taking characters off what remains. -/
def Ahead (c d : Cursor) : Prop :=
  ∃ taken, c.rest = taken ++ d.rest ∧ d.offset = c.offset + Text.byteLength taken

variable {c d e : Cursor} {l : Lexeme} {t : Token} {rest : List Char}

theorem Ahead.refl (c : Cursor) : c.Ahead c :=
  ⟨[], rfl, rfl⟩

/-- What is left ends as the text does. -/
theorem Ahead.getLast?_rest (h : c.Ahead d) (hne : d.rest ≠ []) :
    d.rest.getLast? = c.rest.getLast? := by
  obtain ⟨taken, hrest, -⟩ := h
  rw [hrest, List.getLast?_append_of_ne_nil _ hne]

theorem Ahead.trans (h : c.Ahead d) (h' : d.Ahead e) : c.Ahead e := by
  obtain ⟨taken, hrest, hoffset⟩ := h
  obtain ⟨taken', hrest', hoffset'⟩ := h'
  refine ⟨taken ++ taken', by rw [hrest, hrest', List.append_assoc], ?_⟩
  rw [hoffset', hoffset, Text.byteLength_append, Nat.add_assoc]

theorem ahead_moveTo (h : rest <:+ c.rest) : c.Ahead (c.moveTo rest) := by
  obtain ⟨taken, h⟩ := h
  refine ⟨taken, h.symm, ?_⟩
  rw [moveTo, ← h, Text.byteLength_append, Nat.add_sub_cancel]

theorem ahead_skipBlanks (c : Cursor) : c.Ahead c.skipBlanks :=
  ahead_moveTo (List.dropWhile_suffix Text.isBlank)

theorem skipBlanks_skipBlanks (c : Cursor) : c.skipBlanks.skipBlanks = c.skipBlanks := by
  simp [skipBlanks, moveTo, Text.trimLeft_trimLeft]

/-! ### One lexeme -/

/-- What a token leaves is an ending. -/
theorem Takes.suffix {inside : Bool} {cs : List Char} (h : Takes inside cs t rest) :
    rest <:+ cs := by
  cases h with
  | nothing => exact List.suffix_refl []
  | sign | dot => exact List.suffix_cons _ _
  | word _ _ hread => exact Glyph.read_suffix hread
  | notEqual => exact List.suffix_append ['!', '='] _
  | dotDot => exact List.suffix_append ['.', '.'] _
  | string _ hread => exact (Text.unquote_suffix hread).trans (List.suffix_cons _ _)
  | number | name => exact (List.dropWhile_suffix _).trans (List.suffix_cons _ _)

theorem ahead_next (h : c.next = .ok (l, d)) : c.Ahead d := by
  obtain ⟨rest, htakes, -, rfl⟩ := next_eq_ok_iff.mp h
  have hpast : c.skipBlanks.Ahead (c.skipBlanks.past l.token rest) := ahead_moveTo htakes.suffix
  exact (ahead_skipBlanks c).trans hpast

theorem offset_next (h : c.next = .ok (l, d)) : l.offset = c.skipBlanks.offset := by
  obtain ⟨rest, -, hoffset, -⟩ := next_eq_ok_iff.mp h
  exact hoffset

theorem depth_next (h : c.next = .ok (l, d)) : d.depth = l.token.depthAfter c.depth := by
  obtain ⟨rest, -, -, rfl⟩ := next_eq_ok_iff.mp h
  rfl

/-- A token of one character stands where it is read, and reading takes that character alone. -/
theorem rest_next {sign : Char} (h : c.next = .ok (l, d)) (hl : l.token.sign? = some sign) :
    c.skipBlanks.rest = sign :: d.rest := by
  obtain ⟨rest, htakes, -, rfl⟩ := next_eq_ok_iff.mp h
  exact htakes.eq_of_sign? hl

/-- The path ends where only blanks are left. -/
theorem rest_of_end (h : c.next = .ok (l, d)) (hl : l.token = .endOfPath) :
    c.skipBlanks.rest = [] := by
  obtain ⟨rest, htakes, -, -⟩ := next_eq_ok_iff.mp h
  exact htakes.eq_nil_of_end hl

theorem all_isBlank_of_end (h : c.next = .ok (l, d)) (hl : l.token = .endOfPath) :
    c.rest.all Text.isBlank = true :=
  List.all_eq_true.mpr (List.dropWhile_eq_nil_iff.mp (rest_of_end h hl))

/-- Before any other lexeme there is more than blanks. -/
theorem skipBlanks_ne_nil (h : c.next = .ok (l, d)) (hl : l.token ≠ .endOfPath) :
    c.skipBlanks.rest ≠ [] := by
  intro hnil
  obtain ⟨offset, hend⟩ := next_blanks (List.all_eq_true.mpr (List.dropWhile_eq_nil_iff.mp hnil))
  cases h.symm.trans hend
  exact hl rfl

end Cursor

/-! ## Sequences of lexemes -/

namespace Lexemes

variable {c : Cursor} {l : Lexeme} {rest : Lexemes}

theorem exists_next_of_ofCursor (h : ofCursor c = .next l.token l.offset rest) :
    ∃ d, c.next = .ok (l, d) ∧ l.token ≠ .endOfPath ∧ rest = ofCursor d := by
  rw [ofCursor] at h
  split at h
  · cases h
  · rename_i x d hnext
    split at h
    · cases h
    · rename_i hx
      obtain ⟨token, offset⟩ := x
      cases h
      exact ⟨d, hnext, hx, rfl⟩

theorem exists_next_of_finish {offset : Nat} (h : ofCursor c = .finish offset) :
    ∃ d, c.next = .ok (⟨.endOfPath, offset⟩, d) := by
  rw [ofCursor] at h
  split at h
  · cases h
  · rename_i l d hnext
    split at h
    · rename_i hl
      obtain ⟨token, o⟩ := l
      cases hl
      cases h
      exact ⟨d, hnext⟩
    · cases h

theorem next_of_fault {e : PathError} (h : ofCursor c = .fault e) : c.next = .error e := by
  rw [ofCursor] at h
  split at h
  · rename_i hnext
    cases h
    exact hnext
  · split at h <;> cases h

theorem ofCursor_skipBlanks (c : Cursor) : ofCursor c.skipBlanks = ofCursor c :=
  ofCursor_congr (Cursor.next_congr c.skipBlanks_skipBlanks)

end Lexemes

/-- That reading from `c` takes the lexemes `ls` and leaves off at `d`. -/
inductive Cursor.Run : Cursor → List Lexeme → Cursor → Prop
  | nil (c : Cursor) : Run c [] c
  | cons {c d e : Cursor} {l : Lexeme} {ls : List Lexeme} :
    c.next = .ok (l, d) → l.token ≠ .endOfPath → Run d ls e → Run c (l :: ls) e

namespace Cursor.Run

variable {c d e : Cursor} {ls ms : List Lexeme}

theorem ahead (h : c.Run ls d) : c.Ahead d := by
  induction h with
  | nil c => exact .refl c
  | cons hnext _ _ ih => exact (ahead_next hnext).trans ih

theorem exists_append (h : c.Run (ls ++ ms) e) : ∃ d, c.Run ls d ∧ d.Run ms e := by
  induction ls generalizing c with
  | nil => exact ⟨c, .nil c, h⟩
  | cons l ls ih =>
    cases h with
    | cons hnext hl hrun =>
      obtain ⟨d, hfirst, hlast⟩ := ih hrun
      exact ⟨d, .cons hnext hl hfirst, hlast⟩

theorem ofCursor_eq (h : c.Run ls d) : Lexemes.ofCursor c = Lexemes.prepend ls (.ofCursor d) := by
  induction h with
  | nil => rfl
  | cons hnext hl _ ih => rw [Lexemes.ofCursor_of_next hnext hl, ih, Lexemes.prepend_cons]

end Cursor.Run

namespace Lexemes

variable {c : Cursor} {l : Lexeme} {rest : Lexemes}

theorem exists_run {ls : List Lexeme} {s : Lexemes} (h : ofCursor c = prepend ls s) :
    ∃ d, c.Run ls d ∧ ofCursor d = s := by
  induction ls generalizing c with
  | nil => exact ⟨c, .nil c, h⟩
  | cons x ls ih =>
    obtain ⟨d, hnext, hx, hrest⟩ := exists_next_of_ofCursor h
    obtain ⟨e, hrun, he⟩ := ih hrest.symm
    exact ⟨e, .cons hnext hx hrun, he⟩

/-- Each lexeme stands at its offset, and what follows it is read from there. -/
theorem exists_cursor {ls : List Lexeme}
    (h : ofCursor c = prepend ls (.next l.token l.offset rest)) :
    ∃ d, c.Ahead d ∧ d.offset = l.offset ∧ ofCursor d = .next l.token l.offset rest ∧
      ∀ sign, l.token.sign? = some sign → ∃ cs, d.rest = sign :: cs := by
  obtain ⟨d, hrun, hd⟩ := exists_run h
  obtain ⟨e, hnext, -, -⟩ := exists_next_of_ofCursor hd
  refine ⟨d.skipBlanks, hrun.ahead.trans d.ahead_skipBlanks, (Cursor.offset_next hnext).symm, ?_,
    fun sign hl => ⟨_, Cursor.rest_next hnext hl⟩⟩
  rw [ofCursor_skipBlanks, hd]

end Lexemes

end LabelTree
