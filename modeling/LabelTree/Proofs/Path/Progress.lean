import LabelTree.Proofs.Path.Labels
import LabelTree.Proofs.Path.Offsets

/-!
# Path — reading comes to an end

A lexeme other than the end of the path takes at least one character behind its offset, so a text
has no more lexemes than characters, and each of them stands behind the one before it. At the end
nothing is left, and reading again reads the end again (`Cursor.reading_ends`). What is read in turn
are the lexemes of the text (`Cursor.toExcept_ofText`).
-/

namespace LabelTree

namespace Cursor

variable {c d : Cursor} {l m : Lexeme} {i j : Nat}

/-- What the read with this number gives, counted from zero, when lexemes are read one after
another. A read that fails is the last one. -/
def nth : Nat → Cursor → Except PathError Lexeme
  | 0, c => c.next.map Prod.fst
  | i + 1, c =>
    match c.next with
    | .error e => .error e
    | .ok (_, d) => d.nth i

theorem nth_zero (h : c.next = .ok (l, d)) : c.nth 0 = .ok l := by
  rw [nth, h]
  rfl

theorem nth_succ (h : c.next = .ok (l, d)) (i : Nat) : c.nth (i + 1) = d.nth i := by
  rw [nth, h]

theorem next_of_nth_zero (h : c.nth 0 = .ok l) : ∃ d, c.next = .ok (l, d) := by
  rw [nth] at h
  cases hnext : c.next with
  | error e =>
    rw [hnext] at h
    cases h
  | ok r =>
    rw [hnext] at h
    cases h
    exact ⟨r.2, rfl⟩

theorem next_of_nth_succ (h : c.nth (i + 1) = .ok l) :
    ∃ first d, c.next = .ok (first, d) ∧ d.nth i = .ok l := by
  rw [nth] at h
  cases hnext : c.next with
  | error e =>
    rw [hnext] at h
    cases h
  | ok r =>
    rw [hnext] at h
    exact ⟨r.1, r.2, rfl, h⟩

/-! ## One read -/

theorem Ahead.offset_le (h : c.Ahead d) : c.offset ≤ d.offset := by
  obtain ⟨taken, -, hoffset⟩ := h
  omega

theorem next_skipBlanks (c : Cursor) : c.skipBlanks.next = c.next :=
  next_congr c.skipBlanks_skipBlanks

/-- A lexeme takes a character behind its offset. -/
theorem offset_lt_next (h : c.next = .ok (l, d)) (hl : l.token ≠ .endOfPath) :
    l.offset < d.offset := by
  have hskip : c.skipBlanks.next = .ok (l, d) := c.next_skipBlanks.trans h
  have hlt : d.rest.length < c.skipBlanks.rest.length := (length_next hskip).resolve_left hl
  obtain ⟨taken, hrest, hoffset⟩ := ahead_next hskip
  rw [offset_next h, hoffset]
  cases taken with
  | nil => simp [hrest] at hlt
  | cons ch taken =>
    have hpos := ch.utf8Size_pos
    rw [Text.byteLength]
    omega

/-- At the end of the path reading leaves the cursor there. -/
theorem next_of_end (h : c.next = .ok (l, d)) (hl : l.token = .endOfPath) :
    d.next = .ok (l, d) := by
  have hnil := rest_of_end h hl
  obtain ⟨rest, htakes, hoffset, hd⟩ := next_eq_ok_iff.mp h
  have hrest : rest = [] := List.suffix_nil.mp (hnil ▸ htakes.suffix)
  rw [hl, hrest, past_endOfPath hnil] at hd
  rw [hd, next_skipBlanks, h, hd]

/-! ## Read after read -/

/-- A lexeme that is read stands ahead, and is read from where it stands. -/
theorem exists_cursor_of_nth (h : c.nth i = .ok l) : ∃ d e, c.Ahead d ∧ d.next = .ok (l, e) := by
  induction i generalizing c with
  | zero =>
    obtain ⟨e, hnext⟩ := next_of_nth_zero h
    exact ⟨c, e, .refl c, hnext⟩
  | succ i ih =>
    obtain ⟨first, d, hnext, hlater⟩ := next_of_nth_succ h
    obtain ⟨e, e', hahead, he⟩ := ih hlater
    exact ⟨e, e', (ahead_next hnext).trans hahead, he⟩

theorem offset_le_of_nth (h : c.nth i = .ok l) : c.offset ≤ l.offset := by
  obtain ⟨d, e, hahead, hnext⟩ := exists_cursor_of_nth h
  rw [offset_next hnext]
  exact (hahead.trans d.ahead_skipBlanks).offset_le

theorem offset_lt_of_nth (h : c.nth i = .ok l) (hl : l.token ≠ .endOfPath) (hij : i < j)
    (h' : c.nth j = .ok m) : l.offset < m.offset := by
  induction i generalizing c j with
  | zero =>
    obtain ⟨d, hnext⟩ := next_of_nth_zero h
    obtain ⟨k, rfl⟩ : ∃ k, j = k + 1 := ⟨j - 1, by omega⟩
    rw [nth_succ hnext] at h'
    exact Nat.lt_of_lt_of_le (offset_lt_next hnext hl) (offset_le_of_nth h')
  | succ i ih =>
    obtain ⟨first, d, hnext, hlater⟩ := next_of_nth_succ h
    obtain ⟨k, rfl⟩ : ∃ k, j = k + 1 := ⟨j - 1, by omega⟩
    rw [nth_succ hnext] at h'
    exact ih hlater (by omega) h'

theorem nth_of_error {e : PathError} (h : c.next = .error e) (i : Nat) : c.nth i = .error e := by
  cases i with
  | zero =>
    rw [nth, h]
    rfl
  | succ i => rw [nth, h]

theorem nth_of_end (h : c.next = .ok (l, d)) (hl : l.token = .endOfPath) (i : Nat) :
    c.nth i = .ok l := by
  induction i generalizing c with
  | zero => exact nth_zero h
  | succ i ih =>
    rw [nth_succ h]
    exact ih (next_of_end h hl)

theorem nth_of_le (h : c.nth i = .ok l) (hl : l.token = .endOfPath) (hij : i ≤ j) :
    c.nth j = .ok l := by
  induction i generalizing c j with
  | zero =>
    obtain ⟨d, hnext⟩ := next_of_nth_zero h
    exact nth_of_end hnext hl j
  | succ i ih =>
    obtain ⟨first, d, hnext, hlater⟩ := next_of_nth_succ h
    obtain ⟨k, rfl⟩ : ∃ k, j = k + 1 := ⟨j - 1, by omega⟩
    rw [nth_succ hnext]
    exact ih hlater (by omega)

/-- There are no more lexemes before the end, or before a fault, than characters. -/
theorem exists_nth_stop (c : Cursor) :
    ∃ i < c.rest.length + 1,
      (∃ e, c.nth i = .error e) ∨ ∃ l, c.nth i = .ok l ∧ l.token = .endOfPath := by
  induction hn : c.rest.length using Nat.strongRecOn generalizing c with
  | _ n ih =>
    subst hn
    cases hnext : c.next with
    | error e => exact ⟨0, by omega, .inl ⟨e, nth_of_error hnext 0⟩⟩
    | ok r =>
      obtain ⟨l, d⟩ := r
      by_cases hl : l.token = .endOfPath
      · exact ⟨0, by omega, .inr ⟨l, nth_zero hnext, hl⟩⟩
      · have hlt : d.rest.length < c.rest.length := (length_next hnext).resolve_left hl
        obtain ⟨i, hi, hstop⟩ := ih d.rest.length hlt d rfl
        refine ⟨i + 1, by omega, ?_⟩
        rw [nth_succ hnext]
        exact hstop

/-- A text is read to its end, or to a fault, by at most one read more than it has characters. Each
lexeme stands between two characters of the text, behind those that were read before it, and the end
behind them all; no label is empty; and what is read at the end is the end again and again. -/
theorem reading_ends (text : String) :
    (∃ i < text.toList.length + 1, (∃ e, (ofText text).nth i = .error e) ∨
        ∃ l, (ofText text).nth i = .ok l ∧ l.token = .endOfPath) ∧
      (∀ i l, (ofText text).nth i = .ok l → l.token ≠ .label "" ∧
        ∃ before rest, text.toList = before ++ rest ∧ Text.byteLength before = l.offset ∧
          (l.token = .endOfPath → rest = [])) ∧
      (∀ i j l m, i < j → (ofText text).nth i = .ok l → (ofText text).nth j = .ok m →
        l.token ≠ .endOfPath → l.offset < m.offset) ∧
      ∀ i j l, i ≤ j → (ofText text).nth i = .ok l → l.token = .endOfPath →
        (ofText text).nth j = .ok l := by
  refine ⟨exists_nth_stop (ofText text), fun i l h => ?_,
    fun i j l m hij h h' hl => offset_lt_of_nth h hl hij h',
    fun i j l hij h hl => nth_of_le h hl hij⟩
  obtain ⟨d, e, hahead, hnext⟩ := exists_cursor_of_nth h
  obtain ⟨before, htext, hbytes⟩ := hahead.trans d.ahead_skipBlanks
  refine ⟨named_next hnext, before, d.skipBlanks.rest, htext, ?_, rest_of_end hnext⟩
  rw [offset_next hnext, hbytes]
  exact (Nat.zero_add _).symm

example : (ofText " a[1] ").nth 4 = .ok ⟨.endOfPath, 6⟩ := by with_unfolding_all rfl

/-! ## Reads and lexemes -/

/-- Read after read gives the lexemes in turn, and from then on the end or the fault. -/
theorem nth_eq (c : Cursor) (i : Nat) :
    c.nth i = (Lexemes.ofCursor c).toList[i]?.elim
      ((Lexemes.ofCursor c).ending.map fun offset => ⟨.endOfPath, offset⟩) .ok := by
  induction c using Lexemes.ofCursor.induct generalizing i with
  | case1 c e hnext =>
    rw [nth_of_error hnext, Lexemes.ofCursor_of_error hnext]
    rfl
  | case2 c l d hnext hl =>
    rw [nth_of_end hnext hl, Lexemes.ofCursor_of_end hnext hl, ← hl]
    rfl
  | case3 c l d hnext hl hlt ih =>
    rw [Lexemes.ofCursor_of_next hnext hl]
    cases i with
    | zero => exact nth_zero hnext
    | succ i => exact (nth_succ hnext i).trans (ih i)

/-- The lexemes of a text are what is read in turn, up to the end or to a fault. -/
theorem toExcept_ofText (text : String) :
    (∀ ls, (Lexemes.ofText text).toExcept = .ok ls →
      ∀ i l, ls[i]? = some l → (ofText text).nth i = .ok l) ∧
    ∀ e, (Lexemes.ofText text).toExcept = .error e → ∃ i, (ofText text).nth i = .error e := by
  have hnth := nth_eq (ofText text)
  rw [← Lexemes.ofText] at hnth
  unfold Lexemes.toExcept
  cases hend : (Lexemes.ofText text).ending with
  | error e =>
    constructor
    · intro ls hls
      cases hls
    · intro e' he
      cases he
      refine ⟨(Lexemes.ofText text).toList.length, ?_⟩
      rw [hnth, List.getElem?_eq_none (Nat.le_refl _), hend]
      rfl
  | ok offset =>
    constructor
    · intro ls hls i l hl
      cases hls
      rw [hnth, hend]
      rcases Nat.lt_or_ge i (Lexemes.ofText text).toList.length with hi | hi
      · rw [List.getElem?_append_left hi] at hl
        rw [hl]
        rfl
      · -- behind the lexemes only the end is left
        rw [List.getElem?_append_right hi, List.getElem?_singleton] at hl
        split at hl
        · cases hl
          rw [List.getElem?_eq_none hi]
          rfl
        · cases hl
    · intro e he
      cases he

end Cursor

end LabelTree
