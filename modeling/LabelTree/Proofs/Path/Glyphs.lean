import LabelTree.Path.Cursor
import LabelTree.Proofs.Text.Classes

/-!
# Path — labels are read back

Glyphs in writing are read as those glyphs, up to the next delimiter. `Glyph.spell` hides every
delimiter and every blank that would be dropped, and it never writes a step of another kind, so a
spelled label is read as one word and as that label (`Cursor.stepWord_spell`).
-/

namespace LabelTree

namespace Glyph

/-- A glyph that is not taken for the end of a label or for the beginning of an escape. -/
def isSafe : Glyph → Bool
  | plain c => !isStepDelimiter c && c ≠ '\\'
  | escaped _ => true

theorem read_written {gs : List Glyph} (h : gs.all isSafe = true) (rest : List Char) :
    read (gs.flatMap written ++ rest) = (read rest).map fun (glyphs, rest) =>
      (gs ++ glyphs, rest) := by
  induction gs with
  | nil => simp
  | cons g gs ih =>
    rw [List.all_cons, Bool.and_eq_true] at h
    have ih := ih h.2
    cases g with
    | escaped c => simp [written, read, ih, Function.comp_def]
    | plain c =>
      simp only [isSafe, Bool.and_eq_true, Bool.not_eq_true', decide_eq_true_eq] at h
      rw [List.flatMap_cons, written, List.append_assoc, List.singleton_append, read]
      · simp [h.1.1, ih, Function.comp_def]
      · intro hc
        exact absurd hc h.1.2
      · intro d ds hc
        exact absurd hc h.1.2

/-- That only blanks stand before the end of the text or the next delimiter. -/
def Delimited (rest : List Char) : Prop :=
  ∀ c ∈ (Text.trimLeft rest).head?, isStepDelimiter c = true

theorem read_of_delimited {rest : List Char} (h : Delimited rest) :
    read rest = some ((rest.takeWhile Text.isBlank).map plain, Text.trimLeft rest) := by
  induction rest with
  | nil => rfl
  | cons c cs ih =>
    cases hb : Text.isBlank c with
    | true =>
      have hdrop : Text.trimLeft (c :: cs) = Text.trimLeft cs := by simp [Text.trimLeft, hb]
      have hne : c ≠ '\\' := Text.ne_of_class hb (by decide)
      have hd : isStepDelimiter c = false := by
        simp [isStepDelimiter, Text.ne_of_class hb (d := '/') (by decide),
          Text.ne_of_class hb (d := '[') (by decide), Text.ne_of_class hb (d := ']') (by decide),
          Text.ne_of_class hb (d := '*') (by decide)]
      rw [Delimited, hdrop] at h
      rw [read]
      · simp [hd, ih h, hb, hdrop]
      · intro hc
        exact absurd hc hne
      · intro d ds hc
        exact absurd hc hne
    | false =>
      have hself : Text.trimLeft (c :: cs) = c :: cs := Text.trimLeft_eq_self_of_head hb
      have hd : isStepDelimiter c = true := h c (by rw [hself]; rfl)
      have hne : c ≠ '\\' := Text.ne_of_class hd (by decide)
      rw [read]
      · simp [hd, hb, hself]
      · intro hc
        exact absurd hc hne
      · intro d ds hc
        exact absurd hc hne

/-! ## Glyphs that spell a label -/

theorem isSafe_spellTail (cs : List Char) : (spellTail cs).all isSafe = true := by
  induction cs with
  | nil => rfl
  | cons c cs ih =>
    rw [spellTail, List.all_cons, ih, Bool.and_true]
    split <;> simp_all [isSafe]

theorem isSafe_spell (cs : List Char) : (spell cs).all isSafe = true := by
  cases cs with
  | nil => rfl
  | cons c cs =>
    rw [spell, List.all_cons, isSafe_spellTail, Bool.and_true]
    split <;> simp_all [isSafe]

theorem map_char_spellTail (cs : List Char) : (spellTail cs).map char = cs := by
  induction cs with
  | nil => rfl
  | cons c cs ih =>
    rw [spellTail, List.map_cons, ih]
    split <;> rfl

theorem label_spell (cs : List Char) : label (spell cs) = String.ofList cs := by
  rw [label]
  cases cs with
  | nil => rfl
  | cons c cs =>
    rw [spell, List.map_cons, map_char_spellTail]
    split <;> rfl

theorem map_char_spell (cs : List Char) : (spell cs).map char = cs :=
  String.ofList_inj.mp (label_spell cs)

/-- The last glyph of a spelled label is no plain blank. -/
theorem getLast_spellTail (cs : List Char) :
    ∀ g ∈ (spellTail cs).getLast?, g.isPlainBlank = false := by
  induction cs with
  | nil => simp [spellTail]
  | cons c cs ih =>
    cases cs with
    | nil =>
      rw [spellTail]
      split <;> simp_all [spellTail, isPlainBlank]
    | cons d ds =>
      have hne : spellTail (d :: ds) ≠ [] := by simp [spellTail]
      rw [spellTail, List.getLast?_cons_of_ne_nil hne]
      exact ih

theorem getLast_spell (cs : List Char) : ∀ g ∈ (spell cs).getLast?, g.isPlainBlank = false := by
  cases cs with
  | nil => simp [spell]
  | cons c cs =>
    cases cs with
    | nil =>
      rw [spell]
      split <;> simp_all [spellTail, isPlainBlank]
    | cons d ds =>
      have hne : spellTail (d :: ds) ≠ [] := by simp [spellTail]
      rw [spell, List.getLast?_cons_of_ne_nil hne]
      exact getLast_spellTail (d :: ds)

theorem trim_append_blanks {gs : List Glyph} (h : ∀ g ∈ gs.getLast?, g.isPlainBlank = false)
    {blanks : List Char} (hb : ∀ c ∈ blanks, Text.isBlank c = true) :
    trim (gs ++ blanks.map plain) = gs := by
  have hblanks : ∀ g ∈ (blanks.map plain).reverse, g.isPlainBlank = true := by
    simpa [isPlainBlank] using hb
  rw [trim, List.reverse_append, List.dropWhile_append_of_pos hblanks]
  cases hgs : gs.reverse with
  | nil => simpa using hgs.symm
  | cons g rest =>
    have hg : g.isPlainBlank = false := h g (by simp [List.getLast?_eq_head?_reverse, hgs])
    rw [List.dropWhile_cons_of_neg (by simp [hg]), ← hgs, List.reverse_reverse]

end Glyph

namespace Cursor

/-- A label is not spelled like a step of another kind. -/
theorem stepWord_spell {cs blanks : List Char} (hb : ∀ c ∈ blanks, Text.isBlank c = true) :
    stepWord (Glyph.spell cs ++ blanks.map .plain) = .label (String.ofList cs) := by
  have hchars : ∀ {gs}, Glyph.spell cs = gs → cs = gs.map Glyph.char := by
    rintro gs rfl
    exact (String.ofList_inj.mp (Glyph.label_spell cs)).symm
  rw [stepWord, Glyph.trim_append_blanks (Glyph.getLast_spell cs) hb]
  split
  · rename_i hdot
    rw [hchars hdot] at hdot
    exact absurd hdot (by decide)
  · rename_i hdots
    rw [hchars hdots] at hdots
    exact absurd hdots (by decide)
  · rw [Glyph.label_spell]

end Cursor

end LabelTree
