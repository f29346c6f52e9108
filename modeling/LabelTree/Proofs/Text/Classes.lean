import LabelTree.Path.Label
import LabelTree.Text.Class
import LabelTree.Text.Quoted

/-!
# Text — where a class of characters ends

A word runs as far as its class of characters goes. `Stops` says that what follows does not go on
with the class, and then the word is cut off exactly. The classes that words begin with have no
blank in common with `isBlank`.
-/

namespace LabelTree.Text

/-- That `cs` does not begin with a character of the class `p`. -/
def Stops (p : Char → Bool) (cs : List Char) : Prop :=
  ∀ c ∈ cs.head?, p c = false

section Runs

variable {p : Char → Bool} {cs rest : List Char}

theorem Stops.nil : Stops p [] := by
  intro c hc
  cases hc

theorem Stops.cons {c : Char} (h : p c = false) : Stops p (c :: cs) := by
  intro d hd
  cases hd
  exact h

theorem Stops.takeWhile (h : Stops p cs) : cs.takeWhile p = [] := by
  cases cs with
  | nil => rfl
  | cons c cs => simp [h c rfl]

theorem Stops.dropWhile (h : Stops p cs) : cs.dropWhile p = cs := by
  cases cs with
  | nil => rfl
  | cons c cs => simp [h c rfl]

theorem takeWhile_append_stops (hcs : ∀ c ∈ cs, p c = true) (h : Stops p rest) :
    (cs ++ rest).takeWhile p = cs := by
  rw [List.takeWhile_append_of_pos hcs, h.takeWhile, List.append_nil]

theorem dropWhile_append_stops (hcs : ∀ c ∈ cs, p c = true) (h : Stops p rest) :
    (cs ++ rest).dropWhile p = rest := by
  rw [List.dropWhile_append_of_pos hcs, h.dropWhile]

/-- Blanks stop a class that holds no blank, and so does the word after them. -/
theorem Stops.blanks_append (hp : ∀ c, isBlank c = true → p c = false)
    (hcs : cs.all isBlank = true) (h : Stops p rest) : Stops p (cs ++ rest) := by
  cases cs with
  | nil => exact h
  | cons c cs =>
    rw [List.all_cons, Bool.and_eq_true] at hcs
    exact Stops.cons (hp c hcs.1)

theorem stops_dropWhile (p : Char → Bool) (cs : List Char) : Stops p (cs.dropWhile p) := by
  intro c hc
  have h := List.head?_dropWhile_not p cs
  simpa [Option.mem_def.mp hc] using h

theorem stops_trimLeft (cs : List Char) : Stops isBlank (trimLeft cs) :=
  stops_dropWhile isBlank cs

theorem trimLeft_trimLeft (cs : List Char) : trimLeft (trimLeft cs) = trimLeft cs :=
  (stops_trimLeft cs).dropWhile

theorem trimLeft_blanks_append (hcs : cs.all isBlank = true) (h : Stops isBlank rest) :
    trimLeft (cs ++ rest) = rest :=
  dropWhile_append_stops (by simpa using hcs) h

end Runs

/-! ## Classes that are apart -/

/-- Classes whose ranges are apart have no character in common. -/
theorem inRanges_eq_false {as bs : List (Nat × Nat)} {c : Char}
    (h : ∀ a ∈ as, ∀ b ∈ bs, a.2 < b.1 ∨ b.2 < a.1) (ha : inRanges as c = true) :
    inRanges bs c = false := by
  simp only [inRanges, List.any_eq_true, Bool.and_eq_true, decide_eq_true_eq] at ha
  obtain ⟨a, ha, hlo, hhi⟩ := ha
  simp only [inRanges, List.any_eq_false, Bool.and_eq_true, decide_eq_true_eq]
  intro b hb ⟨hlo', hhi'⟩
  rcases h a ha b hb with hlt | hlt <;> omega

/-- Classes that are apart are so from either side. -/
theorem eq_false_of_apart {p q : Char → Bool} {c : Char} (h : p c = true → q c = false)
    (hq : q c = true) : p c = false := by
  cases hp : p c with
  | false => rfl
  | true =>
    rw [h hp] at hq
    cases hq

/-- A character outside a class is none of the class. -/
theorem ne_of_class {p : Char → Bool} {c d : Char} (h : p c = true) (hd : p d = false) : c ≠ d := by
  rintro rfl
  rw [h] at hd
  cases hd

theorem isAlpha_eq_inRanges (c : Char) : c.isAlpha = inRanges [(65, 90), (97, 122)] c := by
  have halpha : c.isAlpha = (decide (c.val ≥ 65 ∧ c.val ≤ 90) ||
      decide (c.val ≥ 97) && decide (c.val ≤ 122)) := rfl
  simp [halpha, inRanges, UInt32.le_iff_toNat_le, ← Char.toNat_val]

theorem isDigit_eq_inRanges (c : Char) : c.isDigit = inRanges [(48, 57)] c := by
  simp [Char.isDigit, inRanges, UInt32.le_iff_toNat_le, ← Char.toNat_val]

variable {c : Char}

theorem isLetter_of_isBlank (h : isBlank c = true) : isLetter c = false := by
  rw [isLetter, isAlpha_eq_inRanges]
  split
  · exact inRanges_eq_false (by decide) h
  · exact inRanges_eq_false (by decide +kernel) h

theorem isDigit_of_isBlank (h : isBlank c = true) : c.isDigit = false := by
  rw [isDigit_eq_inRanges]
  exact inRanges_eq_false (by decide) h

theorem isNumeral_of_isBlank (h : isBlank c = true) : isNumeral c = false := by
  rw [isNumeral]
  split
  · exact isDigit_of_isBlank h
  · exact inRanges_eq_false (by decide +kernel) h

theorem isLetter_of_isDigit (h : c.isDigit = true) : isLetter c = false := by
  rw [isDigit_eq_inRanges] at h
  have hascii : c.toNat < 0x80 := by
    simp [inRanges] at h
    omega
  rw [isLetter, if_pos hascii, isAlpha_eq_inRanges]
  exact inRanges_eq_false (by decide) h

end LabelTree.Text

namespace LabelTree

open Text

variable {c : Char}

theorem isNameChar_of_isBlank (h : isBlank c = true) : isNameChar c = false := by
  have hother (d : Char) (hd : isBlank d = false) : c ≠ d := ne_of_class h hd
  simp [isNameChar, isLetter_of_isBlank h, isNumeral_of_isBlank h, hother '_' (by decide),
    hother '#' (by decide), hother '-' (by decide), hother '.' (by decide), hother ':' (by decide)]

theorem isNameStart_of_isBlank (h : isBlank c = true) : isNameStart c = false :=
  eq_false_of_apart
    (fun hn => eq_false_of_apart isNameChar_of_isBlank (isNameChar_of_isNameStart hn)) h

theorem isNameStart_of_isDigit (h : c.isDigit = true) : isNameStart c = false := by
  have hother (d : Char) (hd : d.isDigit = false) : c ≠ d := ne_of_class h hd
  simp [isNameStart, isLetter_of_isDigit h, hother '_' (by decide), hother '#' (by decide)]

end LabelTree
