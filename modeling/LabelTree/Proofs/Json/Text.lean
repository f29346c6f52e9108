import LabelTree.Json.Reader
import LabelTree.Snapshot.Printer

/-!
# JSON — text that is read back

What is written for a string is read back as that string, and blanks before a word are passed over.
The printer escapes one character at a time, so the one lemma with an argument is that on a
character (`quoted_escapeChar`).
-/

namespace LabelTree.Json

open Snapshot (escapeChar printText newLine)

/-! ## Blanks -/

theorem skipSpace_cons {c : Char} (h : isSpace c = false) (cs : List Char) :
    skipSpace (c :: cs) = c :: cs := by
  simp [skipSpace, h]

@[simp] theorem skipSpace_newLine (level : Nat) (cs : List Char) :
    skipSpace (newLine level ++ cs) = skipSpace cs := by
  refine List.dropWhile_append_of_pos fun c hc => ?_
  rcases List.mem_cons.mp hc with rfl | hc
  · rfl
  · rw [List.eq_of_mem_replicate hc]
    rfl

/-! ## Escapes -/

variable {c : Char} {cs rest : List Char}

theorem hexDigit_digitChar : ∀ {n : Nat}, n < 16 → hexDigit (Nat.digitChar n) = some n := by
  decide

theorem byteLength_ge_length (cs : List Char) : cs.length ≤ Text.byteLength cs := by
  induction cs with
  | nil => exact Nat.le_refl 0
  | cons c cs ih =>
    have := c.utf8Size_pos
    simp only [List.length_cons, Text.byteLength]
    omega

theorem hexQuad_digitChar {a b : Nat} (ha : a < 16) (hb : b < 16) (rest : List Char) :
    hexQuad ('0' :: '0' :: Nat.digitChar a :: Nat.digitChar b :: rest) =
      .ok (a * 16 + b, rest) := by
  have hzero : hexDigit '0' = some 0 := rfl
  have hlength := byteLength_ge_length ('0' :: '0' :: Nat.digitChar a :: Nat.digitChar b :: rest)
  simp only [List.length_cons] at hlength
  rw [hexQuad, if_neg (by omega)]
  simp [hzero, hexDigit_digitChar ha, hexDigit_digitChar hb]

/-- A control character is written with two digits that matter. -/
theorem escape_control (hc : c.toNat < 0x20) (rest : List Char) :
    escape true ('u' :: '0' :: '0' :: Nat.digitChar (c.toNat / 16) ::
      Nat.digitChar (c.toNat % 16) :: rest) = .ok (c, rest) := by
  have hquad := hexQuad_digitChar (a := c.toNat / 16) (b := c.toNat % 16) (by omega) (by omega) rest
  rw [Nat.div_add_mod' c.toNat 16] at hquad
  have hlow : isLowSurrogate c.toNat = false := by
    simp only [isLowSurrogate, Bool.and_eq_false_iff, decide_eq_false_iff_not]
    omega
  have hhigh : isHighSurrogate c.toNat = false := by
    simp only [isHighSurrogate, Bool.and_eq_false_iff, decide_eq_false_iff_not]
    omega
  simp [escape, unicodeEscape, hquad, hlow, hhigh, Char.ofNat_toNat]

/-! ## Strings -/

theorem quoted_of_escape (h : escape true cs = .ok (c, rest)) :
    quoted true ('\\' :: cs) = (quoted true rest).map fun (text, rest) => (c :: text, rest) := by
  rw [quoted]
  split
  · rename_i e he
    rw [h] at he
    cases he
  · rename_i d left hd
    rw [h] at hd
    cases hd
    rfl

theorem quoted_of_plain (hquote : c ≠ '"') (hback : c ≠ '\\') (hc : ¬ c.toNat < 0x20)
    (cs : List Char) :
    quoted true (c :: cs) = (quoted true cs).map fun (text, rest) => (c :: text, rest) := by
  rw [quoted, if_neg hc]
  · exact hquote
  · exact hback

/-- A character is read from what is written for it. -/
theorem quoted_escapeChar (c : Char) (rest : List Char) :
    quoted true (escapeChar c ++ rest) =
      (quoted true rest).map fun (text, rest) => (c :: text, rest) := by
  unfold escapeChar
  split
  case h_8 hquote hback _ _ _ _ _ =>
    split
    · rename_i hc
      exact quoted_of_escape (escape_control hc rest)
    · rename_i hc
      exact quoted_of_plain hquote hback hc rest
  all_goals exact quoted_of_escape rfl

/-- A string is read from what is written for it after the opening quote. -/
theorem quoted_flatMap_escapeChar (text rest : List Char) :
    quoted true (text.flatMap escapeChar ++ '"' :: rest) = .ok (text, rest) := by
  induction text with
  | nil => rw [List.flatMap_nil, List.nil_append, quoted]
  | cons c text ih =>
    rw [List.flatMap_cons, List.append_assoc, quoted_escapeChar, ih]
    rfl

theorem printText_append (text : String) (rest : List Char) :
    printText text ++ rest = '"' :: (text.toList.flatMap escapeChar ++ '"' :: rest) := by
  simp [printText]

theorem skipSpace_printText (text : String) (rest : List Char) :
    skipSpace (printText text ++ rest) = printText text ++ rest :=
  skipSpace_cons rfl _

theorem readText_printText (text : String) (rest : List Char) :
    readText (printText text ++ rest) = .ok (text, rest) := by
  rw [readText, skipSpace_printText, printText_append]
  simp only [quoted_flatMap_escapeChar]
  simp [Except.map]

theorem readOptionalText_printText (text : String) (rest : List Char) :
    readOptionalText (printText text ++ rest) = .ok (some text, rest) := by
  rw [readOptionalText, skipSpace_printText]
  split
  · rename_i h
    rw [printText_append] at h
    cases h
  · rw [readText_printText]
    rfl

end LabelTree.Json
