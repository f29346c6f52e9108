import LabelTree.Text.Cut

/-!
# Text — lines of lines

A line has no line feed in it, so that cutting it into lines gives it back, or nothing if it is
empty.
-/

namespace LabelTree.Text

theorem not_mem_of_mem_splitLines {cs line : List Char} (h : line ∈ splitLines cs) :
    '\n' ∉ line := by
  induction cs using splitLines.induct generalizing line with
  | case1 => simp [splitLines] at h
  | case2 cs ih | case3 cs ih =>
    rw [splitLines, List.mem_cons] at h
    rcases h with rfl | h
    · simp
    · exact ih h
  | case4 c cs hfeed hreturn hrest =>
    rw [splitLines.eq_4 _ _ hfeed hreturn, hrest, List.mem_singleton] at h
    simpa [h] using fun hc => hfeed hc.symm
  | case5 c cs hfeed hreturn first rest hrest ih =>
    rw [splitLines.eq_4 _ _ hfeed hreturn, hrest] at h
    rcases List.mem_cons.mp h with rfl | h
    · have hfirst := ih (hrest ▸ List.mem_cons_self)
      simpa [hfirst] using fun hc => hfeed hc.symm
    · exact ih (hrest ▸ List.mem_cons_of_mem _ h)

/-- Without a line feed all characters make one line, if there are any. -/
theorem splitLines_of_not_mem {cs : List Char} (h : '\n' ∉ cs) :
    splitLines cs = if cs = [] then [] else [cs] := by
  induction cs with
  | nil => rfl
  | cons c cs ih =>
    have hfeed : c = '\n' → False := by
      rintro rfl
      exact h List.mem_cons_self
    have hreturn : ∀ cs', c = '\r' → cs = '\n' :: cs' → False := by
      rintro cs' - rfl
      exact h (List.mem_cons_of_mem _ List.mem_cons_self)
    rw [splitLines.eq_4 _ _ hfeed hreturn, ih fun hcs => h (List.mem_cons_of_mem _ hcs)]
    cases cs <;> rfl

/-- A line of a text is its own only line, or has none if it is empty. -/
theorem lines_of_mem_lines {s line : String} (h : line ∈ lines s) :
    lines line = if line = "" then [] else [line] := by
  obtain ⟨cs, hcs, rfl⟩ := List.mem_map.mp h
  rw [lines, String.toList_ofList, splitLines_of_not_mem (not_mem_of_mem_splitLines hcs)]
  cases cs with
  | nil => rfl
  | cons c cs => simp

end LabelTree.Text
