/-!
# Text: quoted literals

A literal stands between two quotes of one kind. A backslash inside takes the character after it as
it is, so both the quote and the backslash can be written. `unquote` reads what follows the opening
quote, `enquote` writes a literal whole, and reading undoes writing.
-/

namespace LabelTree.Text

/-- Text of a literal and what follows its closing quote; `none` when no quote closes it. -/
def unquote (quote : Char) : List Char → Option (List Char × List Char)
  | [] => none
  | '\\' :: c :: cs => (unquote quote cs).map fun (text, rest) => (c :: text, rest)
  | c :: cs =>
    if c = quote then some ([], cs)
    else (unquote quote cs).map fun (text, rest) => (c :: text, rest)

/-- A literal's characters with a backslash before each quote and each backslash. -/
def escapeQuoted (quote : Char) : List Char → List Char
  | [] => []
  | c :: cs =>
    if c = quote ∨ c = '\\' then '\\' :: c :: escapeQuoted quote cs else c :: escapeQuoted quote cs

/-- A literal between its quotes. -/
def enquote (quote : Char) (text : List Char) : List Char :=
  quote :: (escapeQuoted quote text ++ [quote])

/-- The quotes that may enclose a literal. -/
def isQuote (c : Char) : Bool :=
  c = '"' || c = '\''

theorem unquote_escapeQuoted {quote : Char} (hq : quote ≠ '\\') (text rest : List Char) :
    unquote quote (escapeQuoted quote text ++ quote :: rest) = some (text, rest) := by
  induction text with
  | nil =>
    rw [escapeQuoted, List.nil_append, unquote]
    · simp
    · intro c cs h
      exact absurd h hq
  | cons c cs ih =>
    rw [escapeQuoted]
    split
    · simp [unquote, ih]
    · rename_i hc
      rw [not_or] at hc
      rw [List.cons_append, unquote]
      · simp [hc.1, ih]
      · intro d ds h
        exact absurd h hc.2

theorem length_unquote {quote : Char} {cs text rest : List Char}
    (h : unquote quote cs = some (text, rest)) : rest.length < cs.length := by
  fun_induction unquote quote cs generalizing text rest with
  | case1 => simp at h
  | case2 c cs ih =>
    obtain ⟨⟨t, r⟩, hr, h⟩ := Option.map_eq_some_iff.1 h
    cases h
    have := ih hr
    simp only [List.length_cons]
    omega
  | case3 => simp_all
  | case4 c cs _ hq ih =>
    obtain ⟨⟨t, r⟩, hr, h⟩ := Option.map_eq_some_iff.1 h
    cases h
    have := ih hr
    simp only [List.length_cons]
    omega

end LabelTree.Text
