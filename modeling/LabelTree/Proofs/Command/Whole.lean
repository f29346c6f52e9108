import LabelTree.Proofs.Command.Written
import LabelTree.Proofs.Path.Blanks

/-!
# Commands — paths as they are written

The splitter counts brackets, quotes and escapes character by character, paths are read lexeme by
lexeme. Over each lexeme both do the same: behind it the splitter stands at the depth of the cursor,
in no literal and in no escape. So the splitter takes a path whole exactly where it holds its blanks
together.
-/

namespace LabelTree

variable {depth : Nat} {quote : Option Char} {c : Char} {t : Token} {cs rest taken : List Char}

/-! ## Signs -/

namespace Token

variable {sign : Char}

theorem depthAfter_of_sign? (h : t.sign? = some sign) (depth : Nat) :
    t.depthAfter depth =
      if sign = '[' then depth + 1 else if sign = ']' then depth - 1 else depth := by
  cases t <;> cases h <;> rfl

theorem isQuote_of_sign? (h : t.sign? = some sign) : Text.isQuote sign = false := by
  cases t <;> cases h <;> rfl

theorem isBlank_of_sign? (h : t.sign? = some sign) : Text.isBlank sign = false := by
  cases t <;> cases h <;> decide

end Token

namespace Command

open Cursor (Takes)
open Text (Sealed)

/-! ## Characters of one argument -/

/-- That the splitter, at a depth and in a literal or in none, takes all characters as one
argument. -/
def Whole (depth : Nat) (quote : Option Char) (cs : List Char) : Prop :=
  bare depth quote cs = .ok (cs, [])

/-- What is put in front of an argument changes nothing about whether it is read. -/
theorem map_append_eq_ok_iff {e : Except SplitFault (List Char × List Char)} (front : List Char)
    {arg : List Char} :
    (e.map fun (a, r) => (front ++ a, r)) = .ok (front ++ arg, rest) ↔ e = .ok (arg, rest) := by
  cases e <;> simp [Except.map, Prod.ext_iff]

theorem whole_nil : Whole depth none [] ↔ depth = 0 := by
  by_cases hdepth : depth = 0 <;> simp [Whole, bare, hdepth, Nat.pos_iff_ne_zero]

theorem whole_escaped (c : Char) : Whole depth quote ('\\' :: c :: cs) ↔ Whole depth quote cs := by
  rw [Whole, bare]
  exact map_append_eq_ok_iff ['\\', c]

theorem whole_quoted (hc : c ≠ '\\') (q : Char) :
    Whole depth (some q) (c :: cs) ↔ Whole depth (if c = q then none else some q) cs := by
  rw [Whole, bare]
  · exact map_append_eq_ok_iff [c]
  · intro d ds h
    exact absurd h hc

theorem whole_inside (hc : c ≠ '\\') (hdepth : depth ≠ 0) :
    Whole depth none (c :: cs) ↔
      Whole (if c = '[' then depth + 1 else if c = ']' then depth - 1 else depth)
        (if Text.isQuote c then some c else none) cs := by
  rw [Whole, bare]
  · simp only [hdepth, false_and, and_false, if_false, Nat.pos_of_ne_zero hdepth, and_true]
    exact map_append_eq_ok_iff [c]
  · intro d ds h
    exact absurd h hc

theorem whole_outside (hc : c ≠ '\\') :
    Whole 0 none (c :: cs) ↔
      Text.isBlank c = false ∧ c ≠ ']' ∧ Whole (if c = '[' then 1 else 0) none cs := by
  rw [Whole, bare]
  · cases hblank : Text.isBlank c with
    | true => simp
    | false =>
      by_cases hclose : c = ']'
      · simp [hclose]
      · simp only [hclose, Bool.false_eq_true, and_false, false_and, if_false, Nat.lt_irrefl, ne_eq,
          not_false_eq_true, true_and]
        exact map_append_eq_ok_iff [c]
  · intro d ds h
    exact absurd h hc

/-- No blank begins an argument. -/
theorem isBlank_of_whole (h : Whole 0 none (c :: cs)) : Text.isBlank c = false := by
  rw [← Bool.not_eq_true]
  intro hblank
  rw [whole_outside (Text.ne_of_class hblank (by decide)), hblank] at h
  cases h.1

/-! ## Lexemes inside brackets -/

/-- The splitter leaves a literal where it ends for the path too. -/
theorem whole_literal {q : Char} {text : List Char} (h : Text.Literal q text taken)
    (hq : q ≠ '\\') :
    Whole depth (some q) (taken ++ rest) ↔ Whole depth none rest := by
  induction h with
  | close => rw [List.singleton_append, whole_quoted hq, if_pos rfl]
  | escaped _ ih => rw [List.cons_append, List.cons_append, whole_escaped, ih]
  | plain hescape hne _ ih => rw [List.cons_append, whole_quoted hescape, if_neg hne, ih]

/-- Inside brackets the splitter passes over a class without backslash, brackets and quotes. -/
theorem whole_class {p : Char → Bool} (hp : ['\\', '[', ']', '"', '\''].any p = false)
    (hdepth : depth ≠ 0) (h : ∀ c ∈ cs, p c = true) :
    Whole depth none (cs ++ rest) ↔ Whole depth none rest := by
  simp only [List.any_cons, List.any_nil, Bool.or_false, Bool.or_eq_false_iff] at hp
  obtain ⟨hescape, hopen, hclose, hdouble, hsingle⟩ := hp
  induction cs with
  | nil => rfl
  | cons c cs ih =>
    rw [List.forall_mem_cons] at h
    have hquote := Cursor.isQuote_eq_false_of_class h.1 hdouble hsingle
    rw [List.cons_append, whole_inside (Text.ne_of_class h.1 hescape) hdepth,
      if_neg (Text.ne_of_class h.1 hopen), if_neg (Text.ne_of_class h.1 hclose),
      if_neg (by simp [hquote]), ih h.2]

/-- It passes over what a class takes of them. -/
theorem whole_word {p : Char → Bool} (hp : ['\\', '[', ']', '"', '\''].any p = false)
    (hdepth : depth ≠ 0) (hc : p c = true) :
    Whole depth none (c :: cs) ↔ Whole depth none (cs.dropWhile p) := by
  have hcs : c :: cs = c :: cs.takeWhile p ++ cs.dropWhile p := by simp
  rw [hcs, whole_class hp hdepth (Text.forall_cons_takeWhile hc cs)]

/-- The characters of `!=`, `.` and `..`. -/
def isMark (c : Char) : Bool :=
  c = '!' || c = '=' || c = '.'

theorem whole_marks (cs : List Char) (h : cs.all isMark = true) (hdepth : depth ≠ 0) :
    Whole depth none (cs ++ rest) ↔ Whole depth none rest :=
  whole_class (by decide) hdepth (List.all_eq_true.mp h)

theorem whole_of_takes_inside (h : Takes true cs t rest) (ht : t ≠ .endOfPath)
    (hdepth : depth ≠ 0) :
    Whole depth none cs ↔ Whole (t.depthAfter depth) none rest := by
  cases h with
  | nothing => exact absurd rfl ht
  | sign hsign _ =>
    rw [whole_inside (Token.sign?_ne_backslash hsign) hdepth, Token.depthAfter_of_sign? hsign,
      Token.isQuote_of_sign? hsign]
    rfl
  | notEqual => exact whole_marks ['!', '='] rfl hdepth
  | dotDot => exact whole_marks ['.', '.'] rfl hdepth
  | dot => exact whole_marks ['.'] rfl hdepth
  | @string quote _ _ _ hquote hread =>
    have hne : quote ≠ '\\' := Text.ne_of_class hquote (by decide)
    obtain ⟨taken, rfl, hliteral⟩ := Text.exists_literal_of_unquote hread
    rw [whole_inside hne hdepth, if_neg (Text.ne_of_class hquote (by decide)),
      if_neg (Text.ne_of_class hquote (by decide)), if_pos hquote, whole_literal hliteral hne]
    rfl
  | number hdigit _ => exact whole_word (by decide) hdepth hdigit
  | name hname => exact whole_word (by decide) hdepth (isNameChar_of_isNameStart hname)

/-! ## Lexemes outside brackets -/

/-- A word is taken whole with what follows unless one of its blanks is not escaped. -/
theorem whole_written {gs : List Glyph} (h : gs.all Glyph.isSafe = true) :
    Whole 0 none (gs.flatMap Glyph.written ++ rest) ↔
      Sealed (gs.flatMap Glyph.written) ∧ Whole 0 none rest := by
  induction gs with
  | nil => simp [Text.sealed_nil]
  | cons g gs ih =>
    rw [List.all_cons, Bool.and_eq_true] at h
    cases g with
    | plain c =>
      obtain ⟨hdelimiter, hescape⟩ : isStepDelimiter c = false ∧ c ≠ '\\' := by
        simpa [Glyph.isSafe] using h.1
      have hbrackets : c ≠ '[' ∧ c ≠ ']' := by
        constructor <;> rintro rfl <;> cases hdelimiter
      calc Whole 0 none (c :: (gs.flatMap Glyph.written ++ rest))
        _ ↔ Text.isBlank c = false ∧ Sealed (gs.flatMap Glyph.written) ∧ Whole 0 none rest := by
          rw [whole_outside hescape, if_neg hbrackets.1, ih h.2]
          simp [hbrackets.2]
        _ ↔ Sealed (c :: gs.flatMap Glyph.written) ∧ Whole 0 none rest := by
          rw [Text.sealed_cons hescape, and_assoc]
    | escaped c =>
      calc Whole 0 none ('\\' :: c :: (gs.flatMap Glyph.written ++ rest))
        _ ↔ Sealed (gs.flatMap Glyph.written) ∧ Whole 0 none rest := by rw [whole_escaped, ih h.2]
        _ ↔ Sealed ('\\' :: c :: gs.flatMap Glyph.written) ∧ Whole 0 none rest := by
          rw [Text.sealed_escaped]

theorem whole_of_takes_outside (h : Takes false (taken ++ rest) t rest) (ht : t ≠ .endOfPath)
    (hclose : t ≠ .closeBracket) :
    Whole 0 none (taken ++ rest) ↔ Sealed taken ∧ Whole (t.depthAfter 0) none rest := by
  generalize hcs : taken ++ rest = cs at h
  cases h with
  | nothing => exact absurd rfl ht
  | @sign _ _ ch _ hsign _ =>
    obtain rfl : taken = [ch] := List.append_cancel_right hcs
    have hescape : ch ≠ '\\' := Token.sign?_ne_backslash hsign
    have hblank : Text.isBlank ch = false := Token.isBlank_of_sign? hsign
    have hne : ch ≠ ']' := by
      rintro rfl
      cases t <;> cases hsign
      exact hclose rfl
    rw [whole_outside hescape, Text.sealed_cons hescape, Token.depthAfter_of_sign? hsign]
    simp [hblank, hne, Text.sealed_nil]
  | @word _ _ glyphs _ _ hread =>
    obtain ⟨hsafe, rfl, -⟩ := Glyph.read_sound hread
    obtain rfl := List.append_cancel_right hcs
    rw [Cursor.depthAfter_stepWord, whole_written hsafe]

/-! ## Lexemes -/

/-- Over a lexeme the splitter goes as the cursor does, unless outside brackets a blank that is not
escaped ends the argument. -/
theorem whole_next {c d : Cursor} {l : Lexeme} (h : c.next = .ok (l, d)) (hl : l.token ≠ .endOfPath)
    (hclose : l.token = .closeBracket → c.depth ≠ 0) (hrest : c.rest = taken ++ d.rest) :
    Whole c.depth none c.rest ↔ (c.depth = 0 → Sealed taken) ∧ Whole d.depth none d.rest := by
  obtain ⟨blanks, word, hword, hblanks, htakes⟩ := Cursor.exists_word_next h
  cases List.append_cancel_right (hrest.symm.trans hword)
  rw [hrest, Cursor.depth_next h]
  by_cases hdepth : c.depth = 0
  · simp only [hdepth, bne_self_eq_false, forall_const] at htakes hclose ⊢
    cases blanks with
    | nil => exact whole_of_takes_outside htakes hl fun ht => hclose ht rfl
    | cons b blanks =>
      have hblank : Text.isBlank b = true := hblanks b List.mem_cons_self
      have hescape : b ≠ '\\' := Text.ne_of_class hblank (by decide)
      simp [whole_outside hescape, Text.sealed_cons hescape, hblank]
  · rw [bne_iff_ne.mpr hdepth] at htakes
    rw [List.append_assoc, whole_class (by decide) hdepth hblanks,
      whole_of_takes_inside htakes hl hdepth]
    simp [hdepth]

/-- Where no bracket is closed that is not open, and none stays open, the splitter takes all
characters as one argument exactly where each blank is held. -/
theorem whole_iff_keepsBlanks {c d : Cursor} {ls : List Lexeme} (h : c.Run ls d)
    (hbalanced : Token.Balanced c.depth (ls.map Lexeme.token)) (hdepth : d.depth = 0)
    (hblanks : d.rest.all Text.isBlank = true) : Whole c.depth none c.rest ↔ c.KeepsBlanks := by
  induction h with
  | nil c =>
    rw [c.keepsBlanks_of_all_isBlank hblanks hdepth, hdepth]
    cases hrest : c.rest with
    | nil => simp [whole_nil]
    | cons b cs =>
      rw [hrest, List.all_cons, Bool.and_eq_true] at hblanks
      have hescape : b ≠ '\\' := Text.ne_of_class hblanks.1 (by decide)
      simp [whole_outside hescape, hblanks.1]
  | cons hnext hl _ ih =>
    -- both sides ask the same of what the first lexeme takes
    obtain ⟨hclose, hbalanced⟩ := hbalanced
    obtain ⟨taken, hrest, -⟩ := Cursor.ahead_next hnext
    rw [← Cursor.depth_next hnext] at hbalanced
    rw [whole_next hnext hl hclose hrest, Cursor.keepsBlanks_next hnext hl hrest,
      ih hbalanced hdepth hblanks]

/-! ## Arguments -/

theorem splitArgs_eq_ok_iff {line : String} {args : List String} :
    splitArgs line = .ok args ↔ splitChars line.toList = .ok (args.map String.toList) := by
  have hinverse : Function.LeftInverse String.ofList String.toList := fun _ => String.ofList_toList
  have hinverse' : Function.LeftInverse String.toList String.ofList := fun _ => String.toList_ofList
  rw [splitArgs]
  split
  · rename_i words hwords
    rw [hwords, Except.ok.injEq, Except.ok.injEq]
    constructor
    · rintro rfl
      simp [hinverse'.comp_eq_id]
    · rintro rfl
      simp [hinverse.comp_eq_id]
  · rename_i hfault
    simp [hfault]
  · rename_i hfault
    simp [hfault]

theorem splitChars_trimLeft (cs : List Char) : splitChars (Text.trimLeft cs) = splitChars cs := by
  rw [splitChars_eq, splitChars_eq, Text.trimLeft_trimLeft]

theorem splitChars_bare (hc : Text.isBlank c = false) (hquote : Text.isQuote c = false)
    {arg : List Char} (h : bare 0 none (c :: cs) = .ok (arg, rest)) :
    splitChars (c :: cs) = (splitChars rest).map (arg :: ·) := by
  rw [splitChars_eq, Text.trimLeft_eq_self_of_head hc]
  simp only [hquote, h]
  rfl

theorem arg_eq_of_map {e : Except SplitFault (List (List Char))} {arg : List Char}
    (h : e.map (arg :: ·) = .ok [cs]) : arg = cs := by
  cases e with
  | error _ => cases h
  | ok _ =>
    cases h
    rfl

/-- A text is its only argument when the splitter takes it whole and no literal begins it. -/
theorem splitChars_eq_singleton_iff :
    splitChars cs = .ok [cs] ↔ cs ≠ [] ∧ Text.Stops Text.isQuote cs ∧ Whole 0 none cs := by
  constructor
  · intro h
    rw [splitChars_eq] at h
    have hle : (Text.trimLeft cs).length ≤ cs.length := (List.dropWhile_suffix _).length_le
    split at h
    · cases h
    · rename_i c rest htrim
      rw [htrim] at hle
      split at h
      · -- what a literal holds is shorter than the literal
        split at h
        · cases h
        · rename_i hread
          cases arg_eq_of_map h
          obtain ⟨taken, rfl, hliteral⟩ := Text.exists_literal_of_unquote hread
          have hlt := hliteral.length_lt
          rw [List.length_cons, List.length_append] at hle
          omega
      · rename_i hquote
        split at h
        · cases h
        · rename_i arg left hbare
          cases arg_eq_of_map h
          have happend := bare_append hbare
          obtain rfl : left = [] := by
            have hlength := congrArg List.length happend
            rw [List.length_append] at hlength
            exact List.eq_nil_of_length_eq_zero (by omega)
          rw [List.append_nil] at happend
          subst happend
          exact ⟨List.cons_ne_nil c rest, .cons (by simpa using hquote), hbare⟩
  · rintro ⟨hne, hquote, hwhole⟩
    obtain ⟨c, rest, rfl⟩ := List.exists_cons_of_ne_nil hne
    rw [splitChars_bare (isBlank_of_whole hwhole) (hquote c rfl) hwhole, splitChars_eq]
    rfl

/-- Where no bracket, literal or escape is open, a blank ends an argument. -/
theorem bare_append_blank (h : Whole depth quote cs) (hcs : Text.escapesNext cs = false)
    (hc : Text.isBlank c = true) : bare depth quote (cs ++ c :: rest) = .ok (cs, c :: rest) := by
  rw [Whole] at h
  fun_induction bare depth quote cs with
  | case3 depth quote hquote hdepth =>
    obtain rfl : quote = none := by simpa using hquote
    obtain rfl : depth = 0 := by omega
    rw [List.nil_append, bare]
    · simp [hc]
    · intro d ds hd
      exact absurd hd (Text.ne_of_class hc (by decide))
  | case4 depth quote d ds ih =>
    rw [Text.escapesNext_escaped] at hcs
    rw [List.cons_append, List.cons_append, bare, ih ((map_append_eq_ok_iff ['\\', d]).mp h) hcs]
    rfl
  | case5 depth d ds hdangling q ih =>
    have hd := Text.ne_backslash_of_dangling hdangling (Text.ne_backslash_of_closed hcs)
    rw [Text.escapesNext_cons hd] at hcs
    rw [List.cons_append, bare]
    · rw [ih ((map_append_eq_ok_iff [d]).mp h) hcs]
      rfl
    · exact fun _ _ h => absurd h hd
  | case8 depth d ds hdangling hblank hclose depth' quote' ih =>
    have hd := Text.ne_backslash_of_dangling hdangling (Text.ne_backslash_of_closed hcs)
    rw [Text.escapesNext_cons hd] at hcs
    rw [List.cons_append, bare]
    · rw [if_neg hblank, if_neg hclose]
      dsimp only
      rw [ih ((map_append_eq_ok_iff [d]).mp h) hcs]
      rfl
    · exact fun _ _ h => absurd h hd
  | _ => cases h

/-- A text that is one argument by itself, and in which no escape stays open. -/
def IsWord (word : String) : Prop :=
  splitArgs word = .ok [word] ∧ Text.escapesNext word.toList = false

/-- Names of verbs are words. -/
theorem isWord_of_ofName? {name : String} {verb : Verb} (h : Verb.ofName? name = some verb) :
    IsWord name := by
  obtain ⟨hne, hplain⟩ := Verb.isPlain_of_ofName? h
  have hclass : ∀ c ∈ name.toList, Text.isPlain c = true := List.all_eq_true.mp hplain
  constructor
  · rw [splitArgs_eq_ok_iff, List.map_singleton, splitChars_eq_singleton_iff]
    refine ⟨hne, fun c hc => ?_, ?_⟩
    · exact (Text.isPlain_iff.mp (hclass c (List.mem_of_mem_head? hc))).2.1
    · have hbare : bare 0 none (name.toList ++ []) = .ok (name.toList, []) :=
        bare_of_isPlain hplain (by simp)
      rwa [List.append_nil] at hbare
  · exact Text.escapesNext_of_class (by decide) hclass

/-- A text behind a word and blanks is split as it is by itself. -/
theorem splitChars_append_word {word blanks : List Char} (hword : splitChars word = .ok [word])
    (hclosed : Text.escapesNext word = false) (hne : blanks ≠ [])
    (hblanks : ∀ b ∈ blanks, Text.isBlank b = true) :
    splitChars (word ++ (blanks ++ cs)) = (splitChars cs).map (word :: ·) := by
  obtain ⟨hword, hquote, hwhole⟩ := splitChars_eq_singleton_iff.mp hword
  obtain ⟨c, word, rfl⟩ := List.exists_cons_of_ne_nil hword
  obtain ⟨b, blanks, rfl⟩ := List.exists_cons_of_ne_nil hne
  have hbare :
      bare 0 none (c :: word ++ b :: (blanks ++ cs)) = .ok (c :: word, b :: (blanks ++ cs)) :=
    bare_append_blank hwhole hclosed (hblanks b List.mem_cons_self)
  have hskip : Text.trimLeft (b :: blanks ++ cs) = Text.trimLeft cs :=
    List.dropWhile_append_of_pos hblanks
  calc splitChars (c :: (word ++ (b :: blanks ++ cs)))
    _ = (splitChars (b :: blanks ++ cs)).map ((c :: word) :: ·) :=
      splitChars_bare (isBlank_of_whole hwhole) (hquote c rfl) hbare
    _ = (splitChars cs).map ((c :: word) :: ·) := by
      rw [← splitChars_trimLeft, hskip, splitChars_trimLeft]

/-- So it is one argument there where it is one by itself. -/
theorem splitArgs_append_word {word blanks text : String} (hword : IsWord word) (hne : blanks ≠ "")
    (hblanks : Text.isBlankText blanks = true) :
    splitArgs (word ++ blanks ++ text) = .ok [word, text] ↔ splitArgs text = .ok [text] := by
  obtain ⟨hsplit, hclosed⟩ := hword
  have hline : splitChars (word ++ blanks ++ text).toList =
      (splitChars text.toList).map (word.toList :: ·) := by
    rw [String.toList_append, String.toList_append, List.append_assoc]
    exact splitChars_append_word (splitArgs_eq_ok_iff.mp hsplit) hclosed
      (mt String.toList_eq_nil_iff.mp hne) (List.all_eq_true.mp hblanks)
  rw [splitArgs_eq_ok_iff, splitArgs_eq_ok_iff, hline]
  cases splitChars text.toList <;> simp [Except.map]

/-- A path that compiles is split off as it is written, by itself and behind any word and blanks,
exactly where no quote begins it and each of its blanks stands inside brackets or is escaped. -/
theorem splitArgs_keeps_path {text : String} {path : Path} (h : Path.compile text = .ok path) :
    (splitArgs text = .ok [text] ↔
        Text.Stops Text.isQuote text.toList ∧ (Cursor.ofText text).KeepsBlanks) ∧
      ∀ word blanks : String, IsWord word → blanks ≠ "" → Text.isBlankText blanks = true →
        (splitArgs (word ++ blanks ++ text) = .ok [word, text] ↔
          Text.Stops Text.isQuote text.toList ∧ (Cursor.ofText text).KeepsBlanks) := by
  obtain ⟨ls, d, hrun, hspelled, hdepth, hblanks⟩ := Path.exists_run_of_compile h
  have hwhole : Whole 0 none text.toList ↔ (Cursor.ofText text).KeepsBlanks :=
    whole_iff_keepsBlanks hrun (hspelled.balanced 0) hdepth hblanks
  have hne : text.toList ≠ [] := by
    intro hnil
    cases String.toList_eq_nil_iff.mp hnil
    have hempty : Path.compile "" = .error ⟨.empty, 0⟩ := by with_unfolding_all rfl
    cases h.symm.trans hempty
  have halone : splitArgs text = .ok [text] ↔
      Text.Stops Text.isQuote text.toList ∧ (Cursor.ofText text).KeepsBlanks := by
    rw [splitArgs_eq_ok_iff, List.map_singleton, splitChars_eq_singleton_iff, hwhole]
    exact and_iff_right hne
  refine ⟨halone, fun word blanks hword hblank hall => ?_⟩
  rw [splitArgs_append_word hword hblank hall, halone]

/-- An escaped blank, a literal with a bracket, a quote and a blank in it, and blanks in
brackets. -/
theorem splitArgs_keeps_path_literal :
    let path : Path :=
      ⟨"a\\ b[. = ']\\' ' ]", false, [.select (.child (.exact "a b")) [.compare .self "]' " false]]⟩
    Path.compile path.text = .ok path ∧ (Cursor.ofText path.text).KeepsBlanks ∧
      splitArgs ("get \t" ++ path.text) = .ok ["get", path.text] := by
  intro path
  have hpath : Path.compile path.text = .ok path := by
    unfold path
    decide +kernel
  have hbare : bare 0 none path.text.toList = .ok (path.text.toList, []) := by
    unfold path
    decide +kernel
  have hquote : Text.Stops Text.isQuote path.text.toList := by
    simp [path, Text.Stops, Text.isQuote]
  have hsplit : splitArgs path.text = .ok [path.text] :=
    splitArgs_eq_ok_iff.mpr (splitChars_eq_singleton_iff.mpr ⟨by simp [path], hquote, hbare⟩)
  obtain ⟨halone, hbehind⟩ := splitArgs_keeps_path hpath
  have hkept := halone.mp hsplit
  refine ⟨hpath, hkept.2, ?_⟩
  exact (hbehind "get" " \t" (isWord_of_ofName? rfl) (by decide) (by decide)).mpr hkept

end Command

end LabelTree
