import LabelTree.Proofs.Path.Offsets

/-!
# Path — texts put together

Text behind lexemes that were read changes none of them, provided that something is left after them
or that the text goes on with a slash, for no word takes in an unescaped slash
(`Cursor.Run.append`). Text before them moves their offsets and does nothing else
(`Cursor.Run.shift`).
-/

namespace LabelTree

/-! ## Slashes at the end -/

namespace Path

/-- Trimming leaves a text as it is when no slash ends it. -/
theorem trimSlashes_eq_self_iff {text : String} :
    trimSlashes text = text ↔ text.toList.getLast? ≠ some '/' := by
  have hlist : trimSlashes text = text ↔
      text.toList.reverse.dropWhile (· = '/') = text.toList.reverse := by
    rw [trimSlashes, ← String.toList_inj, String.toList_ofList, List.reverse_eq_iff]
  rw [hlist, List.dropWhile_eq_self_iff, ← List.head?_reverse]
  cases text.toList.reverse <;> simp

/-- Trimming takes the only slash that ends a text. -/
theorem trimSlashes_append_slash {text : String} {cs : List Char}
    (htext : text.toList = cs ++ ['/'])
    (hcs : cs.getLast? ≠ some '/') : trimSlashes text ++ "/" = text := by
  have hkept : trimSlashes (String.ofList cs) = String.ofList cs :=
    trimSlashes_eq_self_iff.mpr (by simpa using hcs)
  have htrim : trimSlashes text = trimSlashes (String.ofList cs) := by
    simp [trimSlashes, htext]
  rw [htrim, hkept, ← String.toList_inj, String.toList_append, String.toList_ofList, htext]
  rfl

end Path

/-! ## Words before more text -/

/-- That no word ends in `rest` and goes on with `more`. -/
def Text.Parted (rest more : List Char) : Prop :=
  rest = [] → ∃ cs, more = '/' :: cs

section Words

variable {cs rest more text : List Char}

namespace Text

theorem Stops.append {p : Char → Bool} (hne : cs ≠ []) (h : Stops p cs) (more : List Char) :
    Stops p (cs ++ more) := by
  cases cs with
  | nil => exact absurd rfl hne
  | cons c cs => exact .cons (h c rfl)

theorem Stops.append_parted {p : Char → Bool} (hp : p '/' = false) (h : Stops p rest)
    (hparted : Parted rest more) : Stops p (rest ++ more) := by
  cases rest with
  | nil =>
    obtain ⟨ds, rfl⟩ := hparted rfl
    exact .cons hp
  | cons c rest => exact h.append (List.cons_ne_nil c rest) more

/-- More text behind a text does not change where a class ends in it. -/
theorem span_append_parted {p : Char → Bool} (hp : p '/' = false)
    (h : Parted (cs.dropWhile p) more) :
    (cs ++ more).takeWhile p = cs.takeWhile p ∧
      (cs ++ more).dropWhile p = cs.dropWhile p ++ more := by
  have hclass : ∀ c ∈ cs.takeWhile p, p c = true := fun _ => List.mem_takeWhile_imp
  have hstops : Stops p (cs.dropWhile p ++ more) := (stops_dropWhile p cs).append_parted hp h
  have hcs : cs ++ more = cs.takeWhile p ++ (cs.dropWhile p ++ more) := by
    rw [← List.append_assoc, List.takeWhile_append_dropWhile]
  constructor
  · rw [hcs, takeWhile_append_stops hclass hstops]
  · rw [hcs, dropWhile_append_stops hclass hstops]

theorem unquote_append {quote : Char} (hquote : quote ≠ '\\')
    (h : unquote quote cs = some (text, rest)) (more : List Char) :
    unquote quote (cs ++ more) = some (text, rest ++ more) := by
  fun_induction unquote quote cs generalizing text rest with
  | case1 => cases h
  | case2 c cs ih =>
    obtain ⟨⟨t, r⟩, hr, heq⟩ := Option.map_eq_some_iff.mp h
    cases heq
    simp [unquote, ih hr]
  | case3 =>
    cases h
    rw [List.cons_append, unquote]
    · simp
    · intro d ds heq
      exact absurd heq hquote
  | case4 c cs hc hne ih =>
    obtain ⟨⟨t, r⟩, hr, heq⟩ := Option.map_eq_some_iff.mp h
    cases heq
    rw [List.cons_append, unquote]
    · simp [hne, ih hr]
    · -- a backslash that stands last is closed by nothing
      intro d ds hback hds
      cases cs with
      | nil => cases hr
      | cons d cs => exact hc d cs hback rfl

end Text

namespace Glyph

variable {glyphs : List Glyph}

/-- What is read of a text: glyphs in writing, up to the next delimiter. -/
theorem read_sound (h : read cs = some (glyphs, rest)) :
    glyphs.all isSafe = true ∧ cs = glyphs.flatMap written ++ rest ∧
      ∀ c ∈ rest.head?, isStepDelimiter c = true := by
  fun_induction read cs generalizing glyphs with
  | case1 =>
    cases h
    simp
  | case2 => cases h
  | case3 c cs ih =>
    obtain ⟨⟨gs, r⟩, hr, heq⟩ := Option.map_eq_some_iff.mp h
    cases heq
    obtain ⟨hsafe, rfl, hend⟩ := ih hr
    exact ⟨by simpa [isSafe] using hsafe, by simp [written], hend⟩
  | case4 c cs _ _ hc =>
    cases h
    exact ⟨rfl, rfl, fun d hd => by cases hd; exact hc⟩
  | case5 c cs hdangling hescape hc ih =>
    obtain ⟨⟨gs, r⟩, hr, heq⟩ := Option.map_eq_some_iff.mp h
    cases heq
    obtain ⟨hsafe, rfl, hend⟩ := ih hr
    have hback : c ≠ '\\' := by
      rintro rfl
      cases hcs : gs.flatMap written ++ rest with
      | nil => exact hdangling rfl hcs
      | cons d ds => exact hescape d ds rfl hcs
    exact ⟨by simpa [isSafe, hc, hback] using hsafe, by simp [written], hend⟩

theorem read_append (h : read cs = some (glyphs, rest)) (more : List Char) :
    read (cs ++ more) = (read (rest ++ more)).map fun (gs, rest) => (glyphs ++ gs, rest) := by
  obtain ⟨hsafe, rfl, -⟩ := read_sound h
  rw [List.append_assoc, read_written hsafe]

theorem read_delimiter {c : Char} (hc : isStepDelimiter c = true) (cs : List Char) :
    read (c :: cs) = some ([], c :: cs) := by
  have hback : c ≠ '\\' := Text.ne_of_class hc (by decide)
  rw [read]
  · rw [if_pos hc]
  · exact fun h => absurd h hback
  · exact fun _ _ h => absurd h hback

theorem read_append_parted (h : read cs = some (glyphs, rest)) (hp : Text.Parted rest more) :
    read (cs ++ more) = some (glyphs, rest ++ more) := by
  have hnext : read (rest ++ more) = some ([], rest ++ more) := by
    cases rest with
    | nil =>
      obtain ⟨ds, rfl⟩ := hp rfl
      exact read_delimiter (by decide) ds
    | cons c rest => exact read_delimiter ((read_sound h).2.2 c rfl) (rest ++ more)
  rw [read_append h, hnext]
  simp

/-- A word in writing ends in its last character, escaped or not. -/
theorem getLast?_flatMap_written (gs : List Glyph) :
    (gs.flatMap written).getLast? = (gs.map char).getLast? := by
  induction gs with
  | nil => rfl
  | cons g gs ih =>
    cases gs with
    | nil => cases g <;> rfl
    | cons h gs =>
      have hne : (h :: gs).flatMap written ≠ [] := by cases h <;> simp [written]
      rw [List.flatMap_cons, List.getLast?_append_of_ne_nil _ hne, ih]
      exact List.getLast?_cons_cons.symm

end Glyph

end Words

/-! ## Lexemes before more text -/

namespace Cursor

variable {c d e : Cursor} {l : Lexeme} {ls : List Lexeme} {t : Token} {more rest : List Char}

/-- The cursor with more text behind what remains. -/
def append (c : Cursor) (more : List Char) : Cursor :=
  { c with rest := c.rest ++ more }

theorem append_moveTo (c : Cursor) (rest more : List Char) :
    (c.append more).moveTo (rest ++ more) = (c.moveTo rest).append more := by
  simp only [moveTo, append, Text.byteLength_append, Nat.add_sub_add_right]

theorem append_past (c : Cursor) (t : Token) (rest more : List Char) :
    (c.append more).past t (rest ++ more) = (c.past t rest).append more := by
  rw [past, append_moveTo]
  rfl

/-- Text behind a token does not change it. -/
theorem Takes.append {inside : Bool} {cs : List Char} (h : Takes inside cs t rest)
    (ht : t ≠ .endOfPath) (hp : Text.Parted rest more) :
    Takes inside (cs ++ more) t (rest ++ more) := by
  cases h with
  | nothing => exact absurd rfl ht
  | sign hsign hdelimiter => exact .sign hsign hdelimiter
  | word hne hstops hread =>
    exact .word (List.append_ne_nil_of_left_ne_nil hne more) (hstops.append hne more)
      (Glyph.read_append_parted hread hp)
  | notEqual => exact .notEqual
  | dotDot => exact .dotDot
  | dot hstops => exact .dot (hstops.append_parted (by decide) hp)
  | string hquote hread =>
    exact .string hquote (Text.unquote_append (Text.ne_of_class hquote (by decide)) hread more)
  | @number ch cs hdigit hle =>
    obtain ⟨htake, hdrop⟩ := Text.span_append_parted (by decide) hp
    have htakes : Takes true (ch :: (cs ++ more)) _ _ := .number hdigit (by rwa [htake])
    rwa [htake, hdrop] at htakes
  | @name ch cs hname =>
    obtain ⟨htake, hdrop⟩ := Text.span_append_parted (by decide) hp
    have htakes : Takes true (ch :: (cs ++ more)) _ _ := .name hname
    rwa [htake, hdrop] at htakes

theorem skipBlanks_append (hne : c.skipBlanks.rest ≠ []) (more : List Char) :
    (c.append more).skipBlanks = c.skipBlanks.append more := by
  have htrim : Text.trimLeft (c.rest ++ more) = Text.trimLeft c.rest ++ more :=
    (Text.span_append_parted (by decide) fun h => absurd h hne).2
  rw [skipBlanks, append, htrim]
  exact append_moveTo c _ more

/-- Text behind a lexeme does not change it. -/
theorem next_append (h : c.next = .ok (l, d)) (hl : l.token ≠ .endOfPath)
    (hp : Text.Parted d.rest more) : (c.append more).next = .ok (l, d.append more) := by
  have hstart := skipBlanks_append (skipBlanks_ne_nil h hl) more
  obtain ⟨rest, htakes, hoffset, rfl⟩ := next_eq_ok_iff.mp h
  refine next_eq_ok_iff.mpr ⟨rest ++ more, ?_, ?_, ?_⟩ <;> rw [hstart]
  · exact htakes.append hl hp
  · exact hoffset
  · exact (append_past _ _ rest more).symm

/-- Blanks at the end do not matter to text behind them. -/
theorem Run.append (h : c.Run ls d) (hp : Text.Parted d.rest more) :
    (c.append more).Run ls (d.append more) := by
  induction h with
  | nil => exact .nil _
  | @cons c d e l ls hnext hl hrun ih =>
    have hparted : Text.Parted d.rest more := by
      intro hnil
      obtain ⟨taken, hrest, -⟩ := hrun.ahead
      exact hp (List.append_eq_nil_iff.mp (hrest.symm.trans hnil)).2
    exact .cons (next_append hnext hl hparted) hl (ih hp)

/-! ## Depths -/

theorem Run.depth_eq (h : c.Run ls d) :
    d.depth = (ls.map Lexeme.token).foldl Token.depthAfter c.depth := by
  induction h with
  | nil => rfl
  | cons hnext _ _ ih => rw [ih, depth_next hnext, List.map_cons, List.foldl_cons]

end Cursor

/-! ### Brackets are closed -/

section Depth

open Token (depthAfter)

theorem Predicate.Spelled.foldl_depthAfter {p : Predicate} {inner : List Token}
    (h : p.Spelled inner) (depth : Nat) : inner.foldl depthAfter depth = depth := by
  cases h with
  | compare operand literal negated => cases operand <;> cases negated <;> rfl
  | _ => rfl

theorem Predicate.AllSpelled.foldl_depthAfter {ps : List Predicate} {tokens : List Token}
    (h : AllSpelled ps tokens) (depth : Nat) : tokens.foldl depthAfter depth = depth := by
  induction h with
  | nil => rfl
  | cons hp _ ih =>
    rw [List.foldl_cons, List.foldl_append, hp.foldl_depthAfter, List.foldl_cons]
    exact ih

theorem Axis.depthAfter_token (axis : Axis) (depth : Nat) :
    axis.token.depthAfter depth = depth := by
  cases axis with
  | child matcher => cases matcher <;> rfl
  | self => rfl
  | parent => rfl

theorem Step.Spelled.foldl_depthAfter {step : Step} {ls : List Lexeme} (h : step.Spelled ls)
    (depth : Nat) : (ls.map Lexeme.token).foldl depthAfter depth = depth := by
  cases h with
  | @select axis ps head brackets hhead hps =>
    rw [List.map_cons, List.foldl_cons, hhead, Axis.depthAfter_token]
    exact hps.foldl_depthAfter depth
  | append hhead hmarker =>
    rw [List.map_cons, hmarker, hhead]
    rfl

theorem Step.AllSpelled.foldl_depthAfter {steps : List Step} {ls : List Lexeme}
    (h : AllSpelled steps ls) (depth : Nat) :
    (ls.map Lexeme.token).foldl depthAfter depth = depth := by
  induction h with
  | final hstep => exact hstep.foldl_depthAfter depth
  | cons _ hstep hslash _ ih =>
    rw [List.map_append, List.foldl_append, hstep.foldl_depthAfter, List.map_cons, hslash]
    exact ih

theorem Path.Spelled.foldl_depthAfter {absolute : Bool} {steps : List Step} {ls : List Lexeme}
    (h : Path.Spelled absolute steps ls) (depth : Nat) :
    (ls.map Lexeme.token).foldl depthAfter depth = depth := by
  cases h with
  | root hslash =>
    rw [List.map_singleton, hslash]
    rfl
  | absolute hslash hall =>
    rw [List.map_cons, hslash]
    exact hall.foldl_depthAfter depth
  | relative hall => exact hall.foldl_depthAfter depth

end Depth

namespace Path

/-- The lexemes of a text that compiles are read up to blanks, and no bracket stays open. -/
theorem exists_run_of_compile {text : String} {path : Path} (h : compile text = .ok path) :
    ∃ ls d, (Cursor.ofText text).Run ls d ∧ Spelled path.absolute path.steps ls ∧ d.depth = 0 ∧
      d.rest.all Text.isBlank = true := by
  obtain ⟨ls, offset, hls, hspelled⟩ := spelled_of_compile h
  obtain ⟨d, hrun, hd⟩ := Lexemes.exists_run hls
  obtain ⟨e, hend⟩ := Lexemes.exists_next_of_finish hd
  refine ⟨ls, d, hrun, hspelled, ?_, Cursor.all_isBlank_of_end hend rfl⟩
  rw [hrun.depth_eq]
  exact hspelled.foldl_depthAfter 0

end Path

/-! ## Lexemes after more text -/

/-- The error when `k` more bytes stand before it. -/
def PathError.shift (e : PathError) (k : Nat) : PathError :=
  { e with offset := e.offset + k }

/-- The lexeme when `k` more bytes stand before it. -/
def Lexeme.shift (l : Lexeme) (k : Nat) : Lexeme :=
  { l with offset := l.offset + k }

/-- The lexemes when `k` more bytes stand before them. -/
def Lexemes.shift (k : Nat) : Lexemes → Lexemes
  | finish offset => finish (offset + k)
  | fault e => fault (e.shift k)
  | next token offset rest => next token (offset + k) (rest.shift k)

namespace Cursor

variable {c : Cursor} {l : Lexeme}

/-- The cursor when `k` more bytes stand before it. -/
def shift (c : Cursor) (k : Nat) : Cursor :=
  { c with offset := c.offset + k }

theorem shift_moveTo (c : Cursor) (k : Nat) (rest : List Char) :
    (c.shift k).moveTo rest = (c.moveTo rest).shift k := by
  simp only [moveTo, shift, Nat.add_right_comm]

theorem shift_enter (c : Cursor) (k : Nat) (rest : List Char) :
    (c.shift k).enter rest = (c.enter rest).shift k := by
  rw [enter, shift_moveTo]
  rfl

theorem shift_leave (c : Cursor) (k : Nat) (rest : List Char) :
    (c.shift k).leave rest = (c.leave rest).shift k := by
  rw [leave, shift_moveTo]
  rfl

/-- What reading a token gives when `k` more bytes stand before it. -/
def shiftToken (k : Nat) : Except PathError (Token × Cursor) → Except PathError (Token × Cursor)
  | .error e => .error (e.shift k)
  | .ok (t, d) => .ok (t, d.shift k)

theorem stepToken_shift (c : Cursor) (k : Nat) :
    stepToken (c.shift k) = shiftToken k (stepToken c) := by
  have hrest : (c.shift k).rest = c.rest := rfl
  unfold stepToken
  rw [hrest]
  split
  case h_6 =>
    split
    · simp only [shiftToken, PathError.shift, shift, Nat.add_right_comm]
    · simp only [shiftToken, shift_moveTo]
  all_goals
    simp only [shiftToken, shift_moveTo, shift_enter]

theorem predicateToken_shift (c : Cursor) (k : Nat) :
    predicateToken (c.shift k) = shiftToken k (predicateToken c) := by
  have hrest : (c.shift k).rest = c.rest := rfl
  unfold predicateToken
  rw [hrest]
  split
  case h_7 =>
    split
    · split
      · rfl
      · simp only [shiftToken, shift_moveTo]
    · split
      · dsimp only
        split
        · simp only [shiftToken, shift_moveTo]
        · rfl
      · split
        · simp only [shiftToken, shift_moveTo]
        · split
          · simp only [shiftToken, shift_moveTo]
          · rfl
  all_goals
    simp only [shiftToken, shift_moveTo, shift_enter, shift_leave]

theorem next_shift (c : Cursor) (k : Nat) :
    (c.shift k).next =
      match c.next with
      | .error e => .error (e.shift k)
      | .ok (l, d) => .ok (l.shift k, d.shift k) := by
  have hstart : (c.shift k).skipBlanks = c.skipBlanks.shift k := shift_moveTo c k _
  have htoken : (c.skipBlanks.shift k).token = shiftToken k c.skipBlanks.token := by
    have hdepth : (c.skipBlanks.shift k).depth = c.skipBlanks.depth := rfl
    unfold token
    rw [hdepth]
    split
    · exact stepToken_shift _ k
    · exact predicateToken_shift _ k
  rw [next, next, hstart, htoken]
  cases c.skipBlanks.token <;> rfl

end Cursor

namespace Lexemes

/-- Text before lexemes moves their offsets and does nothing else. -/
theorem ofCursor_shift (c : Cursor) (k : Nat) : ofCursor (c.shift k) = (ofCursor c).shift k := by
  fun_induction ofCursor c with
  | case1 c e h =>
    have hnext := Cursor.next_shift c k
    rw [h] at hnext
    exact ofCursor_of_error hnext
  | case2 c l d h hl =>
    have hnext := Cursor.next_shift c k
    rw [h] at hnext
    exact ofCursor_of_end hnext hl
  | case3 c l d h hl hlt ih =>
    have hnext := Cursor.next_shift c k
    rw [h] at hnext
    rw [ofCursor_of_next hnext hl, ih]
    rfl

theorem map_token_shift (s : Lexemes) (k : Nat) :
    (s.shift k).toList.map Lexeme.token = s.toList.map Lexeme.token := by
  induction s with
  | finish => rfl
  | fault => rfl
  | next token offset rest ih => simp [shift, toList, ih]

theorem exists_ending_of_shift {s : Lexemes} {k offset : Nat}
    (h : (s.shift k).ending = .ok offset) :
    ∃ offset, s.ending = .ok offset := by
  induction s with
  | finish offset => exact ⟨offset, rfl⟩
  | fault e => cases h
  | next token offset rest ih => exact ih h

theorem shift_prepend (ls : List Lexeme) (s : Lexemes) (k : Nat) :
    (prepend ls s).shift k = prepend (ls.map (Lexeme.shift · k)) (s.shift k) := by
  induction ls with
  | nil => rfl
  | cons l ls ih =>
    rw [prepend_cons, shift, ih]
    rfl

/-- Where a text stands in another one, the lexemes are its own, moved. -/
theorem ofCursor_eq_shift {c : Cursor} {text : String} (hrest : c.rest = text.toList)
    (hdepth : c.depth = 0) : ofCursor c = (ofText text).shift c.offset := by
  obtain ⟨rest, offset, depth⟩ := c
  subst hrest hdepth
  rw [ofText, ← ofCursor_shift]
  simp [Cursor.shift, Cursor.ofText]

/-- Which tokens are read does not depend on what stands before. -/
theorem map_token_congr {c d : Cursor} (hrest : c.rest = d.rest) (hdepth : c.depth = d.depth) :
    (ofCursor c).toList.map Lexeme.token = (ofCursor d).toList.map Lexeme.token := by
  have hzero : ∀ e : Cursor, (ofCursor e).toList.map Lexeme.token =
      (ofCursor ⟨e.rest, 0, e.depth⟩).toList.map Lexeme.token := by
    intro e
    have hshift : e = Cursor.shift ⟨e.rest, 0, e.depth⟩ e.offset := by
      simp [Cursor.shift]
    rw [hshift, ofCursor_shift, map_token_shift]
    rfl
  rw [hzero c, hzero d, hrest, hdepth]

end Lexemes

end LabelTree
