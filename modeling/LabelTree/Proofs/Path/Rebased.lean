import LabelTree.Proofs.Path.Joined
import LabelTree.Proofs.Path.Writing

/-!
# Path — paths put below another

A path put below another one has the steps of both, and a text made of both texts with one slash
between them. The text compiles to the steps as long as the slashes taken off the end of the first
text are none of its label's. It fails to do so for a label that ends in an escaped slash, whose
backslash then escapes the slash in between, and for a root with blanks behind it, where two slashes
stand in a row (`Path.textAgrees_rebase_iff`).
-/

namespace LabelTree

open Lexemes (prepend)

/-! ## Steps of both -/

theorem Step.AllSpelled.append {steps steps' : List Step} {ls ls' : List Lexeme} {slash : Lexeme}
    (h : AllSpelled steps ls) (hselect : ∀ step ∈ steps, step.isAppend = false)
    (hslash : slash.token = .slash) (h' : AllSpelled steps' ls') :
    AllSpelled (steps ++ steps') (ls ++ slash :: ls') := by
  induction h with
  | final hstep => exact .cons (hselect _ List.mem_cons_self) hstep hslash h'
  | @cons step steps first rest between happend hstep hbetween _ ih =>
    have hrest := ih fun x hx => hselect x (List.mem_cons_of_mem step hx)
    have hall := AllSpelled.cons happend hstep hbetween hrest
    simpa using hall

theorem Path.Spelled.append {absolute : Bool} {steps steps' : List Step} {ls ls' : List Lexeme}
    {slash : Lexeme} (h : Path.Spelled absolute steps ls) (hne : steps ≠ [])
    (hselect : ∀ step ∈ steps, step.isAppend = false) (hslash : slash.token = .slash)
    (h' : Step.AllSpelled steps' ls') :
    Path.Spelled absolute (steps ++ steps') (ls ++ slash :: ls') := by
  cases h with
  | root _ => exact absurd rfl hne
  | absolute hroot hall => exact .absolute hroot (hall.append hselect hslash h')
  | relative hall => exact .relative (hall.append hselect hslash h')

/-! ## Slashes are counted -/

section Slashes

theorem Predicate.Spelled.slash_notMem {p : Predicate} {inner : List Token} (h : p.Spelled inner) :
    .slash ∉ inner := by
  cases h with
  | compare operand literal negated =>
    cases operand <;> cases negated <;> simp [Operand.token, comparisonToken]
  | _ => simp [lastTokens]

theorem Predicate.AllSpelled.slash_notMem {ps : List Predicate} {tokens : List Token}
    (h : AllSpelled ps tokens) : .slash ∉ tokens := by
  induction h with
  | nil => simp
  | cons hp _ ih => simp [hp.slash_notMem, ih]

theorem Step.Spelled.slash_notMem {step : Step} {ls : List Lexeme} (h : step.Spelled ls) :
    .slash ∉ ls.map Lexeme.token := by
  cases h with
  | @select axis ps head brackets hhead hps =>
    rw [List.map_cons, hhead, List.mem_cons]
    rintro (h | h)
    · exact axis.token_ne_slash h.symm
    · exact hps.slash_notMem h
  | append hhead hmarker =>
    rw [List.map_cons, hmarker, hhead]
    simp [appendTokens, lastTokens]

theorem Step.AllSpelled.count_slash {steps : List Step} {ls : List Lexeme}
    (h : AllSpelled steps ls) :
    (ls.map Lexeme.token).count .slash + 1 = steps.length := by
  induction h with
  | final hstep => simp [List.count_eq_zero_of_not_mem hstep.slash_notMem]
  | cons _ hstep hslash _ ih =>
    simp [List.count_eq_zero_of_not_mem hstep.slash_notMem, hslash, ih]

/-- Each step but the first stands behind a slash, and the first does so in an absolute path. -/
theorem Path.Spelled.count_slash {absolute : Bool} {steps : List Step} {ls : List Lexeme}
    (h : Path.Spelled absolute steps ls) (hne : steps ≠ []) :
    (ls.map Lexeme.token).count .slash + 1 = absolute.toNat + steps.length := by
  cases h with
  | root _ => exact absurd rfl hne
  | absolute hslash hall =>
    have := hall.count_slash
    simp [hslash]
    omega
  | relative hall =>
    have := hall.count_slash
    simp
    omega

theorem Step.AllSpelled.exists_last {steps : List Step} {ls : List Lexeme}
    (h : AllSpelled steps ls) :
    ∃ init last, ls = init ++ [last] ∧ last.token ≠ .slash := by
  induction h with
  | @final step ls hstep =>
    rcases List.eq_nil_or_concat ls with rfl | ⟨init, last, rfl⟩
    · cases hstep
    · refine ⟨init, last, List.concat_eq_append, fun hslash => hstep.slash_notMem ?_⟩
      exact List.mem_map.mpr ⟨last, by simp, hslash⟩
  | @cons step steps first rest slash _ _ _ _ ih =>
    obtain ⟨init, last, rfl, hlast⟩ := ih
    exact ⟨first ++ slash :: init, last, by simp, hlast⟩

/-- A path with steps does not end in a slash. -/
theorem Path.Spelled.exists_last {absolute : Bool} {steps : List Step} {ls : List Lexeme}
    (h : Path.Spelled absolute steps ls) (hne : steps ≠ []) :
    ∃ init last, ls = init ++ [last] ∧ last.token ≠ .slash := by
  cases h with
  | root _ => exact absurd rfl hne
  | @absolute _ slash _ _ hall =>
    obtain ⟨init, last, rfl, hlast⟩ := hall.exists_last
    exact ⟨slash :: init, last, by simp, hlast⟩
  | relative hall => exact hall.exists_last

end Slashes

/-! ## A slash in between -/

theorem Text.getLast?_ne_slash {blanks : List Char} (h : blanks.all isBlank = true) :
    blanks.getLast? ≠ some '/' := by
  intro hlast
  exact absurd (List.all_eq_true.mp h _ (List.mem_of_getLast? hlast)) (by decide)

namespace Cursor

variable {c d : Cursor} {more blanks : List Char}

/-- Outside brackets a slash is read together with the blanks before it. -/
theorem exists_next_slash (hdepth : c.depth = 0) (hb : blanks.all Text.isBlank = true)
    (hc : c.rest = blanks ++ '/' :: more) :
    ∃ offset d, c.next = .ok (⟨.slash, offset⟩, d) ∧ d.rest = more ∧ d.depth = 0 := by
  have hstart : c.skipBlanks.rest = '/' :: more := by
    rw [skipBlanks, moveTo, hc]
    exact Text.trimLeft_blanks_append hb (.cons (by decide))
  refine ⟨c.skipBlanks.offset, c.skipBlanks.moveTo more, ?_, rfl, hdepth⟩
  have hzero : c.skipBlanks.depth = 0 := hdepth
  simp only [next, token, hzero, if_pos, stepToken, hstart]

end Cursor

namespace Path

variable {text above below : String} {path base : Path}

/-- Where a text that compiles stands in another one, it is read with the same tokens. -/
theorem exists_spelled_of_compile (h : compile text = .ok path) {c : Cursor}
    (hrest : c.rest = text.toList) (hdepth : c.depth = 0) :
    ∃ ls steps offset, Lexemes.ofCursor c = prepend ls (.finish offset) ∧
      Spelled path.absolute steps ls ∧
      steps.map Step.withoutOffset = path.steps.map Step.withoutOffset := by
  obtain ⟨ls, offset, hls, hspelled⟩ := spelled_of_compile h
  have htokens : (ls.map (Lexeme.shift · c.offset)).map Lexeme.token = ls.map Lexeme.token := by
    rw [List.map_map]
    rfl
  obtain ⟨steps, hsteps, hsame⟩ := hspelled.of_tokens htokens
  refine ⟨_, steps, offset + c.offset, ?_, hsteps, hsame⟩
  rw [Lexemes.ofCursor_eq_shift hrest hdepth, hls, Lexemes.shift_prepend]
  rfl

/-- That a path's text compiles to the path, up to the offset of its append marker. -/
def TextAgrees (path : Path) : Prop :=
  ∃ own, compile path.text = .ok own ∧ own.absolute = path.absolute ∧
    own.steps.map Step.withoutOffset = path.steps.map Step.withoutOffset

theorem textAgrees_of_compile (h : compile text = .ok path) : path.TextAgrees := by
  obtain ⟨rfl, -⟩ := compile_eq_ok h
  exact ⟨path, h, rfl, rfl⟩

/-! ### Texts that agree -/

/-- Behind a text with steps a slash and another text are read as what they are. -/
theorem compile_joined (hbase : compile above = .ok base) (hpath : compile below = .ok path)
    (hrel : path.absolute = false) (hne : base.steps ≠ [])
    (hselect : ∀ step ∈ base.steps, step.isAppend = false) :
    ∃ own, compile (above ++ "/" ++ below) = .ok own ∧ own.absolute = base.absolute ∧
      own.steps.map Step.withoutOffset = (base.steps ++ path.steps).map Step.withoutOffset := by
  obtain ⟨ls, d, hrun, hspelled, hdepth, hblank⟩ := exists_run_of_compile hbase
  have hall : (Cursor.ofText above).append ('/' :: below.toList) =
      .ofText (above ++ "/" ++ below) := by
    simp [Cursor.append, Cursor.ofText]
  have hparted : Text.Parted d.rest ('/' :: below.toList) := fun _ => ⟨_, rfl⟩
  obtain ⟨offset, e, hslash, hrest, hzero⟩ :=
    Cursor.exists_next_slash (c := d.append ('/' :: below.toList)) hdepth hblank rfl
  obtain ⟨ls', steps, last, hls, hspelled', hsame⟩ := exists_spelled_of_compile hpath hrest hzero
  rw [hrel] at hspelled'
  cases hspelled' with
  | relative hsteps =>
    have hread : Lexemes.ofText (above ++ "/" ++ below) =
        prepend (ls ++ ⟨.slash, offset⟩ :: ls') (.finish last) := by
      rw [Lexemes.ofText, ← hall, (hrun.append hparted).ofCursor_eq,
        Lexemes.ofCursor_of_next hslash (by simp), hls, Lexemes.prepend_append,
        Lexemes.prepend_cons]
    refine ⟨_, compile_of_spelled hread (hspelled.append hne hselect rfl hsteps), rfl, ?_⟩
    rw [List.map_append, List.map_append, hsame]

/-! ### The root -/

theorem exists_text_of_root (h : compile text = .ok path) (hroot : path.steps = []) :
    path.absolute = true ∧ ∃ before after, text.toList = before ++ '/' :: after ∧
      before.all Text.isBlank = true ∧ after.all Text.isBlank = true := by
  obtain ⟨ls, d, hrun, hspelled, -, hblank⟩ := exists_run_of_compile h
  rw [hroot] at hspelled
  generalize path.absolute = absolute at hspelled
  cases hspelled with
  | relative hall => cases hall
  | absolute _ hall => cases hall
  | root hslash =>
    refine ⟨rfl, text.toList.takeWhile Text.isBlank, d.rest, ?_, List.all_takeWhile, hblank⟩
    cases hrun with
    | cons hnext _ hnil =>
      cases hnil
      have hrest : text.toList.dropWhile Text.isBlank = '/' :: d.rest :=
        Cursor.rest_next hnext (by rw [hslash]; rfl)
      rw [← hrest, List.takeWhile_append_dropWhile]

/-- Right behind the root's slash a relative text makes an absolute path. -/
theorem compile_below_root {before : List Char} (habove : above.toList = before ++ ['/'])
    (hblank : before.all Text.isBlank = true) (hpath : compile below = .ok path)
    (hrel : path.absolute = false) :
    ∃ own, compile (above ++ below) = .ok own ∧ own.absolute = true ∧
      own.steps.map Step.withoutOffset = path.steps.map Step.withoutOffset := by
  have hc : (Cursor.ofText (above ++ below)).rest = before ++ '/' :: below.toList := by
    simp [Cursor.ofText, habove]
  obtain ⟨offset, d, hslash, hrest, hzero⟩ := Cursor.exists_next_slash rfl hblank hc
  obtain ⟨ls, steps, last, hls, hspelled, hsame⟩ := exists_spelled_of_compile hpath hrest hzero
  rw [hrel] at hspelled
  cases hspelled with
  | relative hsteps =>
    have hread :
        Lexemes.ofText (above ++ below) = prepend (⟨.slash, offset⟩ :: ls) (.finish last) := by
      rw [Lexemes.ofText, Lexemes.ofCursor_of_next hslash (by simp), hls, Lexemes.prepend_cons]
    exact ⟨_, compile_of_spelled hread (.absolute rfl hsteps), rfl, hsame⟩

/-- Behind blanks a second slash is an empty step. -/
theorem compile_below_blanks {before after : List Char}
    (habove : above.toList = before ++ '/' :: after)
    (hbefore : before.all Text.isBlank = true) (hafter : after.all Text.isBlank = true)
    (below : String) : ∃ offset, compile (above ++ "/" ++ below) = .error ⟨.emptyStep, offset⟩ := by
  have hc : (Cursor.ofText (above ++ "/" ++ below)).rest =
      before ++ '/' :: (after ++ '/' :: below.toList) := by
    simp [Cursor.ofText, habove]
  obtain ⟨offset, d, hslash, hrest, hzero⟩ := Cursor.exists_next_slash rfl hbefore hc
  obtain ⟨offset', e, hslash', -, -⟩ := Cursor.exists_next_slash hzero hafter hrest
  have hread : Lexemes.ofText (above ++ "/" ++ below) =
      .next .slash offset (.next .slash offset' (.ofCursor e)) := by
    rw [Lexemes.ofText, Lexemes.ofCursor_of_next hslash (by simp),
      Lexemes.ofCursor_of_next hslash' (by simp)]
  refine ⟨offset', ?_⟩
  rw [compile, hread]
  rfl

end Path

/-! ## A label that ends in a slash -/

/-- How many slashes are read. -/
def Lexemes.slashes (s : Lexemes) : Nat :=
  (s.toList.map Lexeme.token).count .slash

theorem Lexemes.slashes_prepend (ls : List Lexeme) (s : Lexemes) :
    (prepend ls s).slashes = (ls.map Lexeme.token).count .slash + s.slashes := by
  rw [slashes, toList_prepend, List.map_append, List.count_append]
  rfl

namespace Cursor

variable {c d : Cursor} {l : Lexeme} {more rest : List Char} {glyphs : List Glyph}

theorem stepWord_ne_slash (glyphs : List Glyph) : stepWord glyphs ≠ .slash := by
  unfold stepWord
  split <;> simp

/-- Blanks before a word are plain glyphs. -/
theorem read_trimLeft (cs : List Char) :
    Glyph.read cs = (Glyph.read (Text.trimLeft cs)).map fun (gs, rest) =>
      ((cs.takeWhile Text.isBlank).map .plain ++ gs, rest) := by
  have hsafe : ((cs.takeWhile Text.isBlank).map Glyph.plain).all Glyph.isSafe = true := by
    rw [List.all_map, List.all_eq_true]
    intro c hc
    have hother (d : Char) (hd : Text.isBlank d = false) : c ≠ d :=
      Text.ne_of_class (takeWhile_isBlank cs c hc) hd
    simp [Glyph.isSafe, isStepDelimiter, hother '/' (by decide), hother '[' (by decide),
      hother ']' (by decide), hother '*' (by decide), hother '\\' (by decide)]
  have hwritten : ((cs.takeWhile Text.isBlank).map Glyph.plain).flatMap Glyph.written =
      cs.takeWhile Text.isBlank := by
    simp [List.flatMap_map, Glyph.written]
  have hread := Glyph.read_written hsafe (Text.trimLeft cs)
  rwa [hwritten, Text.trimLeft, List.takeWhile_append_dropWhile] at hread

/-- A word outside brackets is read up to the next delimiter. -/
theorem next_of_word {ch : Char} {cs : List Char} (hdepth : c.depth = 0)
    (hw : Text.trimLeft c.rest = ch :: cs) (hch : isStepDelimiter ch = false) :
    c.next =
      match Glyph.read (ch :: cs) with
      | none => .error ⟨.danglingEscape, c.skipBlanks.offset + (Text.byteLength (ch :: cs) - 1)⟩
      | some (glyphs, rest) =>
        .ok (⟨stepWord glyphs, c.skipBlanks.offset⟩, c.skipBlanks.moveTo rest) := by
  have hrest : c.skipBlanks.rest = ch :: cs := hw
  have hzero : c.skipBlanks.depth = 0 := hdepth
  have hstops : Text.Stops isStepDelimiter c.skipBlanks.rest := hrest ▸ .cons hch
  have hne : c.skipBlanks.rest ≠ [] := by simp [hrest]
  rw [next, token, if_pos hzero, stepToken_of_stops hne hstops, hrest]
  cases Glyph.read (ch :: cs) <;> rfl

/-- A word outside brackets holds no slash, so those that follow it are all there are. -/
theorem slashes_of_read (hdepth : c.depth = 0) (h : Glyph.read c.rest = some (glyphs, rest)) :
    (Lexemes.ofCursor c).slashes = (Lexemes.ofCursor (c.moveTo rest)).slashes := by
  have hsame : ∀ {d : Cursor}, d.rest = rest → d.depth = 0 →
      (Lexemes.ofCursor d).slashes = (Lexemes.ofCursor (c.moveTo rest)).slashes := by
    intro d hrest hd
    have htokens := Lexemes.map_token_congr (d := c.moveTo rest) hrest (hd.trans hdepth.symm)
    rw [Lexemes.slashes, Lexemes.slashes, htokens]
  rw [read_trimLeft] at h
  obtain ⟨⟨gs, r⟩, hread, heq⟩ := Option.map_eq_some_iff.mp h
  cases heq
  cases hw : Text.trimLeft c.rest with
  | nil =>
    rw [hw] at hread
    cases hread
    rw [← Lexemes.ofCursor_skipBlanks]
    exact hsame hw hdepth
  | cons ch cs =>
    rw [hw] at hread
    cases hch : isStepDelimiter ch with
    | true =>
      rw [Glyph.read_delimiter hch] at hread
      cases hread
      rw [← Lexemes.ofCursor_skipBlanks]
      exact hsame hw hdepth
    | false =>
      have hnext := next_of_word hdepth hw hch
      rw [hread] at hnext
      rw [Lexemes.ofCursor_of_next hnext (stepWord_ne_endOfPath gs), Lexemes.slashes,
        Lexemes.toList, List.map_cons, List.count_cons_of_ne (stepWord_ne_slash gs)]
      exact hsame rfl hdepth

/-- A word that dangles is all that is read. -/
theorem slashes_of_read_eq_none (hdepth : c.depth = 0) (h : Glyph.read c.rest = none) :
    (Lexemes.ofCursor c).slashes = 0 := by
  rw [read_trimLeft, Option.map_eq_none_iff] at h
  cases hw : Text.trimLeft c.rest with
  | nil =>
    rw [hw] at h
    cases h
  | cons ch cs =>
    rw [hw] at h
    cases hch : isStepDelimiter ch with
    | true =>
      rw [Glyph.read_delimiter hch] at h
      cases h
    | false =>
      have hnext := next_of_word hdepth hw hch
      rw [h] at hnext
      rw [Lexemes.ofCursor_of_error hnext]
      rfl

/-- A word that ends with the text goes on with the text behind it, and that holds the same slashes
as alone. -/
theorem slashes_append_of_read (hdepth : c.depth = 0) (h : Glyph.read c.rest = some (glyphs, []))
    (more : List Char) :
    (Lexemes.ofCursor (c.append more)).slashes = (Lexemes.ofCursor ⟨more, 0, 0⟩).slashes := by
  have happend : Glyph.read (c.append more).rest =
      (Glyph.read more).map fun (gs, rest) => (glyphs ++ gs, rest) := Glyph.read_append h more
  cases hmore : Glyph.read more with
  | none =>
    rw [hmore] at happend
    rw [slashes_of_read_eq_none (c := c.append more) hdepth happend,
      slashes_of_read_eq_none (c := ⟨more, 0, 0⟩) rfl hmore]
  | some r =>
    obtain ⟨gs, rest⟩ := r
    rw [hmore] at happend
    rw [slashes_of_read (c := c.append more) hdepth happend,
      slashes_of_read (c := ⟨more, 0, 0⟩) rfl hmore, Lexemes.slashes, Lexemes.slashes]
    have htokens := Lexemes.map_token_congr (c := (c.append more).moveTo rest)
      (d := Cursor.moveTo ⟨more, 0, 0⟩ rest) rfl hdepth
    rw [htokens]

theorem depthAfter_of_sign? {t : Token} (h : t.sign? = none) (depth : Nat) :
    t.depthAfter depth = depth := by
  cases t <;> first | rfl | cases h

theorem eq_slash_of_sign? {t : Token} (h : t.sign? = some '/') : t = .slash := by
  cases t <;> first | rfl | simp [Token.sign?] at h

/-- The lexeme that takes a final slash and is none itself is a word. -/
theorem read_of_final_slash (h : c.next = .ok (l, d)) (hdepth : d.depth = 0) (hend : d.rest = [])
    (hl : l.token ≠ .slash) (hlast : c.skipBlanks.rest.getLast? = some '/') :
    c.depth = 0 ∧ ∃ glyphs, Glyph.read c.skipBlanks.rest = some (glyphs, []) := by
  have hsign : l.token.sign? = none := by
    cases hs : l.token.sign? with
    | none => rfl
    | some sign =>
      rw [rest_next h hs, hend, List.getLast?_singleton, Option.some.injEq] at hlast
      rw [hlast] at hs
      exact absurd (eq_slash_of_sign? hs) hl
  have hzero : c.depth = 0 := by
    rw [← hdepth, depth_next h, depthAfter_of_sign? hsign]
  refine ⟨hzero, ?_⟩
  unfold next at h
  dsimp only at h
  split at h
  · cases h
  · rename_i t after ht
    cases h
    rw [token, if_pos (show c.skipBlanks.depth = 0 from hzero)] at ht
    unfold stepToken at ht
    split at ht
    case h_1 hnil =>
      rw [hnil] at hlast
      cases hlast
    case h_6 =>
      split at ht
      · cases ht
      · rename_i glyphs rest hread
        cases ht
        cases hend
        exact ⟨glyphs, hread⟩
    all_goals
      cases ht
      cases hsign

end Cursor

/-- A word that ends in a slash ends in an escaped one. -/
theorem Glyph.exists_of_read_slash {cs : List Char} {glyphs : List Glyph}
    (h : read cs = some (glyphs, [])) (hlast : cs.getLast? = some '/') :
    ∃ before, cs = before ++ ['\\', '/'] := by
  obtain ⟨hsafe, hcs, -⟩ := read_sound h
  rw [List.append_nil] at hcs
  rw [hcs, getLast?_flatMap_written] at hlast
  rcases List.eq_nil_or_concat glyphs with rfl | ⟨gs, g, rfl⟩
  · cases hlast
  · rw [List.concat_eq_append] at hsafe hcs hlast
    have hchar : g.char = '/' := by simpa using hlast
    have hg : g.isSafe = true := by simp_all
    cases g with
    | plain c =>
      cases hchar
      cases hg
    | escaped c =>
      cases hchar
      exact ⟨gs.flatMap written, by rw [hcs, List.flatMap_append]; rfl⟩

namespace Path

variable {above below : String} {path base : Path}

theorem slashes_of_compile (h : compile above = .ok base) (hne : base.steps ≠ []) :
    (Lexemes.ofText above).slashes + 1 = base.absolute.toNat + base.steps.length := by
  obtain ⟨ls, offset, hls, hspelled⟩ := spelled_of_compile h
  rw [hls, Lexemes.slashes_prepend, ← hspelled.count_slash hne]
  rfl

/-- A path with steps whose text ends in a slash ends in a label that ends in an escaped one. Text
behind it goes on with the label. -/
theorem escaped_of_final_slash (hbase : compile above = .ok base) (hne : base.steps ≠ [])
    (hlast : above.toList.getLast? = some '/') (below : String) :
    (∃ before, above.toList = before ++ ['\\', '/']) ∧
      (Lexemes.ofText (above ++ below)).slashes =
        (Lexemes.ofText above).slashes + (Lexemes.ofText below).slashes := by
  obtain ⟨ls, e, hrun, hspelled, hdepth, hblank⟩ := exists_run_of_compile hbase
  obtain ⟨init, last, rfl, htoken⟩ := hspelled.exists_last hne
  obtain ⟨c, hinit, hfinal⟩ := hrun.exists_append
  have hempty : e.rest = [] := by
    by_contra hrest
    exact Text.getLast?_ne_slash hblank ((hrun.ahead.getLast?_rest hrest).trans hlast)
  cases hfinal with
  | cons hnext hl hnil =>
    cases hnil
    have hword : c.skipBlanks.rest ≠ [] := Cursor.skipBlanks_ne_nil hnext hl
    have hahead : (Cursor.ofText above).Ahead c.skipBlanks := hinit.ahead.trans c.ahead_skipBlanks
    have hslash : c.skipBlanks.rest.getLast? = some '/' := (hahead.getLast?_rest hword).trans hlast
    obtain ⟨hzero, glyphs, hread⟩ := Cursor.read_of_final_slash hnext hdepth hempty htoken hslash
    constructor
    · obtain ⟨taken, htaken, -⟩ := hahead
      obtain ⟨before, hbefore⟩ := Glyph.exists_of_read_slash hread hslash
      exact ⟨taken ++ before, by rw [List.append_assoc, ← hbefore]; exact htaken⟩
    · -- the lexemes before the label are the same, and the label goes on
      have hparted : Text.Parted c.rest below.toList := by
        intro hnone
        refine absurd ?_ hword
        rw [Cursor.skipBlanks, hnone]
        rfl
      have habove : (Lexemes.ofText above).slashes = (init.map Lexeme.token).count .slash := by
        obtain ⟨offset, hend⟩ := Cursor.next_blanks hblank
        rw [Lexemes.ofText, hrun.ofCursor_eq, Lexemes.slashes_prepend,
          Lexemes.ofCursor_of_end hend rfl, List.map_append, List.count_append]
        simp [Lexemes.slashes, Lexemes.toList, htoken]
      have hjoined : (Cursor.ofText above).append below.toList = .ofText (above ++ below) := by
        simp [Cursor.append, Cursor.ofText]
      rw [habove, Lexemes.ofText, ← hjoined, (hinit.append hparted).ofCursor_eq,
        Lexemes.slashes_prepend, ← Lexemes.ofCursor_skipBlanks, Cursor.skipBlanks_append hword,
        Cursor.slashes_append_of_read (c := c.skipBlanks) hzero hread]
      rfl

/-! ## Texts that do not agree -/

theorem TextAgrees.slashes (h : path.TextAgrees) (hne : path.steps ≠ []) :
    (Lexemes.ofText path.text).slashes + 1 = path.absolute.toNat + path.steps.length := by
  obtain ⟨own, hown, habsolute, hsame⟩ := h
  have hlength : own.steps.length = path.steps.length := by
    simpa using congrArg List.length hsame
  have hsteps : own.steps ≠ [] := by
    rw [← List.length_pos_iff] at hne ⊢
    omega
  rw [slashes_of_compile hown hsteps, habsolute, hlength]

theorem isAppend_congr {path own : Path}
    (h : own.steps.map Step.withoutOffset = path.steps.map Step.withoutOffset) :
    own.isAppend = path.isAppend := by
  have hlast : ∀ p : Path,
      p.isAppend = (p.steps.map Step.withoutOffset).getLast?.any Step.isAppend := by
    intro p
    rw [isAppend, List.getLast?_map]
    cases p.steps.getLast? with
    | none => rfl
    | some step => cases step <;> rfl
  rw [hlast own, hlast path, h]

theorem steps_eq_nil_iff {path own : Path}
    (h : own.steps.map Step.withoutOffset = path.steps.map Step.withoutOffset) :
    own.steps = [] ↔ path.steps = [] := by
  rw [← List.map_eq_nil_iff, h, List.map_eq_nil_iff]

theorem TextAgrees.steps_ne_nil (h : path.TextAgrees) (hrel : path.absolute = false) :
    path.steps ≠ [] := by
  obtain ⟨own, hown, habsolute, hsame⟩ := h
  exact (steps_eq_nil_iff hsame).not.mp (steps_ne_nil_of_compile hown (habsolute.trans hrel))

/-! ## Below the root -/

theorem TextAgrees.rebase_root (hbase : base.TextAgrees) (hpath : path.TextAgrees)
    (hrel : path.absolute = false) (hroot : base.steps = [])
    (hlast : base.text.toList.getLast? = some '/') : (path.rebase base).TextAgrees := by
  obtain ⟨above, habove, habsolute, hsteps⟩ := hbase
  obtain ⟨below, hbelow, hflag, hsame⟩ := hpath
  obtain ⟨htrue, before, after, htext, hbefore, hafter⟩ :=
    exists_text_of_root habove ((steps_eq_nil_iff hsteps).mpr hroot)
  have hnone : after = [] := by
    by_contra hne
    refine Text.getLast?_ne_slash hafter ?_
    rw [← hlast, htext, List.getLast?_append_of_ne_nil _ (List.cons_ne_nil _ _),
      List.getLast?_cons_of_ne_nil hne]
  subst hnone
  obtain ⟨own, hown, hownabsolute, hownsteps⟩ :=
    compile_below_root htext hbefore hbelow (hflag.trans hrel)
  rw [rebase_of_relative hrel]
  refine ⟨own, ?_, ?_, ?_⟩
  · rw [trimSlashes_append_slash htext (Text.getLast?_ne_slash hbefore)]
    exact hown
  · rw [hownabsolute, ← habsolute, htrue]
  · rw [hownsteps, hsame, hroot, List.nil_append]

theorem not_textAgrees_rebase_blanks (hbase : base.TextAgrees) (hrel : path.absolute = false)
    (hroot : base.steps = []) (hlast : base.text.toList.getLast? ≠ some '/') :
    ¬ (path.rebase base).TextAgrees := by
  obtain ⟨above, habove, -, hsteps⟩ := hbase
  obtain ⟨-, before, after, htext, hbefore, hafter⟩ :=
    exists_text_of_root habove ((steps_eq_nil_iff hsteps).mpr hroot)
  obtain ⟨offset, herror⟩ := compile_below_blanks htext hbefore hafter path.text
  rw [rebase_of_relative hrel, trimSlashes_eq_self_iff.mpr hlast]
  rintro ⟨own, hown, -⟩
  cases hown.symm.trans herror

/-! ## Below steps -/

theorem TextAgrees.rebase_steps (hbase : base.TextAgrees) (hpath : path.TextAgrees)
    (hrel : path.absolute = false) (hselect : base.isAppend = false) (hne : base.steps ≠ [])
    (hlast : base.text.toList.getLast? ≠ some '/') : (path.rebase base).TextAgrees := by
  obtain ⟨above, habove, habsolute, hsteps⟩ := hbase
  obtain ⟨below, hbelow, hflag, hsame⟩ := hpath
  have hsome : above.steps ≠ [] := (steps_eq_nil_iff hsteps).not.mpr hne
  have hall : ∀ step ∈ above.steps, step.isAppend = false := by
    intro step hstep
    by_contra happend
    rw [Bool.not_eq_false] at happend
    have := (exists_append_iff_of_compile habove).mp ⟨step, hstep, happend⟩
    rw [isAppend_congr hsteps, hselect] at this
    cases this
  obtain ⟨own, hown, hownabsolute, hownsteps⟩ :=
    compile_joined habove hbelow (hflag.trans hrel) hsome hall
  rw [rebase_of_relative hrel, trimSlashes_eq_self_iff.mpr hlast]
  refine ⟨own, hown, hownabsolute.trans habsolute, ?_⟩
  rw [hownsteps, List.map_append, List.map_append, hsteps, hsame]

/-- The text has a slash less than the steps ask for. -/
theorem not_textAgrees_rebase_escaped (hbase : base.TextAgrees) (hpath : path.TextAgrees)
    (hrel : path.absolute = false) (hne : base.steps ≠ [])
    (hlast : base.text.toList.getLast? = some '/') : ¬ (path.rebase base).TextAgrees := by
  intro hagrees
  have hsome : path.steps ≠ [] := hpath.steps_ne_nil hrel
  have habove := hbase.slashes hne
  have hbelow := hpath.slashes hsome
  have hboth := hagrees.slashes (by simp [rebase_of_relative hrel, hne])
  obtain ⟨above, hcompile, -, hsteps⟩ := hbase
  have hword : above.steps ≠ [] := (steps_eq_nil_iff hsteps).not.mpr hne
  obtain ⟨⟨before, htext⟩, hslashes⟩ := escaped_of_final_slash hcompile hword hlast path.text
  have hescape : base.text.toList = (before ++ ['\\']) ++ ['/'] := by simp [htext]
  rw [rebase_of_relative hrel, trimSlashes_append_slash hescape (by simp)] at hboth
  simp only [hslashes, List.length_append] at hboth
  simp only [hrel, Bool.toNat_false] at hbelow
  omega

/-- A relative path below one that does not append agrees with its text, unless the first path's
text ends in a slash of its label, or in blanks behind the slash of the root. -/
theorem textAgrees_rebase_iff (hbase : base.TextAgrees) (hpath : path.TextAgrees)
    (hrel : path.absolute = false) (hselect : base.isAppend = false) :
    (path.rebase base).TextAgrees ↔ (base.text.toList.getLast? = some '/' ↔ base.steps = []) := by
  by_cases hroot : base.steps = [] <;> by_cases hlast : base.text.toList.getLast? = some '/'
  · simp [hroot, hlast, hbase.rebase_root hpath hrel hroot hlast]
  · simp [hroot, hlast, not_textAgrees_rebase_blanks hbase hrel hroot hlast]
  · simp [hroot, hlast, not_textAgrees_rebase_escaped hbase hpath hrel hroot hlast]
  · simp [hroot, hlast, hbase.rebase_steps hpath hrel hselect hroot hlast]

/-- A blank ends the text of the first path, and a character of two bytes stands before the marker
of the second. -/
theorem textAgrees_rebase_iff_marker :
    let base : Path := ⟨"/a[1] ", true, [.select (.child (.exact "a")) [.position 1]]⟩
    let path : Path := ⟨"é[last()+1]", false, [.append "é" 2]⟩
    compile "/a[1] " = .ok base ∧ compile "é[last()+1]" = .ok path ∧ path.absolute = false ∧
      base.isAppend = false ∧
      ((path.rebase base).TextAgrees ↔ (base.text.toList.getLast? = some '/' ↔ base.steps = [])) ∧
      (path.rebase base).TextAgrees := by
  intro base path
  have hbase : compile "/a[1] " = .ok base := by with_unfolding_all rfl
  have hpath : compile "é[last()+1]" = .ok path := by with_unfolding_all rfl
  have hiff :=
    textAgrees_rebase_iff (textAgrees_of_compile hbase) (textAgrees_of_compile hpath) rfl rfl
  have hcondition : base.text.toList.getLast? = some '/' ↔ base.steps = [] := by decide
  exact ⟨hbase, hpath, rfl, rfl, hiff, hiff.mpr hcondition⟩

/-- A label that ends in a slash goes on with the next one. -/
theorem textAgrees_rebase_escaped_slash :
    ∃ base path : Path, compile "/a\\/" = .ok base ∧ compile "b" = .ok path ∧
      path.absolute = false ∧ base.isAppend = false ∧ ¬ (path.rebase base).TextAgrees := by
  refine ⟨⟨"/a\\/", true, [.select (.child (.exact "a/")) []]⟩,
    ⟨"b", false, [.select (.child (.exact "b")) []]⟩, by with_unfolding_all rfl,
    by with_unfolding_all rfl, rfl, rfl, ?_⟩
  rintro ⟨own, hown, -, hsame⟩
  have hmerged : compile "/a\\/b" = .ok ⟨"/a\\/b", true, [.select (.child (.exact "a/b")) []]⟩ := by
    with_unfolding_all rfl
  cases hown.symm.trans hmerged
  exact absurd hsame (by decide)

end Path

end LabelTree
