import LabelTree.Proofs.Path.Joined
import LabelTree.Proofs.Path.Sentences

/-!
# Path — where the append marker stands

The marker of an append step ends its text, and no other bracket opens behind the one that opens it,
so a text has one place for it at most (`MarkedAt.unique`). A compiled path knows the place as an
offset. Putting the path below another one goes before the text and leaves the offset as it is: from
then on the offset is a place in the end of the text and not in the text (`Compiled.markedAt_iff`).
-/

namespace LabelTree

open Lexemes (prepend)

/-! ## Brackets that open -/

namespace Cursor

variable {c d : Cursor} {t : Token} {l : Lexeme} {ls : List Lexeme}

theorem mem_dropWhile {p : Char → Bool} {ch : Char} {cs : List Char} (hch : p ch = false)
    (hmem : ch ∈ cs) : ch ∈ cs.dropWhile p := by
  rw [← List.takeWhile_append_dropWhile (p := p) (l := cs), List.mem_append] at hmem
  rcases hmem with htake | hdrop
  · rw [List.mem_takeWhile_imp htake] at hch
    cases hch
  · exact hdrop

/-- Inside brackets only a string and an opening bracket take an opening bracket. -/
theorem Takes.mem_rest {cs rest : List Char} (h : Takes true cs t rest) (hopen : t ≠ .openBracket)
    (hstring : ∀ text, t ≠ .string text) (hmem : '[' ∈ cs) : '[' ∈ rest := by
  cases h with
  | nothing => cases hmem
  | @sign _ _ ch cs hsign _ =>
    refine (List.mem_cons.mp hmem).resolve_left ?_
    rintro rfl
    cases t <;> cases hsign
    exact hopen rfl
  | notEqual | dotDot | dot => simpa using hmem
  | string => exact absurd rfl (hstring _)
  | number hdigit _ =>
    have hne := (Text.ne_of_class hdigit (d := '[') (by decide)).symm
    exact mem_dropWhile (by decide) ((List.mem_cons.mp hmem).resolve_left hne)
  | name hname =>
    have hne := (Text.ne_of_class hname (d := '[') (by decide)).symm
    exact mem_dropWhile (by decide) ((List.mem_cons.mp hmem).resolve_left hne)

theorem mem_rest_next (h : c.next = .ok (l, d)) (hdepth : c.depth ≠ 0)
    (hopen : l.token ≠ .openBracket)
    (hstring : ∀ text, l.token ≠ .string text) (hmem : '[' ∈ c.rest) : '[' ∈ d.rest := by
  obtain ⟨rest, htakes, -, rfl⟩ := next_eq_ok_iff.mp h
  rw [show (c.depth != 0) = true by simp [hdepth]] at htakes
  exact htakes.mem_rest hopen hstring (mem_dropWhile (by decide) hmem)

/-- The tokens between the brackets of a marker take no bracket that opens. -/
theorem Run.mem_rest (h : c.Run ls d) (hdepth : c.depth ≠ 0)
    (hls : ∀ l ∈ ls, l.token ∈ lastTokens ++ [.plus, .number 1]) (hmem : '[' ∈ c.rest) :
    '[' ∈ d.rest ∧ d.depth ≠ 0 := by
  induction h with
  | nil => exact ⟨hmem, hdepth⟩
  | @cons c d e l ls hnext _ _ ih =>
    obtain ⟨hl, hls⟩ := List.forall_mem_cons.mp hls
    have hplain : l.token ≠ .openBracket ∧ (∀ text, l.token ≠ .string text) ∧
        l.token.depthAfter c.depth = c.depth := by
      simp only [lastTokens, List.cons_append, List.nil_append, List.mem_cons, List.not_mem_nil,
        or_false] at hl
      rcases hl with hl | hl | hl | hl | hl <;> simp [hl, Token.depthAfter]
    obtain ⟨hopen, hstring, hsame⟩ := hplain
    have hd : d.depth ≠ 0 := by rwa [depth_next hnext, hsame]
    exact ih hd hls (mem_rest_next hnext hdepth hopen hstring hmem)

end Cursor

/-! ## Markers -/

theorem Text.eq_nil_of_byteLength {cs : List Char} (h : byteLength cs = 0) : cs = [] := by
  cases cs with
  | nil => rfl
  | cons c cs =>
    have hpos := c.utf8Size_pos
    rw [byteLength] at h
    omega

namespace Path

variable {text above own marker : String} {path base : Path} {offset offset' : Nat}

/-- That a text is an append marker: it opens with the marker's bracket and is read as the marker
alone. -/
def IsMarker (text : String) : Prop :=
  text.toList.head? = some '[' ∧ (∃ offset, (Lexemes.ofText text).ending = .ok offset) ∧
    (Lexemes.ofText text).toList.map Lexeme.token = appendTokens

/-- That the marker that ends a text opens at an offset. -/
def MarkedAt (text : String) (offset : Nat) : Prop :=
  ∃ before marker, text = before ++ marker ∧ Text.byteLength before.toList = offset ∧
    IsMarker marker

/-- The bracket that opens a marker is the last one to open in its text. -/
theorem IsMarker.exists_rest (h : IsMarker marker) :
    ∃ rest, marker.toList = '[' :: rest ∧ '[' ∉ rest := by
  obtain ⟨hhead, ⟨offset, hending⟩, htokens⟩ := h
  obtain ⟨rest, hrest⟩ := List.head?_eq_some_iff.mp hhead
  refine ⟨rest, hrest, fun hmem => ?_⟩
  obtain ⟨d, hrun, hd⟩ := Lexemes.exists_run (Lexemes.eq_prepend_of_ending hending)
  -- the bracket that opens, what stands in between, and the one that closes
  have hsplit : (Lexemes.ofText marker).toList.map Lexeme.token =
      .openBracket :: ((lastTokens ++ [.plus, .number 1]) ++ [.closeBracket]) := htokens
  obtain ⟨opening, ls, hls, hopening, htail⟩ := List.map_eq_cons_iff.mp hsplit
  obtain ⟨inner, last, rfl, hinner, hlast⟩ := List.map_eq_append_iff.mp htail
  obtain ⟨closing, none, rfl, hclosing, hnone⟩ := List.map_eq_cons_iff.mp hlast
  cases List.map_eq_nil_iff.mp hnone
  rw [Lexemes.ofText] at hls
  rw [hls] at hrun
  cases hrun with
  | @cons _ c _ _ _ hopen _ hrun =>
    obtain ⟨e, hbetween, hclose⟩ := hrun.exists_append
    have hstart : (Cursor.ofText marker).skipBlanks.rest = '[' :: rest := by
      have hstops : Text.Stops Text.isBlank marker.toList := by
        rw [hrest]
        exact .cons (by decide)
      exact hstops.dropWhile.trans hrest
    have hc : c.rest = rest ∧ c.depth ≠ 0 := by
      have hsign := Cursor.rest_next hopen (by rw [hopening]; rfl)
      have hdepth := Cursor.depth_next hopen
      rw [hopening] at hdepth
      exact ⟨(List.cons.inj (hsign.symm.trans hstart)).2, by simp [hdepth, Token.depthAfter]⟩
    have hplain : ∀ l ∈ inner, l.token ∈ lastTokens ++ [.plus, .number 1] := by
      intro l hl
      rw [← hinner]
      exact List.mem_map_of_mem hl
    obtain ⟨hmem, hdepth⟩ := hbetween.mem_rest hc.2 hplain (by rwa [hc.1])
    cases hclose with
    | cons hnext _ hnil =>
      cases hnil
      have hmem := Cursor.mem_rest_next hnext hdepth (by simp [hclosing]) (by simp [hclosing]) hmem
      obtain ⟨_, hend⟩ := Lexemes.exists_next_of_finish hd
      have hblank := Cursor.all_isBlank_of_end hend rfl
      exact absurd (List.all_eq_true.mp hblank _ hmem) (by decide)

/-- A text has one place for its marker at most. -/
theorem MarkedAt.unique (h : MarkedAt text offset) (h' : MarkedAt text offset') :
    offset = offset' := by
  obtain ⟨before, marker, rfl, rfl, hmarker⟩ := h
  obtain ⟨before', marker', htext, rfl, hmarker'⟩ := h'
  obtain ⟨rest, hrest, hnone⟩ := hmarker.exists_rest
  obtain ⟨rest', hrest', hnone'⟩ := hmarker'.exists_rest
  have hlists : before.toList ++ '[' :: rest = before'.toList ++ '[' :: rest' := by
    rw [← hrest, ← hrest', ← String.toList_append, htext, String.toList_append]
  rcases List.append_eq_append_iff.mp hlists with ⟨mid, hbefore, hmid⟩ | ⟨mid, hbefore, hmid⟩
  · cases mid with
    | nil => rw [hbefore, List.append_nil]
    | cons c mid =>
      refine absurd ?_ hnone
      rw [(List.cons.inj hmid).2]
      simp
  · cases mid with
    | nil => rw [hbefore, List.append_nil]
    | cons c mid =>
      refine absurd ?_ hnone'
      rw [(List.cons.inj hmid).2]
      simp

theorem MarkedAt.append (h : MarkedAt own offset) (above : String) :
    MarkedAt (above ++ own) (Text.byteLength above.toList + offset) := by
  obtain ⟨before, marker, rfl, rfl, hmarker⟩ := h
  exact ⟨above ++ before, marker, String.append_assoc.symm, by simp, hmarker⟩

/-! ## Markers of compiled paths -/

theorem foldl_depthAfter_appendTokens (depth : Nat) :
    appendTokens.foldl Token.depthAfter depth = depth := by
  simp [appendTokens, lastTokens, Token.depthAfter]

theorem markedAt_of_compile (h : compile text = .ok path)
    (hoffset : path.appendOffset? = some offset) :
    MarkedAt text offset := by
  obtain ⟨label, hlast⟩ := getLast?_of_appendOffset? hoffset
  obtain ⟨ls, e, hrun, hspelled, hdepth, hblank⟩ := exists_run_of_compile h
  obtain ⟨before, opening, marker, rfl, rfl, hmarker⟩ := hspelled.exists_marker hlast
  obtain ⟨d, hfirst, hrest⟩ := hrun.exists_append
  have hzero : d.depth = 0 := by
    rw [← hdepth, hrest.depth_eq, hmarker, foldl_depthAfter_appendTokens]
  obtain ⟨last, hend⟩ := Cursor.next_blanks hblank
  have hread : Lexemes.ofCursor d.skipBlanks = prepend (opening :: marker) (.finish last) := by
    rw [Lexemes.ofCursor_skipBlanks, hrest.ofCursor_eq, Lexemes.ofCursor_of_end hend rfl]
  have hshift : Lexemes.ofCursor d.skipBlanks =
      (Lexemes.ofText (String.ofList d.skipBlanks.rest)).shift d.skipBlanks.offset :=
    Lexemes.ofCursor_eq_shift (by simp) hzero
  rw [hread] at hshift
  obtain ⟨taken, htext, hbytes⟩ := hfirst.ahead.trans d.ahead_skipBlanks
  cases hrest with
  | @cons _ c _ _ _ hnext _ _ =>
    have hopening : opening.token = .openBracket := (List.cons.inj hmarker).1
    have hsign : d.skipBlanks.rest = '[' :: c.rest := Cursor.rest_next hnext (by rw [hopening]; rfl)
    refine ⟨String.ofList taken, String.ofList d.skipBlanks.rest, ?_, ?_, ?_, ?_, ?_⟩
    · rw [← String.toList_inj, String.toList_append, String.toList_ofList, String.toList_ofList]
      exact htext
    · rw [String.toList_ofList, Cursor.offset_next hnext, hbytes]
      exact (Nat.zero_add _).symm
    · rw [String.toList_ofList, hsign]
      rfl
    · have hlast := Lexemes.ending_prepend_finish (opening :: marker) last
      rw [hshift] at hlast
      exact Lexemes.exists_ending_of_shift hlast
    · rw [← Lexemes.map_token_shift _ d.skipBlanks.offset, ← hshift, Lexemes.toList_prepend,
        Lexemes.toList, List.append_nil]
      exact hmarker

/-! ## Offsets of compiled paths -/

theorem Compiled.steps_ne_nil (h : path.Compiled) (hrel : path.absolute = false) :
    path.steps ≠ [] := by
  induction h with
  | compile hcompile => exact steps_ne_nil_of_compile hcompile hrel
  | @rebase path base _ _ ih _ =>
    cases hp : path.absolute with
    | true =>
      rw [rebase_of_absolute hp] at hrel
      cases hp.symm.trans hrel
    | false =>
      rw [rebase_of_relative hp]
      exact List.append_ne_nil_of_right_ne_nil _ (ih hp)

/-- A compiled path holds the offset of its marker in a text that its own text ends with. -/
theorem Compiled.exists_own (h : path.Compiled) (hoffset : path.appendOffset? = some offset) :
    ∃ above own, path.text = above ++ own ∧ MarkedAt own offset ∧
      (above = "" → ∃ text, Path.compile text = .ok path) := by
  induction h with
  | @compile text path hcompile =>
    refine ⟨"", path.text, by simp, ?_, fun _ => ⟨text, hcompile⟩⟩
    rw [(compile_eq_ok hcompile).1]
    exact markedAt_of_compile hcompile hoffset
  | @rebase path base hpath _ ih _ =>
    cases hp : path.absolute with
    | true =>
      rw [rebase_of_absolute hp] at hoffset ⊢
      exact ih hoffset
    | false =>
      rw [appendOffset?_rebase hp (hpath.steps_ne_nil hp)] at hoffset
      obtain ⟨above, own, htext, hown, -⟩ := ih hoffset
      refine ⟨trimSlashes base.text ++ "/" ++ above, own, ?_, hown, ?_⟩
      · rw [rebase_of_relative hp, htext, ← String.append_assoc]
      · intro hempty
        have hlists := congrArg String.toList hempty
        simp at hlists

/-- The marker stands at the path's offset exactly when the path was compiled from its text. -/
theorem Compiled.markedAt_iff (h : path.Compiled) (hoffset : path.appendOffset? = some offset) :
    MarkedAt path.text offset ↔ ∃ text, Path.compile text = .ok path := by
  constructor
  · intro hmarked
    obtain ⟨above, own, htext, hown, hdirect⟩ := h.exists_own hoffset
    have hplace : offset = Text.byteLength above.toList + offset :=
      hmarked.unique (htext ▸ hown.append above)
    have hnone : above.toList = [] := Text.eq_nil_of_byteLength (by omega)
    exact hdirect (String.toList_eq_nil_iff.mp hnone)
  · rintro ⟨text, hcompile⟩
    obtain ⟨rfl, -⟩ := compile_eq_ok hcompile
    exact markedAt_of_compile hcompile hoffset

end Path

end LabelTree
