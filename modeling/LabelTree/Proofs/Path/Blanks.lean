import LabelTree.Proofs.Path.Joined

/-!
# Path — blanks that a path holds together

A blank stands inside brackets where the lexeme around it or right behind it is read inside
brackets, and a backslash escapes the character that comes next. Reading goes over a text lexeme by
lexeme, and no lexeme ends in the middle of an escape, so whether all blanks of a text stand inside
brackets or are escaped is decided lexeme by lexeme too (`Cursor.keepsBlanks_next`).
-/

namespace LabelTree

/-! ## Escapes -/

namespace Text

variable {c quote : Char} {cs rest taken text : List Char}

/-- Whether a text ends in a backslash that escapes the character that comes next. A backslash that
is escaped does not. -/
def escapesNext : List Char → Bool
  | [] => false
  | [c] => c = '\\'
  | c :: d :: cs => if c = '\\' then escapesNext cs else escapesNext (d :: cs)

example : escapesNext ['a', '\\'] = true := by decide
example : escapesNext ['a', '\\', '\\'] = false := by decide

theorem escapesNext_cons (h : c ≠ '\\') (cs : List Char) :
    escapesNext (c :: cs) = escapesNext cs := by
  cases cs with
  | nil => simp [escapesNext, h]
  | cons d cs => rw [escapesNext, if_neg h]

theorem escapesNext_escaped (c : Char) (cs : List Char) :
    escapesNext ('\\' :: c :: cs) = escapesNext cs := by
  rw [escapesNext, if_pos rfl]

/-- A backslash that takes no character along stands last. -/
theorem ne_backslash_of_dangling (hdangling : ∀ d ds, c = '\\' → cs = d :: ds → False)
    (hlast : cs = [] → c ≠ '\\') : c ≠ '\\' := by
  cases cs with
  | nil => exact hlast rfl
  | cons d ds => exact fun hc => hdangling d ds hc rfl

theorem ne_backslash_of_closed (h : escapesNext (c :: cs) = false) : cs = [] → c ≠ '\\' := by
  rintro rfl rfl
  cases h

theorem escapesNext_append (h : escapesNext cs = false) (more : List Char) :
    escapesNext (cs ++ more) = escapesNext more := by
  fun_induction escapesNext cs with
  | case1 => rfl
  | case2 c => exact escapesNext_cons (by simpa using h) more
  | case3 d cs ih => rw [List.cons_append, List.cons_append, escapesNext_escaped, ih h]
  | case4 c d cs hc ih => rw [List.cons_append, escapesNext_cons hc, ih h]

theorem escapesNext_of_notMem (h : '\\' ∉ cs) : escapesNext cs = false := by
  induction cs with
  | nil => rfl
  | cons c cs ih =>
    rw [List.mem_cons, not_or] at h
    rw [escapesNext_cons (Ne.symm h.1), ih h.2]

theorem escapesNext_of_class {p : Char → Bool} (hp : p '\\' = false) (h : ∀ c ∈ cs, p c = true) :
    escapesNext cs = false := by
  refine escapesNext_of_notMem fun hmem => ?_
  rw [h _ hmem] at hp
  cases hp

theorem forall_cons_takeWhile {p : Char → Bool} (hc : p c = true) (cs : List Char) :
    ∀ d ∈ c :: cs.takeWhile p, p d = true :=
  List.forall_mem_cons.mpr ⟨hc, fun _ => List.mem_takeWhile_imp⟩

/-! ## Literals -/

/-- The text of a literal and the characters that it is written with behind the opening quote. -/
inductive Literal (quote : Char) : List Char → List Char → Prop
  | close : Literal quote [] [quote]
  | escaped {c : Char} {text taken : List Char} : Literal quote text taken →
      Literal quote (c :: text) ('\\' :: c :: taken)
  | plain {c : Char} {text taken : List Char} : c ≠ '\\' → c ≠ quote → Literal quote text taken →
      Literal quote (c :: text) (c :: taken)

theorem exists_literal_of_unquote (h : unquote quote cs = some (text, rest)) :
    ∃ taken, cs = taken ++ rest ∧ Literal quote text taken := by
  fun_induction unquote quote cs generalizing text with
  | case1 => cases h
  | case2 c cs ih =>
    obtain ⟨⟨t, r⟩, hr, heq⟩ := Option.map_eq_some_iff.mp h
    cases heq
    obtain ⟨taken, rfl, hliteral⟩ := ih hr
    exact ⟨'\\' :: c :: taken, rfl, .escaped hliteral⟩
  | case3 =>
    cases h
    exact ⟨[quote], rfl, .close⟩
  | case4 c cs hdangling hne ih =>
    obtain ⟨⟨t, r⟩, hr, heq⟩ := Option.map_eq_some_iff.mp h
    cases heq
    have hescape : c ≠ '\\' := by
      refine ne_backslash_of_dangling hdangling ?_
      rintro rfl
      cases hr
    obtain ⟨taken, rfl, hliteral⟩ := ih hr
    exact ⟨c :: taken, rfl, .plain hescape hne hliteral⟩

theorem Literal.escapesNext (h : Literal quote text taken) (hquote : quote ≠ '\\') :
    escapesNext taken = false := by
  induction h with
  | close => simp [Text.escapesNext, hquote]
  | escaped _ ih => rw [escapesNext_escaped, ih]
  | plain hescape _ _ ih => rw [escapesNext_cons hescape, ih]

/-- What a literal holds is shorter than the literal. -/
theorem Literal.length_lt (h : Literal quote text taken) : text.length < taken.length := by
  induction h with
  | close => exact Nat.one_pos
  | escaped _ ih => exact Nat.lt_succ_of_lt (Nat.succ_lt_succ ih)
  | plain _ _ _ ih => exact Nat.succ_lt_succ ih

/-! ## Blanks that are escaped -/

/-- That all blanks are escaped. -/
def Sealed (cs : List Char) : Prop :=
  ∀ before blank after, cs = before ++ blank :: after → isBlank blank = true →
    escapesNext before = true

theorem sealed_nil : Sealed [] := by
  intro before blank after h
  simp at h

theorem sealed_cons (hc : c ≠ '\\') : Sealed (c :: cs) ↔ isBlank c = false ∧ Sealed cs := by
  constructor
  · intro h
    constructor
    · rw [← Bool.not_eq_true]
      intro hblank
      exact absurd (h [] c cs rfl hblank) (by decide)
    · rintro before blank after rfl hblank
      rw [← escapesNext_cons hc]
      exact h (c :: before) blank after rfl hblank
  · rintro ⟨hplain, h⟩ before blank after hcs hblank
    cases before with
    | nil =>
      cases hcs
      rw [hplain] at hblank
      cases hblank
    | cons d before =>
      obtain ⟨rfl, rfl⟩ := List.cons.inj hcs
      rw [escapesNext_cons hc]
      exact h before blank after rfl hblank

theorem sealed_escaped : Sealed ('\\' :: c :: cs) ↔ Sealed cs := by
  constructor
  · rintro h before blank after rfl hblank
    rw [← escapesNext_escaped c]
    exact h ('\\' :: c :: before) blank after rfl hblank
  · intro h before blank after hcs hblank
    match before with
    | [] =>
      cases hcs
      cases hblank
    | [_] =>
      cases hcs
      rfl
    | _ :: _ :: before =>
      cases hcs
      rw [escapesNext_escaped]
      exact h before blank after rfl hblank

end Text

open Text (escapesNext Sealed)

/-! ## What a token takes -/

theorem Glyph.escapesNext_written {gs : List Glyph} (h : gs.all isSafe = true) :
    escapesNext (gs.flatMap written) = false := by
  induction gs with
  | nil => rfl
  | cons g gs ih =>
    rw [List.all_cons, Bool.and_eq_true] at h
    cases g with
    | plain c =>
      have hc : isStepDelimiter c = false ∧ c ≠ '\\' := by simpa [isSafe] using h.1
      exact (Text.escapesNext_cons hc.2 _).trans (ih h.2)
    | escaped c => exact (Text.escapesNext_escaped c _).trans (ih h.2)

theorem Token.sign?_ne_backslash {t : Token} {sign : Char} (h : t.sign? = some sign) :
    sign ≠ '\\' := by
  rintro rfl
  cases t <;> cases h

namespace Cursor

variable {c d e : Cursor} {l : Lexeme} {ls : List Lexeme} {t : Token} {blank : Char}
  {cs rest taken before after : List Char}

/-- No token ends in the middle of an escape. -/
theorem Takes.exists_taken {inside : Bool} (h : Takes inside cs t rest) :
    ∃ taken, cs = taken ++ rest ∧ escapesNext taken = false := by
  cases h with
  | nothing => exact ⟨[], rfl, rfl⟩
  | @sign _ _ ch _ hsign _ =>
    exact ⟨[ch], rfl, by simp [escapesNext, Token.sign?_ne_backslash hsign]⟩
  | word _ _ hread =>
    obtain ⟨hsafe, hcs, -⟩ := Glyph.read_sound hread
    exact ⟨_, hcs, Glyph.escapesNext_written hsafe⟩
  | notEqual => exact ⟨['!', '='], rfl, by decide⟩
  | dotDot => exact ⟨['.', '.'], rfl, by decide⟩
  | dot => exact ⟨['.'], rfl, by decide⟩
  | @string quote _ _ _ hquote hread =>
    have hne : quote ≠ '\\' := Text.ne_of_class hquote (by decide)
    obtain ⟨taken, rfl, hliteral⟩ := Text.exists_literal_of_unquote hread
    exact ⟨quote :: taken, rfl, by rw [Text.escapesNext_cons hne, hliteral.escapesNext hne]⟩
  | @number ch cs hdigit _ =>
    refine ⟨ch :: cs.takeWhile Char.isDigit, by simp, ?_⟩
    exact Text.escapesNext_of_class (by decide) (Text.forall_cons_takeWhile hdigit cs)
  | @name ch cs hname =>
    refine ⟨ch :: cs.takeWhile isNameChar, by simp, ?_⟩
    have hch := isNameChar_of_isNameStart hname
    exact Text.escapesNext_of_class (by decide) (Text.forall_cons_takeWhile hch cs)

theorem Takes.escapesNext_taken {inside : Bool} (h : Takes inside (taken ++ rest) t rest) :
    escapesNext taken = false := by
  obtain ⟨word, hword, hclosed⟩ := h.exists_taken
  rw [List.append_cancel_right hword, hclosed]

/-- A lexeme is read as blanks and the word behind them. -/
theorem exists_word_next (h : c.next = .ok (l, d)) :
    ∃ blanks word, c.rest = blanks ++ word ++ d.rest ∧ (∀ b ∈ blanks, Text.isBlank b = true) ∧
      Takes (c.depth != 0) (word ++ d.rest) l.token d.rest := by
  obtain ⟨rest, htakes, -, rfl⟩ := next_eq_ok_iff.mp h
  obtain ⟨word, hword⟩ := htakes.suffix
  refine ⟨c.rest.takeWhile Text.isBlank, word, ?_, fun _ => List.mem_takeWhile_imp, hword ▸ htakes⟩
  calc c.rest
    _ = c.rest.takeWhile Text.isBlank ++ c.skipBlanks.rest := List.takeWhile_append_dropWhile.symm
    _ = c.rest.takeWhile Text.isBlank ++ word ++ rest := by rw [← hword, List.append_assoc]

/-- No lexeme ends in the middle of an escape, counted with the blanks before it. -/
theorem escapesNext_taken (h : c.next = .ok (l, d)) (hrest : c.rest = taken ++ d.rest) :
    escapesNext taken = false := by
  obtain ⟨blanks, word, hword, hblanks, htakes⟩ := exists_word_next h
  cases List.append_cancel_right (hrest.symm.trans hword)
  rw [Text.escapesNext_append (Text.escapesNext_of_class (by decide) hblanks),
    htakes.escapesNext_taken]

/-! ## Blanks inside brackets -/

/-- That a blank with `after` behind it stands inside brackets: a lexeme that is read where the
depth is not zero takes it. -/
def Inside (c : Cursor) (blank : Char) (after : List Char) : Prop :=
  ∃ ls d l e, c.Run ls d ∧ d.next = .ok (l, e) ∧ d.depth ≠ 0 ∧
    blank :: after <:+ d.rest ∧ e.rest <:+ after

/-- That each blank stands inside brackets or is escaped. -/
def KeepsBlanks (c : Cursor) : Prop :=
  ∀ before blank after, c.rest = before ++ blank :: after → Text.isBlank blank = true →
    c.Inside blank after ∨ escapesNext before = true

theorem Ahead.suffix (h : c.Ahead d) : d.rest <:+ c.rest := by
  obtain ⟨taken, hrest, -⟩ := h
  exact ⟨taken, hrest.symm⟩

theorem Inside.suffix (h : c.Inside blank after) : blank :: after <:+ c.rest := by
  obtain ⟨ls, d, l, e, hrun, -, -, hafter, -⟩ := h
  exact hafter.trans hrun.ahead.suffix

/-- A blank stands inside brackets in the lexeme that is read next or in what follows. -/
theorem inside_next (h : c.next = .ok (l, d)) (hl : l.token ≠ .endOfPath) :
    c.Inside blank after ↔
      c.depth ≠ 0 ∧ blank :: after <:+ c.rest ∧ d.rest <:+ after ∨ d.Inside blank after := by
  constructor
  · rintro ⟨ls, d', l', e, hrun, hnext, hdepth, hafter, he⟩
    cases hrun with
    | nil =>
      cases h.symm.trans hnext
      exact .inl ⟨hdepth, hafter, he⟩
    | cons hfirst _ hrun =>
      cases h.symm.trans hfirst
      exact .inr ⟨_, d', l', e, hrun, hnext, hdepth, hafter, he⟩
  · rintro (⟨hdepth, hafter, hd⟩ | ⟨ls, d', l', e, hrun, hnext, hdepth, hafter, he⟩)
    · exact ⟨[], c, l, d, .nil c, h, hdepth, hafter, hd⟩
    · exact ⟨l :: ls, d', l', e, .cons h hl hrun, hnext, hdepth, hafter, he⟩

/-- Inside brackets what a lexeme takes is kept together, outside them its blanks have to be
escaped. -/
theorem keepsBlanks_next (h : c.next = .ok (l, d)) (hl : l.token ≠ .endOfPath)
    (hrest : c.rest = taken ++ d.rest) :
    c.KeepsBlanks ↔ (c.depth = 0 → Sealed taken) ∧ d.KeepsBlanks := by
  have htaken := escapesNext_taken h hrest
  constructor
  · intro hc
    constructor
    · rintro hdepth before blank after rfl hblank
      refine (hc before blank (after ++ d.rest) (by simp [hrest]) hblank).resolve_left ?_
      rw [inside_next h hl]
      rintro (⟨hne, -⟩ | hd)
      · exact hne hdepth
      · have hlength := hd.suffix.length_le
        rw [List.length_cons, List.length_append] at hlength
        omega
    · intro before blank after hd hblank
      have hkept := hc (taken ++ before) blank after (by simp [hrest, hd]) hblank
      rw [inside_next h hl, Text.escapesNext_append htaken] at hkept
      refine hkept.imp_left fun hinside => hinside.resolve_left ?_
      rintro ⟨-, -, hafter⟩
      have hlength := hafter.length_le
      rw [hd, List.length_append, List.length_cons] at hlength
      omega
  · rintro ⟨hsealed, hd⟩ before blank after hc hblank
    rw [inside_next h hl]
    rcases List.append_eq_append_iff.mp (hrest.symm.trans hc) with
      ⟨front, rfl, hfront⟩ | ⟨mid, rfl, hmid⟩
    · -- the blank stands behind the lexeme
      rw [Text.escapesNext_append htaken]
      exact (hd front blank after hfront hblank).imp_left .inr
    · cases mid with
      | nil =>
        have hkept := hd [] blank after (by simpa using hmid.symm) hblank
        exact .inl (.inr (hkept.resolve_right (by decide)))
      | cons b mid =>
        obtain ⟨rfl, rfl⟩ := List.cons.inj hmid
        by_cases hdepth : c.depth = 0
        · exact .inr (hsealed hdepth before blank mid rfl hblank)
        · have hafter : blank :: (mid ++ d.rest) <:+ c.rest := ⟨before, hc.symm⟩
          exact .inl (.inl ⟨hdepth, hafter, List.suffix_append mid d.rest⟩)

/-- Where only blanks are left outside brackets, nothing keeps them. -/
theorem keepsBlanks_of_all_isBlank (h : c.rest.all Text.isBlank = true) (hdepth : c.depth = 0) :
    c.KeepsBlanks ↔ c.rest = [] := by
  constructor
  · intro hc
    cases hrest : c.rest with
    | nil => rfl
    | cons blank after =>
      rw [hrest, List.all_cons, Bool.and_eq_true] at h
      obtain ⟨ls, d, l, e, hrun, -, hne, -⟩ :=
        (hc [] blank after hrest h.1).resolve_right (by decide)
      cases hrun with
      | nil => exact absurd hdepth hne
      | cons hnext hl _ =>
        have hall : c.rest.all Text.isBlank = true := by rw [hrest]; simpa using h
        obtain ⟨offset, hend⟩ := next_blanks hall
        cases hnext.symm.trans hend
        exact absurd rfl hl
  · intro hnil before blank after hrest
    rw [hnil] at hrest
    simp at hrest

end Cursor

/-! ## Brackets -/

section Brackets

open Token (depthAfter)

/-- That no bracket is closed that is not open. -/
def Token.Balanced : Nat → List Token → Prop
  | _, [] => True
  | depth, t :: ts => (t = .closeBracket → depth ≠ 0) ∧ Balanced (t.depthAfter depth) ts

theorem Token.balanced_append {depth : Nat} {ts us : List Token} :
    Balanced depth (ts ++ us) ↔ Balanced depth ts ∧ Balanced (ts.foldl depthAfter depth) us := by
  induction ts generalizing depth with
  | nil => simp [Balanced]
  | cons t ts ih => simp [Balanced, ih, and_assoc]

theorem Predicate.Spelled.balanced {p : Predicate} {inner : List Token} (h : p.Spelled inner)
    (depth : Nat) : Token.Balanced depth inner := by
  cases h with
  | compare operand literal negated =>
    cases operand <;> cases negated <;> simp [Token.Balanced, Operand.token, comparisonToken]
  | _ => simp [Token.Balanced, lastTokens]

theorem Predicate.AllSpelled.balanced {ps : List Predicate} {tokens : List Token}
    (h : AllSpelled ps tokens) (depth : Nat) : Token.Balanced depth tokens := by
  induction h with
  | nil => trivial
  | cons hp _ ih =>
    refine ⟨nofun, Token.balanced_append.mpr ⟨hp.balanced _, ?_⟩⟩
    rw [hp.foldl_depthAfter]
    exact ⟨fun _ => depth.succ_ne_zero, ih⟩

theorem Step.Spelled.balanced {step : Step} {ls : List Lexeme} (h : step.Spelled ls) (depth : Nat) :
    Token.Balanced depth (ls.map Lexeme.token) := by
  cases h with
  | @select axis ps head brackets hhead hps =>
    rw [List.map_cons, hhead, Token.Balanced, Axis.depthAfter_token]
    refine ⟨?_, hps.balanced depth⟩
    cases axis with
    | child matcher => cases matcher <;> nofun
    | self => nofun
    | parent => nofun
  | append hhead hmarker =>
    rw [List.map_cons, hmarker, hhead]
    simp [Token.Balanced, appendTokens, lastTokens, depthAfter]

theorem Step.AllSpelled.balanced {steps : List Step} {ls : List Lexeme} (h : AllSpelled steps ls)
    (depth : Nat) : Token.Balanced depth (ls.map Lexeme.token) := by
  induction h with
  | final hstep => exact hstep.balanced depth
  | cons _ hstep hslash _ ih =>
    rw [List.map_append, List.map_cons, Token.balanced_append, hstep.foldl_depthAfter, hslash]
    exact ⟨hstep.balanced depth, nofun, ih⟩

theorem Path.Spelled.balanced {absolute : Bool} {steps : List Step} {ls : List Lexeme}
    (h : Path.Spelled absolute steps ls) (depth : Nat) :
    Token.Balanced depth (ls.map Lexeme.token) := by
  cases h with
  | root hslash =>
    rw [List.map_singleton, hslash]
    exact ⟨nofun, trivial⟩
  | absolute hslash hall =>
    rw [List.map_cons, hslash]
    exact ⟨nofun, hall.balanced depth⟩
  | relative hall => exact hall.balanced depth

end Brackets

end LabelTree
