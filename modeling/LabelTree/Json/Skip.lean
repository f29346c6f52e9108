import LabelTree.Json.Number

/-!
# JSON: values passed over

The value of an unknown key is checked against the grammar and forgotten. It may nest to any depth:
the open brackets are kept on a stack.
-/

namespace LabelTree.Json

inductive Frame where
  | array
  | object
  deriving DecidableEq, Repr

/-- What comes next while a value is passed over. -/
inductive Awaiting where
  | value
  | key
  /-- A comma or the end of the innermost bracket, or the end of the value when none is open. -/
  | more
  deriving DecidableEq, Repr

/-- Where the passing over of a value stands. -/
structure Skipping where
  awaiting : Awaiting
  frames : List Frame
  rest : List Char

/-- After an opening bracket: its end, or what its first element begins with. -/
def opened (frame : Frame) (frames : List Frame) (rest : List Char) : Skipping :=
  match frame, skipSpace rest with
  | .array, ']' :: after => ⟨.more, frames, after⟩
  | .array, _ => ⟨.value, .array :: frames, rest⟩
  | .object, '}' :: after => ⟨.more, frames, after⟩
  | .object, _ => ⟨.key, .object :: frames, rest⟩

/-- Passes over a scalar or an opening bracket. -/
def skipWord (frames : List Frame) (cs : List Char) : Except Fault Skipping :=
  match skipSpace cs with
  | [] => .error .truncated
  | 'n' :: rest => (word ['u', 'l', 'l'] rest).map (⟨.more, frames, ·⟩)
  | 't' :: rest => (word ['r', 'u', 'e'] rest).map (⟨.more, frames, ·⟩)
  | 'f' :: rest => (word ['a', 'l', 's', 'e'] rest).map (⟨.more, frames, ·⟩)
  | '-' :: rest => (skipNumber rest).map (⟨.more, frames, ·⟩)
  | '"' :: rest => (quoted false rest).map fun (_, rest) => ⟨.more, frames, rest⟩
  | '[' :: rest => .ok (opened .array frames rest)
  | '{' :: rest => .ok (opened .object frames rest)
  | c :: rest => (skipNumber (c :: rest)).map (⟨.more, frames, ·⟩)

/-- Passes over a key and its colon. -/
def skipKey (frames : List Frame) (cs : List Char) : Except Fault Skipping :=
  match skipSpace cs with
  | '"' :: rest =>
    match quoted false rest with
    | .error e => .error e
    | .ok (_, rest) =>
      match skipSpace rest with
      | ':' :: rest => .ok ⟨.value, frames, rest⟩
      | [] => .error .truncated
      | _ => .error .malformed
  | [] => .error .truncated
  | _ => .error .malformed

/-- Passes over a comma or the end of the innermost bracket. -/
def skipMore (frame : Frame) (frames : List Frame) (cs : List Char) : Except Fault Skipping :=
  match frame, skipSpace cs with
  | _, [] => .error .truncated
  | .array, ',' :: rest => .ok ⟨.value, .array :: frames, rest⟩
  | .object, ',' :: rest => .ok ⟨.key, .object :: frames, rest⟩
  | .array, ']' :: rest => .ok ⟨.more, frames, rest⟩
  | .object, '}' :: rest => .ok ⟨.more, frames, rest⟩
  | _, _ => .error .malformed

theorem length_opened (frame : Frame) (frames : List Frame) (cs : List Char) :
    (opened frame frames cs).rest.length ≤ cs.length := by
  unfold opened
  split
  · rename_i h; exact Nat.le_of_lt (length_of_skipSpace h)
  · exact Nat.le_refl _
  · rename_i h; exact Nat.le_of_lt (length_of_skipSpace h)
  · exact Nat.le_refl _

theorem length_of_map {e : Except Fault (List Char)} {f : List Char → Skipping} {s : Skipping}
    {n : Nat} (hf : ∀ rest, (f rest).rest = rest) (he : ∀ rest, e = .ok rest → rest.length < n)
    (h : e.map f = .ok s) : s.rest.length < n := by
  cases e with
  | error _ => cases h
  | ok rest =>
    cases h
    rw [hf]
    exact he rest rfl

theorem length_skipWord {frames : List Frame} {cs : List Char} {s : Skipping}
    (h : skipWord frames cs = .ok s) : s.rest.length < cs.length := by
  unfold skipWord at h
  have hs := length_skipSpace cs
  split at h
  · cases h
  case h_6 rest hc =>
    cases hq : quoted false rest with
    | error e => rw [hq] at h; cases h
    | ok r =>
      rw [hq] at h
      cases h
      have := length_quoted hq
      have := length_of_skipSpace hc
      simp only
      omega
  case h_7 rest hc =>
    cases h
    exact Nat.lt_of_le_of_lt (length_opened ..) (length_of_skipSpace hc)
  case h_8 rest hc =>
    cases h
    exact Nat.lt_of_le_of_lt (length_opened ..) (length_of_skipSpace hc)
  case h_9 c rest _ _ _ _ _ _ _ hc =>
    refine length_of_map (fun _ => rfl) (fun rest' hr => ?_) h
    have := length_skipNumber hr
    rw [hc] at hs
    omega
  case h_5 rest hc =>
    refine length_of_map (fun _ => rfl) (fun rest' hr => ?_) h
    have := length_skipNumber hr
    have := length_of_skipSpace hc
    omega
  all_goals
    rename_i rest hc
    refine length_of_map (fun _ => rfl) (fun rest' hr => ?_) h
    have := length_word hr
    have := length_of_skipSpace hc
    omega

theorem length_skipKey {frames : List Frame} {cs : List Char} {s : Skipping}
    (h : skipKey frames cs = .ok s) : s.rest.length < cs.length := by
  unfold skipKey at h
  split at h
  · rename_i hc
    split at h
    · cases h
    · rename_i hq
      split at h
      · rename_i hr
        cases h
        have := length_of_skipSpace hc
        have := length_quoted hq
        have := length_of_skipSpace hr
        simp only
        omega
      · cases h
      · cases h
  · cases h
  · cases h

theorem length_skipMore {frame : Frame} {frames : List Frame} {cs : List Char} {s : Skipping}
    (h : skipMore frame frames cs = .ok s) : s.rest.length < cs.length := by
  unfold skipMore at h
  split at h <;> cases h
  all_goals
    rename_i hc
    exact length_of_skipSpace hc

/-- Goes on passing over a value to its end. -/
def skipFrom (s : Skipping) : Except Fault (List Char) :=
  match s with
  | ⟨.value, frames, cs⟩ =>
    match h : skipWord frames cs with
    | .error e => .error e
    | .ok s =>
      have : s.rest.length < cs.length := length_skipWord h
      skipFrom s
  | ⟨.key, frames, cs⟩ =>
    match h : skipKey frames cs with
    | .error e => .error e
    | .ok s =>
      have : s.rest.length < cs.length := length_skipKey h
      skipFrom s
  | ⟨.more, [], cs⟩ => .ok cs
  | ⟨.more, frame :: frames, cs⟩ =>
    match h : skipMore frame frames cs with
    | .error e => .error e
    | .ok s =>
      have : s.rest.length < cs.length := length_skipMore h
      skipFrom s
  termination_by s.rest.length

/-- Passes over one value. -/
def skipValue (cs : List Char) : Except Fault (List Char) :=
  skipFrom ⟨.value, [], cs⟩

theorem length_skipFrom {s : Skipping} {rest : List Char} (h : skipFrom s = .ok rest) :
    rest.length ≤ s.rest.length := by
  fun_induction skipFrom s with
  | case1 => cases h
  | case2 _ _ _ _ hlt ih => exact Nat.le_trans (ih h) (Nat.le_of_lt hlt)
  | case3 => cases h
  | case4 _ _ _ _ hlt ih => exact Nat.le_trans (ih h) (Nat.le_of_lt hlt)
  | case5 => cases h; exact Nat.le_refl _
  | case6 => cases h
  | case7 _ _ _ _ _ hlt ih => exact Nat.le_trans (ih h) (Nat.le_of_lt hlt)

end LabelTree.Json
