import LabelTree.Command.Written
import LabelTree.Proofs.Text.Classes

/-!
# Commands — what is written is read

An argument in quotes is read as it was, whatever it holds, and the name before the arguments is a
word without any character that the splitter treats in a way of its own. So a line on which a
command is written is split into the name and the arguments, and these make the command again.
-/

namespace LabelTree

variable {cs rest arg : List Char} {c : Char}

/-! ## Names -/

/-- The characters that begin no literal and no comment, and that an argument takes as they are. -/
def Text.isPlain (c : Char) : Bool :=
  !isBlank c && !isQuote c && c ≠ '#' && c ≠ '\\' && c ≠ '[' && c ≠ ']'

theorem Text.isPlain_iff : isPlain c = true ↔
    isBlank c = false ∧ isQuote c = false ∧ c ≠ '#' ∧ c ≠ '\\' ∧ c ≠ '[' ∧ c ≠ ']' := by
  simp [isPlain, and_assoc]

/-- A name of a verb is a word of plain characters. -/
theorem Verb.isPlain_of_ofName? {name : String} {verb : Verb} (h : ofName? name = some verb) :
    name.toList ≠ [] ∧ name.toList.all Text.isPlain = true := by
  unfold ofName? at h
  split at h
  case h_14 => cases h
  all_goals decide

theorem Text.isBlank_of_isQuote (h : isQuote c = true) : isBlank c = false := by
  simp only [isQuote, Bool.or_eq_true, decide_eq_true_eq] at h
  rcases h with rfl | rfl <;> decide

namespace Command

/-! ## One argument -/

/-- The equation of the splitter, without the bounds on what is left. -/
theorem splitChars_eq (cs : List Char) :
    splitChars cs =
      match Text.trimLeft cs with
      | [] => .ok []
      | c :: rest =>
        if Text.isQuote c then
          match Text.unquote c rest with
          | none => .error .unterminatedQuote
          | some (arg, left) => (splitChars left).map (arg :: ·)
        else
          match bare 0 none (c :: rest) with
          | .error e => .error e
          | .ok (arg, left) => (splitChars left).map (arg :: ·) := by
  rw [splitChars]
  split <;> rename_i hcs <;> simp only [hcs]
  split
  · split <;> rename_i hunquote <;> simp only [hunquote]
  · split <;> rename_i hbare <;> simp only [hbare]

/-- Plain characters up to a blank or the end of the line are one argument. -/
theorem bare_of_isPlain (hcs : cs.all Text.isPlain = true)
    (hrest : ∀ c ∈ rest.head?, Text.isBlank c = true) :
    bare 0 none (cs ++ rest) = .ok (cs, rest) := by
  induction cs with
  | nil =>
    cases rest with
    | nil => rfl
    | cons c rest =>
      have hblank := hrest c rfl
      have hne : c ≠ '\\' := by
        rintro rfl
        cases hblank
      rw [List.nil_append, bare]
      · simp [hblank]
      · intro d ds h
        exact absurd h hne
  | cons c cs ih =>
    rw [List.all_cons, Bool.and_eq_true] at hcs
    obtain ⟨hblank, -, -, hescape, hopen, hclose⟩ := Text.isPlain_iff.mp hcs.1
    rw [List.cons_append, bare]
    · simp [hblank, hopen, hclose, ih hcs.2, Except.map]
    · intro d ds h
      exact absurd h hescape

/-! ## All arguments -/

theorem ArgsWritten.head_isBlank {args : List String} {text : List Char}
    (h : ArgsWritten args text) :
    ∀ c ∈ text.head?, Text.isBlank c = true := by
  cases h with
  | nil => simp
  | @cons _ _ _ blanks _ hne hblanks =>
    intro c hc
    cases blanks with
    | nil => exact absurd rfl hne
    | cons b blanks =>
      cases hc
      rw [List.all_cons, Bool.and_eq_true] at hblanks
      exact hblanks.1

theorem ArgsWritten.splitChars_eq {args : List String} {text : List Char}
    (h : ArgsWritten args text) :
    splitChars text = .ok (args.map String.toList) := by
  induction h with
  | nil => rw [Command.splitChars_eq]; rfl
  | @cons arg args quote blanks text hne hblanks hquote _ ih =>
    have hstop : Text.Stops Text.isBlank
        (quote :: (Text.escapeQuoted quote arg.toList ++ quote :: text)) :=
      .cons (Text.isBlank_of_isQuote hquote)
    have hne : quote ≠ '\\' := by
      rintro rfl
      cases hquote
    have htext : Text.trimLeft (blanks ++ Text.enquote quote arg.toList ++ text) =
        quote :: (Text.escapeQuoted quote arg.toList ++ quote :: text) := by
      rw [← Text.trimLeft_blanks_append hblanks hstop]
      simp [Text.enquote]
    rw [Command.splitChars_eq, htext]
    simp only [hquote, if_true, Text.unquote_escapeQuoted hne]
    rw [ih]
    rfl

theorem exists_argsWritten (args : List String) : ∃ text, ArgsWritten args text := by
  induction args with
  | nil => exact ⟨[], .nil⟩
  | cons arg args ih =>
    obtain ⟨text, htext⟩ := ih
    have hquote : Text.isQuote '"' = true := rfl
    exact ⟨_, .cons (List.cons_ne_nil ' ' []) (by decide) hquote htext⟩

/-! ## Lines -/

/-- A line on which a command is written begins with a plain character. -/
theorem Written.exists_head {command : Command} {name line : String}
    (h : command.Written name line) :
    ∃ c rest, line.toList = c :: rest ∧ Text.trimLeft line.toList = c :: rest ∧
      Text.isPlain c = true := by
  obtain ⟨hname, text, -, hline⟩ := h
  obtain ⟨hne, hplain⟩ := Verb.isPlain_of_ofName? hname
  obtain ⟨c, cs, hcs⟩ := List.exists_cons_of_ne_nil hne
  rw [hcs, List.all_cons, Bool.and_eq_true] at hplain
  have hblank : Text.isBlank c = false := (Text.isPlain_iff.mp hplain.1).1
  rw [hcs, List.cons_append] at hline
  exact ⟨c, _, hline, by rw [hline, Text.trimLeft_eq_self_of_head hblank], hplain.1⟩

theorem splitArgs_of_written {command : Command} {name line : String}
    (h : command.Written name line) : splitArgs line = .ok (name :: command.args) := by
  obtain ⟨c, rest, hline, htrim, hplain⟩ := h.exists_head
  obtain ⟨hname, text, hargs, htext⟩ := h
  have hquote : Text.isQuote c = false := (Text.isPlain_iff.mp hplain).2.1
  have hbare : bare 0 none (c :: rest) = .ok (name.toList, text) := by
    rw [← hline, htext]
    exact bare_of_isPlain (Verb.isPlain_of_ofName? hname).2 hargs.head_isBlank
  have hchars : splitChars line.toList = .ok ((name :: command.args).map String.toList) := by
    rw [splitChars_eq, htrim]
    simp only [hquote, Bool.false_eq_true, if_false, hbare]
    rw [hargs.splitChars_eq]
    rfl
  simp [splitArgs, hchars]

theorem parseLine_of_written {command : Command} {name line : String}
    (h : command.Written name line) : parseLine line = .ok (some command) := by
  obtain ⟨c, rest, -, htrim, hplain⟩ := h.exists_head
  obtain ⟨-, -, hne, -⟩ := Text.isPlain_iff.mp hplain
  have hcomment : isComment line = false := by simp [isComment, htrim, hne]
  rw [parseLine, if_neg (by simp [hcomment]), splitArgs_of_written h]
  simp only [h.1, command_args]
  rfl

/-- Any command can be written on a line, and each line on which it is written, with either name of
its verb, quotes of either kind and any blanks, is split into the name and the arguments and read as
that command. -/
theorem parseLine_undoes_writing (command : Command) :
    (∃ line, command.Written command.verb.name line) ∧
      ∀ name line, command.Written name line →
        splitArgs line = .ok (name :: command.args) ∧ parseLine line = .ok (some command) := by
  refine ⟨?_, fun name line h => ⟨splitArgs_of_written h, parseLine_of_written h⟩⟩
  obtain ⟨text, hargs⟩ := exists_argsWritten command.args
  exact ⟨String.ofList (command.verb.name.toList ++ text), Verb.ofName?_name command.verb, text,
    hargs, String.toList_ofList⟩

/-- The longer name, quotes of both kinds, and arguments that hold quotes, a bracket, a backslash
and a comment's sign, or nothing. -/
theorem parseLine_undoes_writing_insert :
    let command : Command := .ins "# [\"\\" false ""
    let line := "insert\t\"# [\\\"\\\\\" \"after\"  ''"
    command.Written "insert" line ∧ parseLine line = .ok (some command) := by
  intro command line
  have hpath : ArgsWritten [""] ([' ', ' '] ++ Text.enquote '\'' "".toList ++ []) :=
    .cons (by simp) (by decide) rfl .nil
  have hplace : ArgsWritten ["after", ""] ([' '] ++ Text.enquote '"' "after".toList ++ _) :=
    .cons (by simp) (by decide) rfl hpath
  have hlabel : ArgsWritten ["# [\"\\", "after", ""]
      (['\t'] ++ Text.enquote '"' "# [\"\\".toList ++ _) :=
    .cons (by simp) (by decide) rfl hplace
  have hwritten : command.Written "insert" line :=
    ⟨rfl, _, hlabel, by simp [line, Text.enquote, Text.escapeQuoted]⟩
  exact ⟨hwritten, ((parseLine_undoes_writing command).2 "insert" line hwritten).2⟩

end Command

end LabelTree
