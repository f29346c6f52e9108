import LabelTree.Proofs.Json.Text
import LabelTree.Snapshot.Reader

/-!
# Snapshot — text that is read back

On what the printer writes for a snapshot, whatever follows, the reader answers the snapshot and
leaves what follows (`read_print`). Each level of a snapshot nests two brackets, so this holds as
far as twice the depth stays within the nesting that the reader takes (`ofJson_print`).
-/

namespace LabelTree.Snapshot

open Json

variable {forest : Reader (List Snapshot)} {d d' : Draft} {level n : Nat}
  {cs left after : List Char}

/-! ## Fields -/

theorem printKey_append (key : String) (cs : List Char) :
    printKey key ++ cs = '"' :: (key.toList.flatMap escapeChar ++ '"' :: ':' :: ' ' :: cs) := by
  simp [printKey, printText]

/-- Reads what comes after a field: the end of the object, or a comma and further fields. -/
def readFurther (forest : Reader (List Snapshot)) (d : Draft) (cs : List Char) : Scan Snapshot :=
  match skipSpace cs with
  | '}' :: after => .ok (d.node, after)
  | ',' :: after =>
    match skipSpace after with
    | '"' :: more => readFields forest d more
    | [] => .error .truncated
    | _ => .error .malformed
  | [] => .error .truncated
  | _ => .error .malformed

theorem readFields_eq {key : List Char} (hkey : quoted true cs = .ok (key, left))
    (hfield : d.readField forest (String.ofList key) left = .ok (d', after)) :
    readFields forest d cs = readFurther forest d' after := by
  rw [readFields]
  split
  · rename_i e he
    rw [hkey] at he
    cases he
  · rename_i key' left' hk
    rw [hkey] at hk
    cases hk
    split
    · rename_i e he
      rw [hfield] at he
      cases he
    · rename_i d'' after' hf
      rw [hfield] at hf
      cases hf
      rw [readFurther]
      split <;> rename_i hs <;> simp only [hs]
      split <;> rename_i ha <;> simp only [ha]

/-- A field is read from what is written for it, and what comes after it is read next. -/
theorem readFields_key {key : String} (hnew : d.has key = false)
    (hvalue : d.readValue forest key (' ' :: cs) = .ok (d', after)) :
    readFields forest d (key.toList.flatMap escapeChar ++ '"' :: ':' :: ' ' :: cs) =
      readFurther forest d' after := by
  refine readFields_eq (quoted_flatMap_escapeChar key.toList _) ?_
  rw [String.ofList_toList, Draft.readField, hnew, skipSpace_cons rfl]
  exact hvalue

theorem readFurther_end (forest : Reader (List Snapshot)) (d : Draft) (level : Nat)
    (after : List Char) :
    readFurther forest d (newLine level ++ '}' :: after) = .ok (d.node, after) := by
  rw [readFurther, skipSpace_newLine, skipSpace_cons rfl]
  rfl

theorem readFurther_key {key : String} (hnew : d.has key = false)
    (hvalue : d.readValue forest key (' ' :: cs) = .ok (d', after)) :
    readFurther forest d (',' :: (newLine level ++ printKey key ++ cs)) =
      readFurther forest d' after := by
  rw [readFurther, skipSpace_cons rfl]
  simp only [List.append_assoc, skipSpace_newLine, printKey_append]
  rw [skipSpace_cons rfl]
  exact readFields_key hnew hvalue

theorem readFurther_value (hnew : d.value = none) (value : Option String) (cs : List Char) :
    readFurther forest d (printValue level value ++ cs) =
      readFurther forest { d with value := value.map some } cs := by
  cases value with
  | none =>
    obtain ⟨label, _, children⟩ := d
    cases hnew
    rfl
  | some text =>
    rw [printValue, List.cons_append, List.append_assoc]
    refine readFurther_key (by simp [Draft.has, hnew]) ?_
    have hread : readOptionalText (' ' :: (printText text ++ cs)) = .ok (some text, cs) :=
      readOptionalText_printText text cs
    simp [Draft.readValue, hread, Except.map]

/-! ## Children -/

/-- The text of a list that is not empty, whose brackets stand at `level`. -/
def printForest (level : Nat) (child : Snapshot) (rest : List Snapshot) : List Char :=
  '[' :: (newLine (level + 1) ++ print (level + 1) child ++ printRest (level + 1) rest ++
    newLine level ++ [']'])

/-- That `item` reads what is written for `s` at `level`, whatever follows it. -/
def Reads (item : Reader Snapshot) (level : Nat) (s : Snapshot) : Prop :=
  ∀ {cs after : List Char}, skipSpace cs = print level s ++ after → item.read cs = .ok (s, after)

theorem elements_eq {item : Reader Snapshot} {s : Snapshot} (hitem : item.read cs = .ok (s, left)) :
    elements item cs =
      match skipSpace left with
      | ']' :: after => .ok ([s], after)
      | ',' :: after => (elements item after).map fun (as, rest) => (s :: as, rest)
      | [] => .error .truncated
      | _ => .error .malformed := by
  rw [elements]
  split
  · rename_i e he
    rw [hitem] at he
    cases he
  · rename_i a rest ha
    rw [hitem] at ha
    cases ha
    split <;> rename_i hs <;> simp only [hs]

theorem elements_print {item : Reader Snapshot} {child : Snapshot} {rest : List Snapshot}
    {bracket : Nat} (hitem : ∀ s ∈ child :: rest, Reads item level s)
    (hcs : skipSpace cs =
      print level child ++ (printRest level rest ++ (newLine bracket ++ ']' :: after))) :
    elements item cs = .ok (child :: rest, after) := by
  induction rest generalizing child cs with
  | nil =>
    rw [elements_eq (hitem child List.mem_cons_self hcs), printRest, List.nil_append,
      skipSpace_newLine, skipSpace_cons rfl]
    rfl
  | cons next rest ih =>
    have hmore : skipSpace (printRest level (next :: rest) ++ (newLine bracket ++ ']' :: after)) =
        ',' :: (newLine level ++ (print level next ++
          (printRest level rest ++ (newLine bracket ++ ']' :: after)))) := by
      rw [printRest, List.cons_append, skipSpace_cons rfl]
      simp
    have hnext : skipSpace (newLine level ++ (print level next ++
        (printRest level rest ++ (newLine bracket ++ ']' :: after)))) =
        print level next ++ (printRest level rest ++ (newLine bracket ++ ']' :: after)) := by
      rw [skipSpace_newLine]
      cases next
      exact skipSpace_cons rfl _
    have hrest := ih (fun s hs => hitem s (List.mem_cons_of_mem _ hs)) hnext
    rw [elements_eq (hitem child List.mem_cons_self hcs), hmore]
    show (elements item _).map _ = _
    rw [hrest]
    rfl

theorem readForest_printForest {item : Reader Snapshot} {child : Snapshot} {rest : List Snapshot}
    (hitem : ∀ s ∈ child :: rest, Reads item (level + 1) s) (after : List Char) :
    readForest (some item) (' ' :: (printForest level child rest ++ after)) =
      .ok (child :: rest, after) := by
  have hopen : skipSpace (' ' :: (printForest level child rest ++ after)) = '[' ::
      (newLine (level + 1) ++ (print (level + 1) child ++
        (printRest (level + 1) rest ++ (newLine level ++ ']' :: after)))) := by
    rw [printForest]
    show skipSpace ('[' :: _) = _
    rw [skipSpace_cons rfl]
    simp
  have hfirst : skipSpace (print (level + 1) child ++
      (printRest (level + 1) rest ++ (newLine level ++ ']' :: after))) =
      print (level + 1) child ++
        (printRest (level + 1) rest ++ (newLine level ++ ']' :: after)) := by
    cases child
    exact skipSpace_cons rfl _
  unfold readForest
  rw [hopen]
  simp only [skipSpace_newLine, hfirst]
  split
  · rename_i h
    cases child
    cases h
  · exact elements_print hitem hfirst

theorem readFurther_children {children : List Snapshot} (hnew : d.children = none)
    (hforest : ∀ child rest, children = child :: rest → ∀ after,
      forest.read (' ' :: (printForest level child rest ++ after)) = .ok (children, after))
    (bracket : Nat) (after : List Char) :
    readFurther forest d (printChildren level children ++ (newLine bracket ++ '}' :: after)) =
      .ok ({ d.node with children }, after) := by
  cases children with
  | nil =>
    rw [printChildren, List.nil_append, readFurther_end]
    simp [Draft.node, hnew]
  | cons child rest =>
    have hread := hforest child rest rfl (newLine bracket ++ '}' :: after)
    have htext : printChildren level (child :: rest) ++ (newLine bracket ++ '}' :: after) =
        ',' :: (newLine level ++ printKey "children" ++
          (printForest level child rest ++ (newLine bracket ++ '}' :: after))) := by
      simp [printChildren, printForest]
    have hchildren : d.readValue forest "children"
        (' ' :: (printForest level child rest ++ (newLine bracket ++ '}' :: after))) =
          .ok ({ d with children := some (child :: rest) }, newLine bracket ++ '}' :: after) := by
      simp [Draft.readValue, hread, Except.map]
    have hnew' : d.has "children" = false := by simp [Draft.has, hnew]
    rw [htext, readFurther_key hnew' hchildren]
    exact readFurther_end forest _ bracket after

/-! ## Nodes -/

theorem print_append (level : Nat) (s : Snapshot) (after : List Char) :
    print level s ++ after = '{' :: (newLine (level + 1) ++ (printKey "label" ++
      (printText s.label ++ (printValue (level + 1) s.value ++
        (printChildren (level + 1) s.children ++ (newLine level ++ '}' :: after)))))) := by
  cases s
  simp [print]

theorem readObject_print {s : Snapshot}
    (hforest : ∀ child rest, s.children = child :: rest → ∀ after,
      forest.read (' ' :: (printForest (level + 1) child rest ++ after)) = .ok (s.children, after))
    (bracket : Nat) (after : List Char) :
    readObject forest (newLine (level + 1) ++ (printKey "label" ++ (printText s.label ++
      (printValue (level + 1) s.value ++ (printChildren (level + 1) s.children ++
        (newLine bracket ++ '}' :: after)))))) = .ok (s, after) := by
  have hlabel : ∀ cs, Draft.readValue forest {} "label" (' ' :: (printText s.label ++ cs)) =
      .ok ({ label := some s.label }, cs) := by
    intro cs
    have hread : readText (' ' :: (printText s.label ++ cs)) = .ok (s.label, cs) :=
      readText_printText s.label cs
    simp [Draft.readValue, hread, Except.map]
  rw [readObject, skipSpace_newLine, printKey_append, skipSpace_cons rfl]
  show readFields forest {} _ = _
  rw [readFields_key rfl (hlabel _), readFurther_value rfl, readFurther_children rfl hforest]
  obtain ⟨label, value, children⟩ := s
  cases value <;> rfl

theorem depth_pos (s : Snapshot) : 0 < s.depth := by
  cases s
  rw [depth]
  exact Nat.succ_pos _

mutual

/-- What is written for a snapshot is read as that snapshot where brackets may nest deeply
enough. -/
theorem read_print : ∀ (s : Snapshot) {n : Nat} (level : Nat), 2 * s.depth ≤ n + 1 →
    Reads (nodeReader n) level s
  | ⟨label, value, children⟩, n, level, hdepth, cs, after, hcs => by
    rw [depth] at hdepth
    obtain ⟨m, rfl⟩ : ∃ m, n = m + 1 := ⟨n - 1, by omega⟩
    have hall : ∀ {k : Nat}, 2 * depthAll children ≤ k + 1 →
        ∀ s ∈ children, Reads (nodeReader k) (level + 1 + 1) s := reads_all children (level + 1 + 1)
    have hforest : ∀ child rest, children = child :: rest → ∀ after,
        (forestReader m).read (' ' :: (printForest (level + 1) child rest ++ after)) =
          .ok (children, after) := by
      rintro child rest rfl after
      have := depth_pos child
      rw [depthAll] at hdepth
      obtain ⟨k, rfl⟩ : ∃ k, m = k + 1 := ⟨m - 1, by omega⟩
      rw [forestReader]
      exact readForest_printForest (hall (by rw [depthAll]; omega)) after
    rw [print_append] at hcs
    rw [nodeReader]
    show readNode (some (forestReader m)) cs = _
    unfold readNode
    rw [hcs]
    exact readObject_print (s := ⟨label, value, children⟩) hforest level after

theorem reads_all : ∀ (children : List Snapshot) {n : Nat} (level : Nat),
    2 * depthAll children ≤ n + 1 → ∀ s ∈ children, Reads (nodeReader n) level s
  | [], _, _, _, _, hs => by cases hs
  | child :: rest, n, level, hdepth, s, hs => by
    rw [depthAll] at hdepth
    rcases List.mem_cons.mp hs with heq | hs
    · rw [heq]
      exact read_print child level (by omega)
    · exact reads_all rest level (by omega) s hs

end

/-- The text of a snapshot that is not too deep is read back as that snapshot. -/
theorem ofJson_print {s : Snapshot} (h : 2 * s.depth ≤ maxNesting + 1) :
    ofJson s.toJson = .ok s := by
  have hstart : skipSpace (print 0 s) = print 0 s ++ [] := by
    rw [List.append_nil]
    cases s
    exact skipSpace_cons rfl _
  rw [ofJson, toJson, String.toList_ofList, read_print s 0 h hstart]
  simp [skipSpace]

end LabelTree.Snapshot
