import LabelTree.Json.Reader
import LabelTree.Snapshot.Basic

/-!
# Reading snapshots

The JSON text of a snapshot is an object with the keys `label`, `value` and `children`, each of
which may be left out, or a list of the three in that order, which may end early. Only `value` may
be `null`. Other keys are passed over, and a key that is read twice is a fault.
-/

namespace LabelTree.Snapshot

open Json

/-! ## Nodes -/

/-- What has been read of a node so far. -/
structure Draft where
  label : Option String := none
  value : Option (Option String) := none
  children : Option (List Snapshot) := none

namespace Draft

/-- The node that a draft stands for, with what is missing left empty. -/
def node (d : Draft) : Snapshot where
  label := d.label.getD ""
  value := d.value.getD none
  children := d.children.getD []

/-- Whether the value of a key has been read. -/
def has (d : Draft) (key : String) : Bool :=
  (key = "label" && d.label.isSome) || (key = "value" && d.value.isSome) ||
    (key = "children" && d.children.isSome)

/-- Reads the value of a key, or passes over that of an unknown one. -/
def readValue (forest : Reader (List Snapshot)) (d : Draft) (key : String) (cs : List Char) :
    Scan Draft :=
  if key = "label" then
    (readText cs).map fun (label, rest) => ({ d with label := some label }, rest)
  else if key = "value" then
    (readOptionalText cs).map fun (value, rest) => ({ d with value := some value }, rest)
  else if key = "children" then
    (forest.read cs).map fun (children, rest) => ({ d with children := some children }, rest)
  else (skipValue cs).map fun rest => (d, rest)

/-- Reads the colon after a key, and its value. A key already read is refused before its colon. -/
def readField (forest : Reader (List Snapshot)) (d : Draft) (key : String) (cs : List Char) :
    Scan Draft :=
  if d.has key then .error .mistyped
  else
    match skipSpace cs with
    | ':' :: rest => d.readValue forest key rest
    | [] => .error .truncated
    | _ => .error .malformed

theorem length_readValue {forest : Reader (List Snapshot)} {d d' : Draft} {key : String}
    {cs rest : List Char} (h : d.readValue forest key cs = .ok (d', rest)) :
    rest.length ≤ cs.length := by
  unfold readValue at h
  split at h
  · cases hr : readText cs with
    | error e => rw [hr] at h; cases h
    | ok r => rw [hr] at h; cases h; exact Nat.le_of_lt (length_readText hr)
  · split at h
    · cases hr : readOptionalText cs with
      | error e => rw [hr] at h; cases h
      | ok r => rw [hr] at h; cases h; exact Nat.le_of_lt (length_readOptionalText hr)
    · split at h
      · cases hr : forest.read cs with
        | error e => rw [hr] at h; cases h
        | ok r => rw [hr] at h; cases h; exact Nat.le_of_lt (forest.length_lt hr)
      · cases hr : skipValue cs with
        | error e => rw [hr] at h; cases h
        | ok r => rw [hr] at h; cases h; exact length_skipFrom hr

theorem length_readField {forest : Reader (List Snapshot)} {d d' : Draft} {key : String}
    {cs rest : List Char} (h : d.readField forest key cs = .ok (d', rest)) :
    rest.length < cs.length := by
  unfold readField at h
  split at h
  · cases h
  · split at h
    · rename_i hc
      exact Nat.lt_of_le_of_lt (length_readValue h) (length_of_skipSpace hc)
    · cases h
    · cases h

end Draft

/-- Reads the fields of an object after the opening quote of a key, closing brace included. -/
def readFields (forest : Reader (List Snapshot)) (d : Draft) (cs : List Char) : Scan Snapshot :=
  match h₁ : quoted true cs with
  | .error e => .error e
  | .ok (key, rest) =>
    match h₂ : d.readField forest (String.ofList key) rest with
    | .error e => .error e
    | .ok (d, rest') =>
      match h₃ : skipSpace rest' with
      | '}' :: after => .ok (d.node, after)
      | ',' :: after =>
        match h₄ : skipSpace after with
        | '"' :: more =>
          have : more.length < cs.length := by
            have := length_quoted h₁
            have := Draft.length_readField h₂
            have := length_of_skipSpace h₃
            have := length_of_skipSpace h₄
            omega
          readFields forest d more
        | [] => .error .truncated
        | _ => .error .malformed
      | [] => .error .truncated
      | _ => .error .malformed
  termination_by cs.length

/-- Reads an object after its opening brace. -/
def readObject (forest : Reader (List Snapshot)) (cs : List Char) : Scan Snapshot :=
  match skipSpace cs with
  | '}' :: rest => .ok (Draft.node {}, rest)
  | '"' :: rest => readFields forest {} rest
  | [] => .error .truncated
  | _ => .error .malformed

/-- Reads the end of a node written as a list, after its third element. -/
def readListEnd (node : Snapshot) (cs : List Char) : Scan Snapshot :=
  match skipSpace cs with
  | ']' :: rest => .ok (node, rest)
  | [] => .error .truncated
  | _ => .error .malformed

/-- After an element of a node written as a list: its end, or a comma and what `next` reads. -/
def readNext (node : Snapshot) (cs : List Char) (next : List Char → Scan Snapshot) :
    Scan Snapshot :=
  match skipSpace cs with
  | ']' :: rest => .ok (node, rest)
  | ',' :: rest => next rest
  | [] => .error .truncated
  | _ => .error .malformed

/-- Reads the third element of a node written as a list. -/
def readThird (forest : Reader (List Snapshot)) (node : Snapshot) (cs : List Char) :
    Scan Snapshot :=
  match forest.read cs with
  | .error e => .error e
  | .ok (children, rest) => readListEnd { node with children } rest

/-- Reads the second element of a node written as a list, and what follows it. -/
def readSecond (forest : Reader (List Snapshot)) (node : Snapshot) (cs : List Char) :
    Scan Snapshot :=
  match readOptionalText cs with
  | .error e => .error e
  | .ok (value, rest) =>
    readNext { node with value } rest (readThird forest { node with value })

/-- Reads a node written as a list, after its opening bracket. -/
def readList (forest : Reader (List Snapshot)) (cs : List Char) : Scan Snapshot :=
  match skipSpace cs with
  | ']' :: rest => .ok ({}, rest)
  | other =>
    match readText other with
    | .error e => .error e
    | .ok (label, rest) => readNext { label } rest (readSecond forest { label })

theorem length_readFields {forest : Reader (List Snapshot)} {d : Draft} {cs rest : List Char}
    {node : Snapshot} (h : readFields forest d cs = .ok (node, rest)) :
    rest.length < cs.length := by
  fun_induction readFields forest d cs generalizing node rest with
  | case3 d cs key after h₁ d' after' h₂ last h₃ =>
    cases h
    have := length_quoted h₁
    have := Draft.length_readField h₂
    have := length_of_skipSpace h₃
    omega
  | case4 _ _ _ _ _ _ _ _ _ _ _ _ hlt ih => exact Nat.lt_trans (ih h) hlt
  | _ => cases h

theorem length_readObject {forest : Reader (List Snapshot)} {cs rest : List Char}
    {node : Snapshot} (h : readObject forest cs = .ok (node, rest)) : rest.length ≤ cs.length := by
  unfold readObject at h
  split at h
  · rename_i hc
    cases h
    exact Nat.le_of_lt (length_of_skipSpace hc)
  · rename_i hc
    exact Nat.le_of_lt (Nat.lt_trans (length_readFields h) (length_of_skipSpace hc))
  · cases h
  · cases h

theorem length_readNext {node node' : Snapshot} {cs rest : List Char}
    {next : List Char → Scan Snapshot}
    (hn : ∀ after, next after = .ok (node', rest) → rest.length ≤ after.length)
    (h : readNext node cs next = .ok (node', rest)) : rest.length ≤ cs.length := by
  unfold readNext at h
  split at h
  · rename_i hc
    cases h
    exact Nat.le_of_lt (length_of_skipSpace hc)
  · rename_i hc
    exact Nat.le_trans (hn _ h) (Nat.le_of_lt (length_of_skipSpace hc))
  · cases h
  · cases h

theorem length_readListEnd {node node' : Snapshot} {cs rest : List Char}
    (h : readListEnd node cs = .ok (node', rest)) : rest.length ≤ cs.length := by
  unfold readListEnd at h
  split at h
  · rename_i hc
    cases h
    exact Nat.le_of_lt (length_of_skipSpace hc)
  · cases h
  · cases h

theorem length_readThird {forest : Reader (List Snapshot)} {node node' : Snapshot}
    {cs rest : List Char} (h : readThird forest node cs = .ok (node', rest)) :
    rest.length ≤ cs.length := by
  unfold readThird at h
  split at h
  · cases h
  · rename_i hf
    exact Nat.le_trans (length_readListEnd h) (Nat.le_of_lt (forest.length_lt hf))

theorem length_readSecond {forest : Reader (List Snapshot)} {node node' : Snapshot}
    {cs rest : List Char} (h : readSecond forest node cs = .ok (node', rest)) :
    rest.length ≤ cs.length := by
  unfold readSecond at h
  split at h
  · cases h
  · rename_i ht
    have := length_readNext (fun _ => length_readThird) h
    have := length_readOptionalText ht
    omega

theorem length_readList {forest : Reader (List Snapshot)} {cs rest : List Char} {node : Snapshot}
    (h : readList forest cs = .ok (node, rest)) : rest.length ≤ cs.length := by
  unfold readList at h
  split at h
  · rename_i hc
    cases h
    exact Nat.le_of_lt (length_of_skipSpace hc)
  · split at h
    · cases h
    · rename_i ht
      have := length_readNext (fun _ => length_readSecond) h
      have := length_readText ht
      have := length_skipSpace cs
      omega

/-! ## Nesting -/

/-- Reads a node, whose children `forest` reads. Without it a bracket would nest too deeply. -/
def readNode (forest : Option (Reader (List Snapshot))) (cs : List Char) : Scan Snapshot :=
  match forest, skipSpace cs with
  | none, '{' :: _ => .error .malformed
  | none, '[' :: _ => .error .malformed
  | some forest, '{' :: rest => readObject forest rest
  | some forest, '[' :: rest => readList forest rest
  | _, other => .error (typeFault other)

/-- Reads a list of nodes, which `node` reads. Without it a bracket would nest too deeply. -/
def readForest (node : Option (Reader Snapshot)) (cs : List Char) : Scan (List Snapshot) :=
  match node, skipSpace cs with
  | none, '[' :: _ => .error .malformed
  | some node, '[' :: rest =>
    match skipSpace rest with
    | ']' :: after => .ok ([], after)
    | other => elements node other
  | _, other => .error (typeFault other)

theorem length_readNode {forest : Option (Reader (List Snapshot))} {cs rest : List Char}
    {node : Snapshot} (h : readNode forest cs = .ok (node, rest)) : rest.length < cs.length := by
  unfold readNode at h
  split at h
  · cases h
  · cases h
  · rename_i hc
    exact Nat.lt_of_le_of_lt (length_readObject h) (length_of_skipSpace hc)
  · rename_i hc
    exact Nat.lt_of_le_of_lt (length_readList h) (length_of_skipSpace hc)
  · cases h

theorem length_readForest {node : Option (Reader Snapshot)} {cs rest : List Char}
    {children : List Snapshot} (h : readForest node cs = .ok (children, rest)) :
    rest.length < cs.length := by
  unfold readForest at h
  split at h
  · cases h
  · rename_i after hc
    have := length_of_skipSpace hc
    have := length_skipSpace after
    split at h
    · rename_i hr
      cases h
      have := length_of_skipSpace hr
      omega
    · have := length_elements h
      omega
  · cases h

mutual

/-- Reads a node in which at most `n` brackets nest. -/
def nodeReader : Nat → Reader Snapshot
  | 0 => ⟨readNode none, length_readNode⟩
  | n + 1 => ⟨readNode (some (forestReader n)), length_readNode⟩

/-- Reads a list of nodes in which at most `n` brackets nest. -/
def forestReader : Nat → Reader (List Snapshot)
  | 0 => ⟨readForest none, length_readForest⟩
  | n + 1 => ⟨readForest (some (nodeReader n)), length_readForest⟩

end

/-- How many brackets may nest in the text of a snapshot. -/
def maxNesting : Nat := 127

/-- Reads the text of a snapshot, which nothing but blanks may follow. -/
def ofJson (text : String) : Except Fault Snapshot :=
  match (nodeReader maxNesting).read text.toList with
  | .error e => .error e
  | .ok (node, rest) => if skipSpace rest = [] then .ok node else .error .malformed

end LabelTree.Snapshot
