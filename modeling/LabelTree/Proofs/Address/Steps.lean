import LabelTree.Entry
import LabelTree.Proofs.Path.Printing
import LabelTree.Proofs.Store.Lineage

/-!
# Address — the steps of an address

An address writes one step for each node of a lineage below the root: the node's label, and a
bracket with its position where siblings share the label. So an address compiles to exactly these
steps (`compile_address`).
-/

namespace LabelTree

/-! ## One step in writing -/

/-- The predicate that picks the node at a position, if one is needed. -/
def positionPredicates : Option Nat → List Predicate
  | none => []
  | some n => [.position n]

/-- The tokens of the bracket around a position. -/
def positionTokens : Option Nat → List Token
  | none => []
  | some n => [.openBracket, .number n, .closeBracket]

theorem allSpelled_position (position : Option Nat) :
    Predicate.AllSpelled (positionPredicates position) (positionTokens position) := by
  cases position with
  | none => exact .nil
  | some n => exact .cons (.position n) .nil

theorem written_addressStep (label : String) (position : Option Nat) {tokens : List Token}
    {text : List Char} (h : Token.Written 0 tokens text) :
    Token.Written 0 (.slash :: .label label :: (positionTokens position ++ tokens))
      ((addressStep label position).toList ++ text) := by
  have hbracket : ∀ rest, Token.Written 0 (positionTokens position ++ tokens) rest →
      Token.Written 0 (.slash :: .label label :: (positionTokens position ++ tokens))
        ('/' :: ((escapeLabel label).toList ++ rest)) :=
    fun rest hrest => .cons_word (.cons_word hrest)
  cases position with
  | none => simpa [addressStep] using hbracket text h
  | some n =>
    have hnumber : Token.Written 0 (positionTokens (some n) ++ tokens)
        ('[' :: (Nat.toDigits 10 n ++ ']' :: text)) :=
      .cons_word (.cons_word (.cons_word h))
    simpa [addressStep, Nat.repr_eq_ofList_toDigits] using hbracket _ hnumber

namespace Store

/-- The position that an address gives for a node, if siblings share its label. -/
def position? (s : Store) (id : NodeId) : Option Nat :=
  if s.sameLabelCount id > 1 then some (s.position id) else none

/-- The step that leads from a node's parent to the node. -/
def leadingStep (s : Store) (id : NodeId) : Step :=
  .select (.child (.exact (s.shownLabel id))) (positionPredicates (s.position? id))

/-- The lexemes of that step. Only their tokens matter. -/
def leadingLexemes (s : Store) (id : NodeId) : List Lexeme :=
  ⟨.label (s.shownLabel id), 0⟩ :: (positionTokens (s.position? id)).map (⟨·, 0⟩)

theorem leadingLexemes_tokens (s : Store) (id : NodeId) :
    (s.leadingLexemes id).map Lexeme.token =
      .label (s.shownLabel id) :: positionTokens (s.position? id) := by
  rw [leadingLexemes, List.map_cons, map_token_map]

theorem spelled_leadingStep {s : Store} {id : NodeId} {ls : List Lexeme}
    (h : ls.map Lexeme.token = .label (s.shownLabel id) :: positionTokens (s.position? id)) :
    (s.leadingStep id).Spelled ls := by
  obtain ⟨head, brackets, rfl, hhead, hbrackets⟩ := List.map_eq_cons_iff.mp h
  exact .select hhead (hbrackets ▸ allSpelled_position (s.position? id))

theorem toList_stepsDown (s : Store) (ids : List NodeId) :
    (s.stepsDown ids).toList = ids.reverse.flatMap fun id => (s.lastStep id).toList := by
  induction ids with
  | nil => rfl
  | cons id above ih => simp [stepsDown, ih]

/-- Steps down from the root, the topmost node first. -/
theorem exists_spelled_written (s : Store) {ids : List NodeId} (hne : ids ≠ []) :
    ∃ ls, Step.AllSpelled (ids.map s.leadingStep) ls ∧
      Token.Written 0 (.slash :: ls.map Lexeme.token)
        (ids.flatMap fun id => (s.lastStep id).toList) := by
  induction ids with
  | nil => exact absurd rfl hne
  | cons id below ih =>
    have hstep := spelled_leadingStep (s.leadingLexemes_tokens id)
    cases below with
    | nil =>
      have hlast := written_addressStep (s.shownLabel id) (s.position? id)
        (.nil rfl : Token.Written 0 [] [])
      refine ⟨s.leadingLexemes id, .final hstep, ?_⟩
      simpa [leadingLexemes_tokens, lastStep, position?] using hlast
    | cons next below =>
      obtain ⟨ls, hls, hwritten⟩ := ih (by simp)
      refine ⟨s.leadingLexemes id ++ ⟨.slash, 0⟩ :: ls, .cons rfl hstep rfl hls, ?_⟩
      have hmore := written_addressStep (s.shownLabel id) (s.position? id) hwritten
      simpa [leadingLexemes_tokens, lastStep, position?] using hmore

/-! ## The steps of an address -/

/-- A node and its ancestors below the root, nearest first. -/
def belowRoot (s : Store) (id : NodeId) : List NodeId :=
  (s.lineage id).takeWhile (· ≠ root)

/-- The steps from the root down to a node. -/
def leadingSteps (s : Store) (id : NodeId) : List Step :=
  (s.belowRoot id).reverse.map s.leadingStep

variable {s : Store} {id p : NodeId}

theorem belowRoot_root (s : Store) : s.belowRoot root = [] := by
  simp [belowRoot, lineage, walkLimit, lineageUpTo]

theorem WellFormed.belowRoot_of_parent (hs : s.WellFormed) (hid : id ≠ root)
    (hp : s.parent id = some p) : s.belowRoot id = id :: s.belowRoot p := by
  rw [belowRoot, hs.lineage_of_parent hp, List.takeWhile_cons_of_pos (by simpa using hid),
    belowRoot]

theorem belowRoot_ne_nil (hid : id ≠ root) : s.belowRoot id ≠ [] := by
  simp [belowRoot, lineage, walkLimit, lineageUpTo, hid]

theorem leadingSteps_root (s : Store) : s.leadingSteps root = [] := by
  rw [leadingSteps, belowRoot_root]
  rfl

theorem WellFormed.leadingSteps_of_parent (hs : s.WellFormed) (hid : id ≠ root)
    (hp : s.parent id = some p) : s.leadingSteps id = s.leadingSteps p ++ [s.leadingStep id] := by
  rw [leadingSteps, hs.belowRoot_of_parent hid hp, List.reverse_cons, List.map_append]
  rfl

theorem written_address (s : Store) (id : NodeId) :
    Path.Written true (s.leadingSteps id) (s.address id) := by
  by_cases hid : id = root
  · subst hid
    rw [leadingSteps_root, address, if_pos rfl]
    exact ⟨[⟨.slash, 0⟩], .root rfl, .cons_word (.nil rfl)⟩
  · have hne : (s.belowRoot id).reverse ≠ [] := by simpa using s.belowRoot_ne_nil hid
    obtain ⟨ls, hls, hwritten⟩ := s.exists_spelled_written hne
    refine ⟨⟨.slash, 0⟩ :: ls, .absolute rfl hls, ?_⟩
    rw [address, if_neg hid, toList_stepsDown]
    exact hwritten

/-! ## Addresses compile -/

/-- That every position is a number that a predicate can hold. Child lists are kept in memory, where
no list is longer. -/
def PositionsFit (s : Store) : Prop :=
  ∀ p, (s.children p).length ≤ largestNumber

theorem WellFormed.positionsFit (hs : s.WellFormed) (hfit : s.slots.size ≤ largestNumber) :
    s.PositionsFit := fun p =>
  Nat.le_trans (length_le_of_nodup (hs.nodup_children p) fun _ hc => hs.contains_of_child hc) hfit

theorem rank_le_length (s : Store) (label : String) (id : NodeId) (ids : List NodeId) :
    s.rank label id ids ≤ ids.length := by
  induction ids with
  | nil => exact Nat.le_refl 0
  | cons c cs ih =>
    rw [rank, List.length_cons]
    split <;> split <;> omega

theorem position_le_largestNumber (hfit : s.PositionsFit) (id : NodeId) :
    s.position id ≤ largestNumber := by
  rw [position]
  split
  · exact Nat.le_trans (s.rank_le_length _ id _) (hfit _)
  · decide

theorem isWritable_leadingStep (hfit : s.PositionsFit) (hlabel : s.shownLabel id ≠ "") :
    (s.leadingStep id).isWritable = true := by
  have hposition := position_le_largestNumber hfit id
  rw [leadingStep, position?]
  split
  · simpa [Step.isWritable, positionPredicates, Predicate.isWritable] using ⟨hlabel, hposition⟩
  · simpa [Step.isWritable, positionPredicates] using hlabel

theorem shownLabel_ne_empty (hs : s.WellFormed) (hlabels : ∀ id l, s.label id = some l → l ≠ "")
    (hid : id ≠ root) (hc : s.contains id = true) : s.shownLabel id ≠ "" := by
  obtain ⟨l, hl⟩ := Option.isSome_iff_exists.mp (hs.label_isSome id hid hc)
  rw [shownLabel, hl]
  exact hlabels id l hl

theorem WellFormed.mem_belowRoot (hs : s.WellFormed) {x : NodeId} (hid : s.contains id = true)
    (hx : x ∈ s.belowRoot id) : x ≠ root ∧ s.contains x = true := by
  refine ⟨by simpa using List.all_eq_true.mp List.all_takeWhile x hx, ?_⟩
  exact hs.contains_of_mem_lineageUpTo _ id hid x ((List.takeWhile_prefix _).subset hx)

theorem isAppend_leadingSteps (s : Store) (id : NodeId) :
    ∀ step ∈ s.leadingSteps id, step.isAppend = false := by
  intro step hstep
  obtain ⟨x, -, rfl⟩ := List.mem_map.mp hstep
  rfl

/-- An address compiles to the steps down from the root. -/
theorem WellFormed.compile_address (hs : s.WellFormed)
    (hlabels : ∀ id l, s.label id = some l → l ≠ "") (hfit : s.PositionsFit)
    (hid : s.contains id = true) :
    Path.compile (s.address id) = .ok ⟨s.address id, true, s.leadingSteps id⟩ := by
  refine Path.compile_of_written_select (s.written_address id) ?_ (s.isAppend_leadingSteps id)
  rw [leadingSteps, List.all_map, List.all_reverse, List.all_eq_true]
  intro x hx
  obtain ⟨hroot, hcontains⟩ := hs.mem_belowRoot hid hx
  exact isWritable_leadingStep hfit (shownLabel_ne_empty hs hlabels hroot hcontains)

end Store

end LabelTree
