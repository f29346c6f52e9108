import LabelTree.Proofs.Resolve.Meaning

/-!
# Resolve — paths below paths

A path below another one leads where its own steps lead from the nodes of the other, taken one by
one and in order, except that a node met again is not listed again (`resolve_rebase`). Repetitions
are dropped at every parent step on one side and once at the end on the other. That makes no
difference: a node met a second time can only lead to nodes that are listed already
(`eraseDups_flatMap_eraseDups`).
-/

namespace LabelTree

/-! ## First occurrences -/

section FirstOccurrences

variable {α β : Type} [BEq α] [LawfulBEq α]

theorem eraseDups_filter (p : α → Bool) (l : List α) :
    (l.filter p).eraseDups = l.eraseDups.filter p := by
  match l with
  | [] => rfl
  | a :: l =>
    have ih := eraseDups_filter p (l.filter fun b => !b == a)
    cases hp : p a with
    | true =>
      rw [List.filter_cons_of_pos hp, List.eraseDups_cons, List.eraseDups_cons,
        List.filter_cons_of_pos hp, ← ih, List.filter_filter, List.filter_filter]
      simp only [Bool.and_comm]
    | false =>
      have hsame : (l.filter fun b => !b == a).filter p = l.filter p := by
        rw [List.filter_filter]
        refine List.filter_congr fun b _ => ?_
        by_cases hb : b = a
        · simp [hb, hp]
        · simp [hb]
      have hneg : ¬ p a = true := by simp [hp]
      rw [List.filter_cons_of_neg hneg, List.eraseDups_cons, List.filter_cons_of_neg hneg, ← ih,
        hsame]
  termination_by l.length
  decreasing_by
    have := List.length_filter_le (fun b => !b == a) l
    simp only [List.length_cons]
    omega

theorem eraseDups_of_nodup {l : List α} (h : l.Nodup) : l.eraseDups = l := by
  induction l with
  | nil => rfl
  | cons a l ih =>
    obtain ⟨ha, hl⟩ := List.nodup_cons.mp h
    have hkeep : l.filter (fun b => !b == a) = l := by
      rw [List.filter_eq_self]
      intro b hb
      have hne : b ≠ a := fun heq => ha (heq ▸ hb)
      simpa using hne
    rw [List.eraseDups_cons, hkeep, ih hl]

theorem removeAll_congr {as as' : List α} (h : ∀ x, x ∈ as ↔ x ∈ as') (bs : List α) :
    bs.removeAll as = bs.removeAll as' := by
  refine List.filter_congr fun b _ => ?_
  rw [Bool.eq_iff_iff]
  simp [h b]

theorem eraseDups_append_congr {as as' bs bs' : List α} (ha : as.eraseDups = as'.eraseDups)
    (hb : bs.eraseDups = bs'.eraseDups) : (as ++ bs).eraseDups = (as' ++ bs').eraseDups := by
  have hmem : ∀ x, x ∈ as ↔ x ∈ as' := fun x => by
    rw [← List.mem_eraseDups, ha, List.mem_eraseDups]
  rw [List.eraseDups_append, List.eraseDups_append, removeAll_congr hmem bs, ha]
  congr 1
  rw [List.removeAll, List.removeAll, eraseDups_filter, eraseDups_filter, hb]

theorem eraseDups_flatMap_congr {f g : β → List α} (h : ∀ x, (f x).eraseDups = (g x).eraseDups)
    (l : List β) : (l.flatMap f).eraseDups = (l.flatMap g).eraseDups := by
  induction l with
  | nil => rfl
  | cons a l ih =>
    rw [List.flatMap_cons, List.flatMap_cons]
    exact eraseDups_append_congr (h a) ih

variable [BEq β] [LawfulBEq β]

/-- What has been listed for an element is not listed again for its later occurrences. -/
theorem eraseDups_append_flatMap_filter (f : β → List α) (a : β) (l : List β) :
    (f a ++ (l.filter fun b => !b == a).flatMap f).eraseDups = (f a ++ l.flatMap f).eraseDups := by
  have hlater : ((l.filter fun b => !b == a).flatMap f).removeAll (f a) =
      (l.flatMap f).removeAll (f a) := by
    have hnone : (f a).filter (fun x => !List.elem x (f a)) = [] := by simp
    rw [List.removeAll, List.removeAll, List.filter_flatMap, List.filter_flatMap]
    induction l with
    | nil => rfl
    | cons b l ih =>
      by_cases hb : b = a
      · subst hb
        rw [List.filter_cons_of_neg (by simp), List.flatMap_cons, hnone, List.nil_append, ih]
      · rw [List.filter_cons_of_pos (by simpa using hb), List.flatMap_cons, List.flatMap_cons, ih]
  rw [List.eraseDups_append, List.eraseDups_append, hlater]

/-- A later occurrence of an element can only add what its first one added. -/
theorem eraseDups_flatMap_eraseDups (f : β → List α) (l : List β) :
    (l.eraseDups.flatMap f).eraseDups = (l.flatMap f).eraseDups := by
  match l with
  | [] => rfl
  | a :: l =>
    have ih := eraseDups_flatMap_eraseDups f (l.filter fun b => !b == a)
    rw [List.eraseDups_cons, List.flatMap_cons, List.flatMap_cons,
      eraseDups_append_congr rfl ih, eraseDups_append_flatMap_filter]
  termination_by l.length
  decreasing_by
    have := List.length_filter_le (fun b => !b == a) l
    simp only [List.length_cons]
    omega

theorem eraseDups_eraseDups {l : List α} : l.eraseDups.eraseDups = l.eraseDups := by
  simpa using eraseDups_flatMap_eraseDups (fun a => [a]) l

end FirstOccurrences

namespace Store

variable {s : Store}

/-! ## One node at a time -/

theorem eraseDups_advance (s : Store) (nodes : List NodeId) (step : Step) :
    (s.advance nodes step).eraseDups = (nodes.flatMap (s.candidates step)).eraseDups := by
  unfold advance
  dsimp only
  split
  · exact eraseDups_eraseDups
  · rfl

/-- A run of steps from several nodes lists what the runs from each of them list. -/
theorem eraseDups_foldl_advance (s : Store) (steps : List Step) (nodes : List NodeId) :
    (steps.foldl s.advance nodes).eraseDups =
      (nodes.flatMap fun n => steps.foldl s.advance [n]).eraseDups := by
  induction steps generalizing nodes with
  | nil => simp
  | cons step steps ih =>
    -- the runs after the first step, each from one node
    have hfirst : ∀ ns, ((s.advance ns step).flatMap fun n => steps.foldl s.advance [n]).eraseDups =
        ((ns.flatMap (s.candidates step)).flatMap fun n =>
          steps.foldl s.advance [n]).eraseDups := by
      intro ns
      rw [← eraseDups_flatMap_eraseDups, eraseDups_advance, eraseDups_flatMap_eraseDups]
    simp only [List.foldl_cons]
    rw [ih, hfirst, List.flatMap_assoc]
    refine eraseDups_flatMap_congr (fun n => ?_) nodes
    rw [ih, hfirst, List.flatMap_singleton]

theorem resolve_of_relative {path : Path} (hrel : path.absolute = false) (context : NodeId) :
    s.resolve path context = path.steps.foldl s.advance [context] := by
  rw [resolve, start, hrel]
  rfl

/-- A relative path below an absolute one leads to the nodes that it leads to from each node of the
other in turn, each of them listed where it is met first. -/
theorem resolve_rebase (hs : s.WellFormed) {path base : Path} (hrel : path.absolute = false)
    (habsolute : base.absolute = true) :
    s.resolve (path.rebase base) root =
      ((s.resolve base root).flatMap (s.resolve path)).eraseDups := by
  have hone : s.resolve path = fun n => path.steps.foldl s.advance [n] :=
    funext (resolve_of_relative hrel)
  have hsteps : s.resolve (path.rebase base) root =
      path.steps.foldl s.advance (s.resolve base root) := by
    simp [resolve, start, Path.rebase, hrel, habsolute, List.foldl_append]
  have hnodup := (hs.apart_resolve (path.rebase base) hs.contains_root).1
  calc s.resolve (path.rebase base) root
      = (s.resolve (path.rebase base) root).eraseDups := (eraseDups_of_nodup hnodup).symm
    _ = ((s.resolve base root).flatMap (s.resolve path)).eraseDups := by
        rw [hsteps, hone, eraseDups_foldl_advance]

/-- From both of two siblings a path leads to both. -/
theorem resolve_rebase_siblings :
    let s := new.applyAll [.appendChild root "a", .appendChild root "a"]
    let base : Path := ⟨"/a", true, [.select (.child (.exact "a")) []]⟩
    let path : Path := ⟨"../a", false, [.select .parent [], .select (.child (.exact "a")) []]⟩
    s.WellFormed ∧ path.absolute = false ∧ base.absolute = true ∧
      (s.resolve base root).flatMap (s.resolve path) = [⟨1, 0⟩, ⟨2, 0⟩, ⟨1, 0⟩, ⟨2, 0⟩] ∧
      s.resolve (path.rebase base) root = [⟨1, 0⟩, ⟨2, 0⟩] := by
  intro s base path
  have hs : s.WellFormed := Reachable.wellFormed ⟨_, rfl⟩
  have hflat : (s.resolve base root).flatMap (s.resolve path) =
      [⟨1, 0⟩, ⟨2, 0⟩, ⟨1, 0⟩, ⟨2, 0⟩] := by decide
  refine ⟨hs, rfl, rfl, hflat, ?_⟩
  rw [resolve_rebase hs rfl rfl, hflat]
  decide

end Store

end LabelTree
