import LabelTree.Entry
import LabelTree.Proofs.Address.Ending
import LabelTree.Proofs.Address.Resolve
import LabelTree.Proofs.Store.Labelled
import LabelTree.Proofs.Store.Subtree

/-!
# Entry — listings of subtrees

A listing makes the path of a child from that of its parent. It lists the nodes of a subtree in
document order, each under the path so extended from the address of the top (`subtreeEntries_eq`).
As trailing slashes are trimmed before a step is added, these paths are addresses exactly when no
node with children has an address that ends in a slash of its label (`subtreeEntries_eq_iff`).
-/

namespace LabelTree.Store

variable {s : Store} {id c p x top : NodeId} {path label : String}

/-! ## The steps to the children of a node -/

/-- The labels shown for children are their labels. -/
theorem WellFormed.count_shownLabel (hs : s.WellFormed) {ids : List NodeId}
    (hids : ∀ c ∈ ids, s.parent c = some p) (label : String) :
    (ids.map s.shownLabel).count label = ids.countP fun c => s.label c = some label := by
  rw [List.count, List.countP_map]
  refine List.countP_congr fun c hc => ?_
  obtain ⟨l, hl⟩ := hs.exists_label_of_parent (hids c hc)
  simp [shownLabel, hl]

/-- Counted along the siblings, each step is the last step of the child's address. -/
theorem WellFormed.childSteps_eq (hs : s.WellFormed) (before after : List NodeId)
    (h : s.children p = before ++ after) :
    childSteps ((s.children p).map s.shownLabel) (before.map s.shownLabel).reverse
        (after.map s.shownLabel) = after.map s.lastStep := by
  induction after generalizing before with
  | nil => rfl
  | cons c after ih =>
    have hparent : ∀ d ∈ s.children p, s.parent d = some p := fun d => (hs.mem_children p d).mp
    have hbefore : ∀ d ∈ before, s.parent d = some p := by
      intro d hd
      exact hparent d (h ▸ List.mem_append_left _ hd)
    have hp : s.parent c = some p := hparent c (by simp [h])
    obtain ⟨l, hl⟩ := hs.exists_label_of_parent hp
    have hshown : s.shownLabel c = l := by simp [shownLabel, hl]
    have hcount : ((s.children p).map s.shownLabel).count l = s.sameLabelCount c := by
      rw [hs.count_shownLabel hparent, sameLabelCount, hp, hl]
      rfl
    have hnotMem : c ∉ before := by
      have hn := hs.nodup_children p
      rw [h] at hn
      exact fun hc => (List.nodup_append.mp hn).2.2 c hc c List.mem_cons_self rfl
    have hposition : (before.map s.shownLabel).reverse.count l + 1 = s.position c := by
      rw [List.count_reverse, hs.count_shownLabel hbefore, position, hp, hl]
      simp [h, rank_append_of_notMem hnotMem, rank, hl]
    have hrest := ih (before ++ [c]) (by simp [h])
    rw [List.map_append, List.map_singleton, List.reverse_append, List.reverse_singleton,
      List.singleton_append, hshown] at hrest
    rw [List.map_cons, List.map_cons, childSteps, hshown, hcount, hposition, lastStep,
      hshown, hrest]

/-! ## Paths below a node -/

/-- The path of a child of a node listed under `path`. -/
def extended (s : Store) (path : String) (id : NodeId) : String :=
  Path.trimSlashes path ++ s.lastStep id

theorem WellFormed.childPaths_eq (hs : s.WellFormed) (id : NodeId) (path : String) :
    s.childPaths id path = (s.children id).map fun c => (c, s.extended path c) := by
  have hsteps := hs.childSteps_eq [] (s.children id) rfl
  rw [List.map_nil, List.reverse_nil] at hsteps
  have hzip := List.zip_map' (f := fun c : NodeId => c) (g := s.extended path) (l := s.children id)
  rw [List.map_id'] at hzip
  rw [childPaths, hsteps, List.map_map]
  exact hzip

/-- The path of a node in the listing of a subtree whose top is listed under `path`. -/
def listedPath (s : Store) (top : NodeId) (path : String) (id : NodeId) : String :=
  ((s.lineage id).takeWhile (· ≠ top)).foldr (fun c path => s.extended path c) path

theorem listedPath_top (s : Store) (top : NodeId) (path : String) :
    s.listedPath top path top = path := by
  simp [listedPath, lineage, walkLimit, lineageUpTo]

theorem WellFormed.listedPath_of_parent (hs : s.WellFormed) (hid : id ≠ top)
    (hp : s.parent id = some p) :
    s.listedPath top path id = s.extended (s.listedPath top path p) id := by
  rw [listedPath, hs.lineage_of_parent hp, List.takeWhile_cons_of_pos (by simpa using hid)]
  rfl

/-- A listing goes on below a child as the child's own listing would. -/
theorem WellFormed.listedPath_child (hs : s.WellFormed) (hc : c ∈ s.children top)
    (hx : s.isWithin x c = true) :
    s.listedPath c (s.extended path c) x = s.listedPath top path x := by
  have hp := (hs.mem_children top c).mp hc
  induction x using hs.upward with
  | step x ih =>
    by_cases hxc : x = c
    · subst hxc
      have hne : x ≠ top := fun h => hs.parent_ne_self (h ▸ hp)
      rw [listedPath_top, hs.listedPath_of_parent hne hp, listedPath_top]
    · obtain ⟨q, hq, hqc⟩ := (hs.isWithin_iff.mp hx).resolve_left hxc
      have hne : x ≠ top := by
        rintro rfl
        rw [hs.not_isWithin_child hp] at hx
        cases hx
      rw [hs.listedPath_of_parent hxc hq, hs.listedPath_of_parent hne hq, ih q hq hqc]

/-! ## The walk -/

/-- The entries of a subtree whose top is listed under `path`. -/
def listed (s : Store) (top : NodeId) (path : String) : List Entry :=
  ((s.preorder top).filter (· ≠ root)).map fun x => s.entryAt x (s.listedPath top path x)

theorem WellFormed.listed_eq (hs : s.WellFormed) (hid : s.contains id = true) (path : String) :
    s.listed id path = (if id = root then [] else [s.entryAt id path]) ++
      (s.childPaths id path).flatMap fun below => s.listed below.1 below.2 := by
  have hbelow : ((s.children id).flatMap fun c => (s.preorder c).filter (· ≠ root)).map
      (fun x => s.entryAt x (s.listedPath id path x)) =
        (s.childPaths id path).flatMap fun below => s.listed below.1 below.2 := by
    rw [hs.childPaths_eq, List.map_flatMap, List.flatMap_map]
    refine List.flatMap_congr fun c hc => List.map_congr_left fun x hx => ?_
    have hxc := (hs.mem_preorder_iff.mp (List.mem_of_mem_filter hx)).2
    rw [hs.listedPath_child hc hxc]
  rw [listed, hs.preorder_of_contains hid, List.filter_cons, List.filter_flatMap]
  split
  · rename_i hroot
    rw [List.map_cons, hbelow, listedPath_top, if_neg (by simpa using hroot)]
    rfl
  · rename_i hroot
    rw [hbelow, if_pos (by simpa using hroot)]
    rfl

/-- With steps enough the walk lists the subtrees of the nodes on the stack one after another. -/
theorem WellFormed.listFrom_eq (hs : s.WellFormed) {n : Nat} {stack : List (NodeId × String)}
    (hstack : ∀ below ∈ stack, s.contains below.1 = true)
    (hn : (stack.flatMap fun below => s.preorder below.1).length < n) :
    s.listFrom n stack = stack.flatMap fun below => s.listed below.1 below.2 := by
  induction n generalizing stack with
  | zero => omega
  | succ n ih =>
    cases stack with
    | nil => rfl
    | cons first rest =>
      obtain ⟨id, path⟩ := first
      have hid : s.contains id = true := hstack _ List.mem_cons_self
      have hchildren : ∀ below ∈ s.childPaths id path ++ rest, s.contains below.1 = true := by
        intro below hb
        rcases List.mem_append.mp hb with hb | hb
        · rw [hs.childPaths_eq, List.mem_map] at hb
          obtain ⟨c, hc, rfl⟩ := hb
          exact hs.contains_of_child hc
        · exact hstack below (List.mem_cons_of_mem _ hb)
      -- the node itself leaves the stack, so the nodes to be listed become one fewer
      have hcount : ((s.childPaths id path ++ rest).flatMap fun below => s.preorder below.1).length
          < n := by
        rw [hs.childPaths_eq, List.flatMap_append, List.flatMap_map]
        rw [List.flatMap_cons, hs.preorder_of_contains hid] at hn
        simpa using Nat.lt_of_succ_lt_succ hn
      rw [listFrom, ih hchildren hcount, List.flatMap_append, List.flatMap_cons, hs.listed_eq hid]
      split <;> simp

/-- The nodes of a subtree in document order, each under the path extended from the top's
address. -/
theorem WellFormed.subtreeEntries_eq (hs : s.WellFormed) (hid : s.contains id = true) :
    s.subtreeEntries id = ((s.descendants id).filter (· ≠ root)).map fun x =>
      s.entryAt x (s.listedPath id (s.address id) x) := by
  have hlen := hs.length_preorder_le id
  have hlist : s.listFrom s.walkLimit [(id, s.address id)] =
      [(id, s.address id)].flatMap fun below => s.listed below.1 below.2 :=
    hs.listFrom_eq (by simpa using hid) (by simp [walkLimit]; omega)
  rw [subtreeEntries, hlist, hs.descendants_eq_preorder]
  simp [listed]

/-! ## Addresses as paths -/

/-- That a node's address ends in a slash of its label. -/
def EndsInSlash (s : Store) (id : NodeId) : Prop :=
  s.sameLabelCount id ≤ 1 ∧ (s.shownLabel id).toList.getLast? = some '/'

/-- Trimming changes an address only if it ends in a slash of the label. -/
theorem trimSlashes_address (hid : id ≠ root) (hlabel : s.shownLabel id ≠ "") :
    Path.trimSlashes (s.address id) = s.address id ↔ ¬ s.EndsInSlash id := by
  rw [Path.trimSlashes_eq_self_iff, getLast?_address hid, lastStep_eq, getLast?_addressStep hlabel,
    position?, EndsInSlash]
  split
  · rename_i hmany
    simp [Nat.not_le.mpr hmany]
  · rename_i hone
    simp [Nat.not_lt.mp hone]

theorem trimSlashes_address_root (s : Store) : Path.trimSlashes (s.address root) = "" := by
  rw [address, if_pos rfl]
  rfl

/-- Below a node whose path is its address, paths are addresses if the slash that is not repeated is
no part of a label. -/
theorem WellFormed.extended_address_iff (hs : s.WellFormed)
    (hlabels : ∀ id l, s.label id = some l → l ≠ "") (hp : s.parent id = some p) :
    s.extended (s.address p) id = s.address id ↔ p = root ∨ ¬ s.EndsInSlash p := by
  rw [extended, hs.address_of_parent hp, String.append_left_inj]
  split
  · rename_i hroot
    rw [hroot, trimSlashes_address_root]
    simp
  · rename_i hroot
    have hlabel := shownLabel_ne_empty hs hlabels hroot (hs.contains_of_parent hp)
    rw [trimSlashes_address hroot hlabel]
    simp [hroot]

theorem WellFormed.listedPath_eq_address (hs : s.WellFormed)
    (hlabels : ∀ id l, s.label id = some l → l ≠ "") (hid : s.contains id = true)
    (h : ∀ x ∈ s.descendants id, x ≠ root → s.children x ≠ [] → ¬ s.EndsInSlash x)
    (hx : s.isWithin x id = true) : s.listedPath id (s.address id) x = s.address x := by
  induction x using hs.upward with
  | step x ih =>
    rcases hs.isWithin_iff.mp hx with rfl | ⟨p, hp, hpid⟩
    · exact listedPath_top s x _
    · by_cases hxid : x = id
      · rw [hxid, listedPath_top]
      · have hchild : s.children p ≠ [] := List.ne_nil_of_mem ((hs.mem_children p x).mpr hp)
        have hmem := hs.mem_descendants.mpr ⟨hs.contains_of_parent hp, hpid⟩
        rw [hs.listedPath_of_parent hxid hp, ih p hp hpid, hs.extended_address_iff hlabels hp]
        exact Classical.or_iff_not_imp_left.mpr fun hroot => h p hmem hroot hchild

/-- A listing of a subtree shows each node other than the root under its address, in document order,
exactly when no address in it that is extended ends in a slash of its label. -/
theorem subtreeEntries_eq_iff (hs : s.WellFormed)
    (hlabels : ∀ id l, s.label id = some l → l ≠ "") (hid : s.contains id = true) :
    s.subtreeEntries id = ((s.descendants id).filter (· ≠ root)).map s.entry ↔
      ∀ x ∈ s.descendants id, x ≠ root → s.children x ≠ [] → ¬ s.EndsInSlash x := by
  have hpaths : s.subtreeEntries id = ((s.descendants id).filter (· ≠ root)).map s.entry ↔
      ∀ x ∈ s.descendants id, x ≠ root → s.listedPath id (s.address id) x = s.address x := by
    rw [hs.subtreeEntries_eq hid, List.map_inj_left]
    simp [entry, entryAt]
  rw [hpaths]
  constructor
  · intro h x hx hroot hchildren
    obtain ⟨c, hc⟩ := List.exists_mem_of_ne_nil _ hchildren
    have hp := (hs.mem_children x c).mp hc
    have hxid := (hs.mem_descendants.mp hx).2
    have hcid : c ≠ id := by
      rintro rfl
      rw [hs.not_isWithin_child hp] at hxid
      cases hxid
    have hmem : c ∈ s.descendants id := hs.mem_descendants.mpr
      ⟨hs.contains_of_child hc, hs.isWithin_of_isWithin_parent hp hxid⟩
    have hcx := h c hmem (hs.ne_root_of_parent hp)
    rw [hs.listedPath_of_parent hcid hp, h x hx hroot, hs.extended_address_iff hlabels hp] at hcx
    exact hcx.resolve_left hroot
  · intro h x hx _
    exact hs.listedPath_eq_address hlabels hid h (hs.mem_descendants.mp hx).2

/-- Siblings that share a label, one of them with a child. -/
theorem subtreeEntries_eq_iff_siblings :
    let s := new.applyAll [.appendChild root "a", .appendChild root "a", .appendChild ⟨2, 0⟩ "b/"]
    s.subtreeEntries root = ((s.descendants root).filter (· ≠ root)).map s.entry := by
  intro s
  have hs : s.WellFormed := Reachable.wellFormed ⟨_, rfl⟩
  have hlabels : ∀ id l, s.label id = some l → l ≠ "" := forall_label_of_slots (by decide)
  refine (subtreeEntries_eq_iff hs hlabels (by decide)).mpr ?_
  have hslash : ∀ x ∈ s.descendants root, x ≠ root → s.children x ≠ [] →
      (s.shownLabel x).toList.getLast? ≠ some '/' := by decide
  exact fun x hx hroot hchildren hends => hslash x hx hroot hchildren hends.2

/-- The slash that ends the label `a/` is lost from the path of its child, which is listed as
`/a\/b` and has the address `/a\//b`. -/
theorem subtreeEntries_slash :
    let s := new.applyAll [.appendChild root "a/", .appendChild ⟨1, 0⟩ "b"]
    s.WellFormed ∧ (∀ id l, s.label id = some l → l ≠ "") ∧ s.contains root = true ∧
      s.subtreeEntries root ≠ ((s.descendants root).filter (· ≠ root)).map s.entry := by
  intro s
  exact ⟨Reachable.wellFormed ⟨_, rfl⟩, forall_label_of_slots (by decide), by decide, by decide⟩

end LabelTree.Store
