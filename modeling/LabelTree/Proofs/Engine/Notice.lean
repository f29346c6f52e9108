import LabelTree.Proofs.Engine.Effects
import LabelTree.Proofs.Session.Overlooked

/-!
# Engine — which changes outside the meta subtree are marked

An operation marks a change at the nodes that it made or changed, unless they are in the meta
subtree at that moment. That overlooks some changes outside it, all of them made at the top of the
meta subtree: further siblings of it, and the cases where another node with the meta label becomes
the top (`Session.Overlooks`). All others are marked (`Session.Edited.noticed`), and of these none
is (`Session.Edited.overlooked`).
-/

namespace LabelTree

open Store (root)

namespace Session

/-- That an operation changes the tree outside the meta subtree and marks no change. -/
inductive Overlooks (s : Session) : Operation → Prop
  /-- Several values are given to the top of the meta subtree: its siblings are outside. -/
  | siblings {operation : Operation} {arg : PathArg} {first second : Option String}
    {rest : List (Option String)} {path : Path} {m : NodeId}
    (hassigned : operation.assigned? = some (arg, first :: second :: rest))
    (hpath : s.prepare arg = .ok path) (hlocation : s.locate path = .ok (.found m))
    (hm : s.metaNode? = some m) : Overlooks s operation
  /-- The same when the top is made for the first of the values. -/
  | newSiblings {operation : Operation} {arg : PathArg} {first second : Option String}
    {rest : List (Option String)} {path : Path} {i : Nat}
    (hassigned : operation.assigned? = some (arg, first :: second :: rest))
    (hpath : s.prepare arg = .ok path) (hlocation : s.locate path = .ok (.missing root i))
    (hlabels : (path.steps.drop i).map Step.newLabel? = [some metaLabel])
    (hm : s.metaNode? = none) : Overlooks s operation
  /-- The first nodes with the meta label go, each of them the top when it goes, or all of
  several. -/
  | removed {arg : PathArg} {path : Path} {more : List NodeId}
    (hpath : s.prepareExisting arg = .ok path) (hsome : s.resolve path ≠ [])
    (htops : s.store.metaTops = s.resolve path ++ more) (htwo : 2 ≤ s.store.metaTops.length) :
    Overlooks s (.remove arg)
  /-- The top moves into the subtree of the next node with the label, which is the meta subtree
  then. -/
  | moved {src dst : PathArg} {srcPath dstPath : Path} {m next target : NodeId} {more : List NodeId}
    (hsrc : s.prepareExisting src = .ok srcPath) (hdst : s.prepare dst = .ok dstPath)
    (hnode : s.resolve srcPath = [m]) (htops : s.store.metaTops = m :: next :: more)
    (hlocation : s.locate dstPath = .ok (.found target))
    (htarget : s.store.isWithin target next = true) : Overlooks s (.move src dst)
  /-- A node with the meta label is inserted before the top and is the top then. -/
  | inserted {arg : PathArg} {before : Bool} {path : Path} {sibling m : NodeId} {i k : Nat}
    (hpath : s.prepareExisting arg = .ok path) (hsibling : s.resolve path = [sibling])
    (hparent : s.store.parent sibling = some root) (hindex : s.store.indexInParent sibling = some i)
    (hm : s.metaNode? = some m) (hk : s.store.indexInParent m = some k)
    (hfirst : (if before then i else i + 1) ≤ k) : Overlooks s (.insert arg metaLabel before)

variable {s t : Session} {operation : Operation}

theorem Edited.of_assigned {arg : PathArg} {first : Option String} {rest : List (Option String)}
    (h : s.Edited operation t) (hassigned : operation.assigned? = some (arg, first :: rest)) :
    ∃ path location id u, s.prepare arg = .ok path ∧ s.locate path = .ok location ∧
      s.Reaches path location id u ∧
      t = { u with store := u.store.withValues id first rest }.touch id := by
  cases h with
  | asked hasks =>
    cases operation with
    | set | setMany | clear => cases hasks
    | _ => cases hassigned
  | assigned hassigned' hpath hlocation hroot hreach =>
    cases hassigned.symm.trans hassigned'
    exact ⟨_, _, _, _, hpath, hlocation, hreach, rfl⟩
  | _ => cases hassigned

/-- A change outside the meta subtree is marked, unless it is one of those that are overlooked. -/
theorem Edited.noticed (h : s.Edited operation t) (hs : s.store.Rooted fun _ => True)
    (hchanged : t.store.outside ≠ s.store.outside) (hseen : ¬ s.Overlooks operation) :
    t.pending = true := by
  rw [← Bool.not_eq_false]
  intro hpending
  refine hchanged ?_
  cases h with
  | asked => rfl
  | @assigned _ arg first rest path location id u hassigned hpath hlocation hroot hreach =>
    obtain ⟨-, hin⟩ := pending_touch_eq_false_iff.mp hpending
    rw [store_touch]
    refine (outside_withValues hreach hs hlocation hin).resolve_right ?_
    rintro ⟨hm, hrest⟩
    obtain ⟨second, rest, rfl⟩ := List.exists_cons_of_ne_nil hrest
    rcases hreach.top hs hlocation hm with ⟨rfl, rfl⟩ | ⟨i, rfl, hlabels, hnone⟩
    · exact hseen (.siblings hassigned hpath hlocation hm)
    · exact hseen (.newSiblings hassigned hpath hlocation hlabels hnone)
  | removed hpath hroot =>
    refine (outside_remove hs.wellFormed hroot hpending).resolve_right ?_
    rintro ⟨more, htops, hsome, htwo⟩
    exact hseen (.removed hpath hsome htops htwo)
  | @moved src dst srcPath dstPath node target location u hsrc hdst hnode hlocation hroot hlroot
      hinto hreach =>
    have hcontains := contains_of_resolve_eq hs.wellFormed hnode
    obtain ⟨hbefore, hafter⟩ := pending_touch_eq_false_iff.mp hpending
    obtain ⟨hu, hbefore⟩ := pending_touch_eq_false_iff.mp hbefore
    have hafter' :
        ({ u with store := u.store.takePlace node target } : Session).inMeta node = true :=
      hafter
    rw [store_touch]
    refine (outside_move hreach hs hlocation hcontains hroot hlroot hinto hu hbefore
      hafter').resolve_right ?_
    rintro ⟨rfl, next, more, htops, hnext⟩
    exact hseen (.moved hsrc hdst hnode htops hlocation hnext)
  | inserted hpath hsibling hparent hindex hinsert =>
    obtain ⟨-, hin⟩ := pending_touch_eq_false_iff.mp hpending
    rw [store_touch]
    refine (outside_insert hs.wellFormed hinsert hin).resolve_right ?_
    rintro ⟨rfl, rfl, m, k, hm, hk, hle⟩
    exact hseen (.inserted hpath hsibling hparent hindex hm hk hle)
  | saved => exact outside_saved hs.wellFormed
  | loaded hpath hlocation hreach hroot =>
    obtain ⟨-, hin⟩ := pending_touch_eq_false_iff.mp hpending
    rw [store_touch]
    exact outside_load hreach hs hlocation hin

/-- Assigning several values at the top leaves no mark and makes nodes outside. -/
theorem overlooked_of_top {u : Session} {id : NodeId} {first second : Option String}
    {rest : List (Option String)} (hu : u.store.WellFormed) (hm : u.store.metaTop? = some id) :
    let w : Session := { u with store := u.store.withValues id first (second :: rest) }.touch id
    w.store.otherTops.length ≠ u.store.otherTops.length ∧ w.pending = u.pending := by
  intro w
  obtain ⟨htop, hlength⟩ :
      (u.store.withValues id first (second :: rest)).metaTop? = some id ∧
        (u.store.withValues id first (second :: rest)).otherTops.length =
          u.store.otherTops.length + (second :: rest).length :=
    hu.withValues_top hm
  have hin :
      ({ u with store := u.store.withValues id first (second :: rest) } : Session).inMeta id =
        true :=
    inMeta_iff.mpr ⟨id, htop, Store.isWithin_self _ id⟩
  have hw : w = { u with store := u.store.withValues id first (second :: rest) } :=
    touch_of_inMeta hin
  rw [hw]
  refine ⟨?_, rfl⟩
  dsimp only
  rw [hlength, List.length_cons]
  omega

/-- Moving the top to the next node with the label leaves no mark, and that node is outside no
more. -/
theorem moved_top {m next target p : NodeId} {more : List NodeId} (hs : s.store.WellFormed)
    (htops : s.store.metaTops = m :: next :: more) (hp : s.store.parent target = some p)
    (hout : s.store.isWithin target m = false) (hnext : s.store.isWithin target next = true) :
    let w : Session := { s.touch m with store := s.store.takePlace m target }.touch m
    w.store.WellFormed ∧ w.store.otherTops.length ≠ s.store.otherTops.length ∧
      w.pending = s.pending := by
  have hm := Store.metaTop_of_eq_cons htops
  obtain ⟨hparent, -⟩ := hs.of_metaTop hm
  obtain ⟨he, ht⟩ :=
    hs.takesPlace (hs.ne_root_of_parent hparent) (Store.contains_of_parent hparent) hp hout
  obtain ⟨⟨top, htop, hin⟩, hlength⟩ := he.outside_of_next hs ht hp hout htops hnext
  have hbefore : s.touch m = s :=
    touch_of_inMeta (inMeta_iff.mpr ⟨m, hm, Store.isWithin_self s.store m⟩)
  have hafter : ({ s with store := s.store.takePlace m target } : Session).inMeta m = true :=
    inMeta_iff.mpr ⟨top, htop, hin⟩
  intro w
  have hw : w = { s with store := s.store.takePlace m target } := by
    show ({ s.touch m with store := s.store.takePlace m target } : Session).touch m = _
    rw [hbefore, touch_of_inMeta hafter]
  rw [hw]
  refine ⟨ht, ?_, rfl⟩
  dsimp only
  omega

/-- Inserting a node before the top leaves no mark, and what was the top is outside. -/
theorem inserted_top {id m : NodeId} {i k : Nat} {store : Store} (hs : s.store.WellFormed)
    (hinsert : s.store.insertChild root i metaLabel = some (id, store))
    (hm : s.store.metaTop? = some m) (hk : s.store.indexInParent m = some k) (hle : i ≤ k) :
    let w : Session := { s with store }.touch id
    w.store.otherTops.length ≠ s.store.otherTops.length ∧ w.pending = s.pending := by
  have htop := hs.metaTop_insertChild hinsert hm hk hle
  have hlength := hs.length_otherTops_insertChild hinsert
  rw [htop, hm] at hlength
  have hin : ({ s with store } : Session).inMeta id = true :=
    inMeta_iff.mpr ⟨id, htop, Store.isWithin_self store id⟩
  intro w
  have hw : w = { s with store } := touch_of_inMeta hin
  rw [hw]
  refine ⟨?_, rfl⟩
  dsimp only
  simp only [Option.toList_some, List.length_singleton] at hlength
  omega

/-- What is overlooked is a change outside, and leaves no mark. -/
theorem Edited.overlooked (h : s.Edited operation t) (hs : s.store.Rooted fun _ => True)
    (ho : s.Overlooks operation) :
    t.store.outside ≠ s.store.outside ∧ t.pending = s.pending := by
  cases ho with
  | siblings hassigned hpath hlocation hm =>
    obtain ⟨path', location, id, u, hpath', hlocation', hreach, rfl⟩ := h.of_assigned hassigned
    cases hpath.symm.trans hpath'
    cases hlocation.symm.trans hlocation'
    cases hreach
    obtain ⟨hlength, hpending⟩ := overlooked_of_top hs.wellFormed hm
    refine ⟨hs.wellFormed.outside_ne_of_length ?_ hlength, hpending⟩
    rw [store_touch]
    exact hs.wellFormed.withValues _ _ _
  | newSiblings hassigned hpath hlocation hlabels hm =>
    obtain ⟨path', location, id, u, hpath', hlocation', hreach, rfl⟩ := h.of_assigned hassigned
    cases hpath.symm.trans hpath'
    cases hlocation.symm.trans hlocation'
    obtain ⟨hu, -⟩ := hreach.contains hs hlocation
    obtain ⟨htop, hsame, hcount⟩ := hreach.newTop hs.wellFormed hlabels hm
    obtain ⟨hlength, hpending⟩ := overlooked_of_top hu htop
    rw [hcount] at hlength
    refine ⟨hs.wellFormed.outside_ne_of_length ?_ hlength, hpending.trans hsame⟩
    rw [store_touch]
    exact hu.withValues _ _ _
  | @removed arg path more hpath hsome htops htwo =>
    cases h with
    | asked hasks => cases hasks
    | assigned hassigned => cases hassigned
    | removed hpath' hroot =>
      cases hpath.symm.trans hpath'
      obtain ⟨hpending, ht, hlength⟩ := removed_tops hs.wellFormed hsome htops htwo
      exact ⟨hs.wellFormed.outside_ne_of_length ht hlength, hpending⟩
  | @moved src dst srcPath dstPath m next target more hsrc hdst hnode htops hlocation htarget =>
    cases h with
    | asked hasks => cases hasks
    | assigned hassigned => cases hassigned
    | moved hsrc' hdst' hnode' hlocation' hroot hlroot hinto hreach =>
      cases hsrc.symm.trans hsrc'
      cases hdst.symm.trans hdst'
      cases hnode.symm.trans hnode'
      cases hlocation.symm.trans hlocation'
      cases hreach
      have htroot : target ≠ root := fun heq => hlroot (congrArg Location.found heq)
      have hcontains :=
        hs.wellFormed.contains_of_locate_found hs.wellFormed.contains_root (locate_eq_ok hlocation)
      obtain ⟨p, hp⟩ := hs.exists_parent htroot hcontains
      obtain ⟨ht, hlength, hpending⟩ := moved_top hs.wellFormed htops hp hinto htarget
      exact ⟨hs.wellFormed.outside_ne_of_length ht hlength, hpending⟩
  | @inserted arg before path sibling m i k hpath hsibling hparent hindex hm hk hfirst =>
    cases h with
    | asked hasks => cases hasks
    | assigned hassigned => cases hassigned
    | @inserted _ _ _ _ _ p id i store hpath' hsibling' hparent' hindex' hinsert =>
      cases hpath.symm.trans hpath'
      cases hsibling.symm.trans hsibling'
      cases hparent.symm.trans hparent'
      cases hindex.symm.trans hindex'
      obtain ⟨hlength, hpending⟩ := inserted_top hs.wellFormed hinsert hm hk hfirst
      refine ⟨hs.wellFormed.outside_ne_of_length ?_ hlength, hpending⟩
      rw [store_touch]
      exact hs.wellFormed.insertChild hinsert

end Session

end LabelTree
