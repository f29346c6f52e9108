import LabelTree.Batch
import LabelTree.Proofs.Session.Edits
import LabelTree.Proofs.Session.Read
import LabelTree.Proofs.Snapshot.Copy

/-!
# Session — the subtree that dumps are taken from

A new session has one node labelled `files` below the root, without value and children. A snapshot
whose labels are plain can be loaded there, and then the copy of that node is the snapshot
(`snapshot_load`).
-/

namespace LabelTree

open Store (root)

variable {s t : Session} {id : NodeId} {source : Snapshot}

/-! ## The path -/

/-- The path that leads to the nodes labelled `files` below the root. -/
def filesPath : Path :=
  ⟨"/files", true, [.select (.child (.exact Session.filesLabel)) []]⟩

theorem trim_filesPath : Text.trim "/files" = "/files" := by decide

theorem compile_filesPath : Path.compile "/files" = .ok filesPath := by
  with_unfolding_all rfl

namespace Session

theorem prepare_filesPath (s : Session) : s.prepare Batch.filesPath = .ok filesPath := by
  have hcompile : compileArg Batch.filesPath = .ok filesPath := by
    rw [Batch.filesPath, compileArg, trim_filesPath, compile_filesPath]
    rfl
  rw [prepare, hcompile]
  rfl

theorem prepareExisting_filesPath (s : Session) :
    s.prepareExisting Batch.filesPath = .ok filesPath :=
  prepareExisting_text (by rw [trim_filesPath, compile_filesPath]) rfl rfl

theorem resolve_filesPath (s : Session) :
    s.resolve filesPath =
      (s.store.children root).filter fun c => s.store.label c = some filesLabel := by
  rw [← Store.axisNodes_exact]
  simp [resolve, Store.resolve, filesPath, Store.advance, Store.candidates, Store.start]

theorem locate_filesPath (h : s.resolve filesPath = [id]) :
    s.locate filesPath = .ok (.found id) := by
  have hadvance : s.store.advance [root] (.select (.child (.exact filesLabel)) []) = [id] := h
  have hlocate : s.store.locate filesPath root = .ok (.found id) := by
    rw [Store.locate]
    show s.store.locateFrom [root] 0 [.select (.child (.exact filesLabel)) []] = _
    rw [Store.locateFrom, hadvance]
    rfl
  rw [locate, hlocate]
  rfl

/-- The node that the path leads to is a child of the root. -/
theorem of_resolve_filesPath (hs : s.store.WellFormed) (h : s.resolve filesPath = [id]) :
    s.store.parent id = some root ∧ s.store.label id = some filesLabel := by
  have hmem : id ∈ s.resolve filesPath := by simp [h]
  rw [resolve_filesPath, List.mem_filter, decide_eq_true_eq] at hmem
  exact ⟨(hs.mem_children root id).mp hmem.1, hmem.2⟩

/-- What a dump is taken of: the one node that the path leads to, unless it is too deep. -/
theorem snapshot_filesPath_eq_ok_iff :
    s.snapshot Batch.filesPath = .ok source ↔ ∃ id, s.resolve filesPath = [id] ∧
      s.store.subtreeDepth id ≤ Snapshot.maxDepth ∧ s.store.snapshot id = source := by
  rw [snapshot_eq_ok_iff]
  constructor
  · rintro ⟨path, id, hp, h⟩
    cases (prepareExisting_filesPath s).symm.trans hp
    exact ⟨id, h⟩
  · rintro ⟨id, h⟩
    exact ⟨filesPath, id, prepareExisting_filesPath s, h⟩

end Session

/-! ## Opening -/

namespace Store

variable {s : Store} {p : NodeId} {touched : NodeId → Prop}

/-- Nodes below a new node do not matter to the nodes that were there. -/
theorem Extends.withChild {t : Store} (h : s.Extends touched t)
    (hp : s.contains p = true → touched p) (l : String) (v : Option String) :
    s.Extends touched (t.withChild p l v) := by
  rw [Store.withChild]
  split
  · exact h
  · rename_i id u ha
    have hinsert := h.trans (h.wellFormed.extends_insertChild ha) (by rintro j hj rfl; exact hp hj)
    have hfresh := h.fresh (h.wellFormed.freeExact.inserts ha).fresh
    cases hv : u.setValue id v with
    | none => exact hinsert
    | some w => exact hinsert.setValue hfresh hv

theorem Extends.foldl_withChild {t : Store} (h : s.Extends touched t)
    (hp : s.contains p = true → touched p) (l : String) (values : List String) :
    s.Extends touched (values.foldl (fun s value => s.withChild p l (some value)) t) := by
  induction values generalizing t with
  | nil => exact h
  | cons value values ih => exact ih (h.withChild hp l (some value))

end Store

namespace Session

theorem extends_configure {s : Store} (hs : s.WellFormed) (node : NodeId) (root : String)
    (dirs : List String) (flags : Flags) :
    s.Extends (· = node) (configure s node root dirs flags) := by
  have h₀ := Store.Extends.refl hs (· = node)
  have h₁ := h₀.withChild (p := node) (fun _ => rfl) "root" (some (rootDirectory root))
  have h₂ := h₁.withChild (p := node) (fun _ => rfl) "save" (some (SaveMode.ofFlags flags).name)
  have h₃ := h₂.withChild (p := node) (fun _ => rfl) "context" (some ("/" ++ filesLabel))
  have h₄ := h₃.withChild (p := node) (fun _ => rfl) "version" (some version)
  unfold configure
  dsimp only
  split
  · exact h₄
  · rename_i loadpath t ht
    have h₅ := h₄.trans (h₄.wellFormed.extends_insertChild ht) fun _ _ hj => hj
    -- the node of the load path is new, so what is made below it does not count
    have hnew := h₄.fresh (h₄.wellFormed.freeExact.inserts ht).fresh
    exact h₅.foldl_withChild (fun hold => absurd rfl (Store.ne_of_contains hold hnew)) "path" dirs

/-- Before the node for files is made, the meta node is alone below the root. -/
theorem exists_store_create (root : String) (loadPath : Option String) (flags : Flags) :
    ∃ s : Store, s.WellFormed ∧
      (∃ node, s.children Store.root = [node] ∧ s.label node = some metaLabel) ∧
      (create root loadPath flags).store = s.withChild Store.root filesLabel none := by
  obtain ⟨node, first, hfirst, hchildren, hlabel⟩ : ∃ node first,
      Store.new.appendChild Store.root metaLabel = some (node, first) ∧
        first.children Store.root = [node] ∧ first.label node = some metaLabel :=
    ⟨_, _, rfl, rfl, rfl⟩
  have hwf : first.WellFormed := Store.wellFormed_new.insertChild hfirst
  have hnode : node ∈ first.children Store.root := by simp [hchildren]
  have hne : Store.root ≠ node := by
    rintro rfl
    exact hwf.parent_ne_self ((hwf.mem_children _ _).mp hnode)
  have hextends := extends_configure hwf node root ((loadPath.map (Text.fields ':')).getD []) flags
  refine ⟨_, hextends.wellFormed, ⟨node, ?_, ?_⟩, by rw [create, hfirst]⟩
  · rw [hextends.children _ hwf.contains_root hne, hchildren]
  · rw [hextends.label node (hwf.contains_of_child hnode), hlabel]

/-- A new session has one node for files, which has neither value nor children. -/
theorem exists_files_create (root : String) (loadPath : Option String) (flags : Flags) :
    ∃ id, (create root loadPath flags).resolve filesPath = [id] ∧
      (create root loadPath flags).store.value id = none ∧
      (create root loadPath flags).store.children id = [] := by
  obtain ⟨s, hs, ⟨node, hchildren, hlabel⟩, hstore⟩ := exists_store_create root loadPath flags
  obtain ⟨id, t, ha, htops⟩ := hs.appendChild_top hs.contains_root ⟨filesLabel, none, []⟩
  have hlast : (create root loadPath flags).store = (t.setValue id none).getD t := by
    rw [hstore, Store.withChild, ha]
  rw [← hlast] at htops
  generalize create root loadPath flags = session at htops ⊢
  have htop : session.store.IsTop id ⟨filesLabel, none, []⟩ := by
    cases htops.tops with
    | cons htop _ => exact htop
  have hmeta : session.store.label node = some metaLabel := by
    have hnode : node ∈ s.children Store.root := by simp [hchildren]
    rw [htops.extends_p.label node (hs.contains_of_child hnode), hlabel]
  have hnodes : session.store.children Store.root = [node, id] := by
    rw [htops.children, hchildren]
    rfl
  refine ⟨id, ?_, htop.value, htop.children⟩
  rw [resolve_filesPath, hnodes]
  simp [hmeta, htop.label, metaLabel, filesLabel]

end Session

/-! ## Loading -/

namespace Edit

/-- The store in which a snapshot is grafted: the target has the value of the top when there is
one. -/
def valued (s : Store) (id : NodeId) (source : Snapshot) : Store :=
  if source.value.isSome then (s.setValue id source.value).getD s else s

theorem valued_keeps {P : Store → Prop} {store : Store} (hs : P store)
    (h : ∀ t, store.setValue id source.value = some t → P t) : P (valued store id source) := by
  rw [valued]
  split
  · exact Store.getD_keeps hs h
  · exact hs

/-- A target without value has the value of the top then, and nothing else changes. -/
theorem setsValue_valued {store : Store} (hid : store.contains id = true)
    (hvalue : store.value id = none) :
    store.SetsValue id source.value (valued store id source) := by
  rw [valued]
  split
  · obtain ⟨t, ht⟩ : ∃ t, store.setValue id source.value = some t := by
      simp [Store.setValue, hid]
    rw [ht, Option.getD_some]
    exact Store.setsValue ht
  · rename_i hnone
    refine ⟨⟨fun _ => rfl, fun _ => rfl, fun _ => rfl⟩, fun _ => rfl, fun j => ?_⟩
    rw [Option.not_isSome_iff_eq_none.mp hnone]
    split
    · rename_i hj
      rw [hj, hvalue]
    · rfl

theorem run_load {arg : PathArg} {path : Path} (hlabels : source.firstBadLabel = none)
    (hpath : s.prepare arg = .ok path) (hloc : s.locate path = .ok (.found id)) (hid : id ≠ root) :
    (load arg source).run.run s =
      (.ok ((valued s.store id source).graft id source).1,
        { s with store := ((valued s.store id source).graft id source).2 }.touch id) := by
  rw [load, hlabels]
  dsimp only
  rw [run_bind_ok (run_ask_of_ok hpath), run_bind_ok (run_ask_of_ok hloc)]
  unfold valued
  dsimp only [reach]
  rw [run_bind_ok (run_pure id s)]
  split
  · rw [run_bind_ok (run_assign id source.value s)]
    rfl
  · rfl

theorem run_load_bad {arg : PathArg} {label : String} (h : source.firstBadLabel = some label) :
    (load arg source).run.run s = (.error (.badArgument (.snapshotLabel label)), s) := by
  rw [load, h]
  rfl

end Edit

namespace Session

/-- What is loaded into a node for files that has neither value nor children is its copy. -/
theorem snapshot_load (hs : s.store.WellFormed) (hfiles : s.resolve filesPath = [id])
    (hvalue : s.store.value id = none) (hchildren : s.store.children id = [])
    (hlabel : source.label = filesLabel) (hdepth : source.depth ≤ Snapshot.maxDepth)
    (ht : t.store = ((Edit.valued s.store id source).graft id source).2) :
    t.snapshot Batch.filesPath = .ok source := by
  obtain ⟨hparent, hfilesLabel⟩ := of_resolve_filesPath hs hfiles
  have hid : s.store.contains id = true := Store.contains_of_parent hparent
  have hne : root ≠ id := (hs.ne_root_of_parent hparent).symm
  have hwf : (Edit.valued s.store id source).WellFormed :=
    Edit.valued_keeps hs fun _ => hs.setValue
  have hset : s.store.SetsValue id source.value (Edit.valued s.store id source) :=
    Edit.setsValue_valued hid hvalue
  generalize Edit.valued s.store id source = u at hwf hset ht
  have hidu : u.contains id = true := (hset.shape.contains id).trans hid
  obtain ⟨ids, hgraft⟩ := Store.WellFormed.grafts source hwf hidu
  rw [← ht] at hgraft
  have hcopy : t.store.snapshot id = source := by
    rw [hgraft.snapshot_eq hwf hidu, hwf.snapshot_eq, hset.shape.children, hchildren, hset.value,
      if_pos rfl, Store.shownLabel, hset.label, hfilesLabel]
    obtain ⟨label, value, children⟩ := source
    cases hlabel
    rfl
  refine snapshot_filesPath_eq_ok_iff.mpr ⟨id, ?_, ?_, hcopy⟩
  · rw [← hfiles, resolve_filesPath, resolve_filesPath,
      hgraft.extends_p.children root hwf.contains_root hne, hset.shape.children]
    refine List.filter_congr fun c hc => ?_
    have hcu : u.contains c = true := (hset.shape.contains c).trans (hs.contains_of_child hc)
    rw [hgraft.extends_p.label c hcu, hset.label]
  · have hidt := hgraft.extends_p.contains id hidu
    rw [hgraft.extends_p.wellFormed.subtreeDepth_eq_depth hidt, hcopy]
    exact hdepth

end Session

end LabelTree
