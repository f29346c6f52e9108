import LabelTree.Proofs.Session.Create

/-!
# Session — edits succeed or leave no trace

One lemma per operation: on a session whose nodes are all below the root it settles, that is, what
it leaves on success is such a session again, and a failure leaves the session as it was. Each
operation asks all its questions first; what follows them yields.
-/

namespace LabelTree

open Store (root)

/-! ## Configuration nodes -/

namespace Store

variable {good : String → Prop} {s s' : Store} {id p : NodeId} {l : String}

theorem Rooted.withChild (h : s.Rooted good) (p : NodeId) (hl : good l) (v : Option String) :
    (s.withChild p l v).Rooted good := by
  rw [Store.withChild]
  split
  · exact h
  · rename_i id t ha
    exact Rooted.appendKeeps h hl ha

theorem parent_of_findChild? (hs : s.WellFormed) (h : s.findChild? p l = some id) :
    s.parent id = some p :=
  (hs.mem_children p id).mp (List.mem_of_find?_eq_some h)

theorem Rooted.findOrAppend (h : s.Rooted good) (hl : good l)
    (hf : s.findOrAppend p l = some (id, s')) : s'.Rooted good ∧ id ≠ root := by
  rw [Store.findOrAppend] at hf
  split at hf
  · rename_i found hc
    cases hf
    exact ⟨h, h.wellFormed.ne_root_of_parent (parent_of_findChild? h.wellFormed hc)⟩
  · exact ⟨h.insertChild hl hf, h.insertChild_ne_root hf⟩

end Store

/-! ## Opening -/

namespace Session

variable {good : String → Prop}

theorem rooted_foldl_withChild {s : Store} (hs : s.Rooted good) (p : NodeId) {l : String}
    (hl : good l) (values : List String) :
    (values.foldl (fun s value => s.withChild p l (some value)) s).Rooted good := by
  induction values generalizing s with
  | nil => exact hs
  | cons value values ih => exact ih (hs.withChild p hl (some value))

theorem rooted_configure {s : Store} (hs : s.Rooted good) (hgood : ∀ l, l ≠ "" → good l)
    (node : NodeId) (root : String) (dirs : List String) (flags : Flags) :
    (configure s node root dirs flags).Rooted good := by
  have h₁ := hs.withChild node (hgood "root" (by decide)) (some (rootDirectory root))
  have h₂ := h₁.withChild node (hgood "save" (by decide)) (some (SaveMode.ofFlags flags).name)
  have h₃ := h₂.withChild node (hgood "context" (by decide)) (some ("/" ++ filesLabel))
  have h₄ := h₃.withChild node (hgood "version" (by decide)) (some version)
  unfold configure
  dsimp only
  split
  · exact h₄
  · rename_i loadpath t ht
    have h₅ := h₄.insertChild (hgood "loadpath" (by decide)) ht
    exact rooted_foldl_withChild h₅ loadpath (hgood "path" (by decide)) dirs

theorem rooted_create (hgood : ∀ l, l ≠ "" → good l) (root : String) (loadPath : Option String)
    (flags : Flags) : (create root loadPath flags).store.Rooted good := by
  unfold create
  dsimp only
  generalize (loadPath.map (Text.fields ':')).getD [] = dirs
  generalize ha : Store.new.appendChild Store.root metaLabel = first
  cases first with
  | none => exact (Store.rooted_new good).withChild Store.root (hgood filesLabel (by decide)) none
  | some first =>
    obtain ⟨node, t⟩ := first
    have ht := (Store.rooted_new good).insertChild (hgood metaLabel (by decide)) ha
    have hc := rooted_configure ht hgood node root dirs flags
    exact hc.withChild Store.root (hgood filesLabel (by decide)) none

end Session

namespace Edit

variable {good : String → Prop} {s : Session}

/-! ## Values -/

theorem assign_yields {id : NodeId} (hs : s.store.Rooted good) (hid : id ≠ root)
    (value : Option String) : Yields (assign id value) s fun _ t => t.store.Rooted good :=
  Yields.of_run (run_assign id value s) (Store.getD_keeps hs fun _ => hs.setValue hid)

theorem addSiblings_yields (hs : s.store.Rooted good) (parent : NodeId) {label : String}
    (hl : good label) (prev : NodeId) (values : List (Option String)) :
    Yields (addSiblings parent label prev values) s fun _ t => t.store.Rooted good := by
  induction values generalizing s prev with
  | nil => exact Yields.pure hs
  | cons value rest ih =>
    unfold addSiblings
    refine Yields.step (run_store s) ?_
    dsimp only
    split
    · exact Yields.pure hs
    · rename_i id store hi
      refine Yields.step (run_setStore store s) ?_
      refine Yields.bind (assign_yields (hs.insertChild hl hi) (hs.insertChild_ne_root hi) value) ?_
      intro _ t ht
      exact ih ht id

theorem setMany_settles {arg : PathArg} (hs : s.store.Rooted good) (hgood : ∀ l, l ≠ "" → good l)
    (harg : arg.Names good) (values : List (Option String)) :
    Settles (setMany arg values) s fun _ t => t.store.Rooted good := by
  cases values with
  | nil => exact Settles.throw
  | cons first rest =>
    unfold setMany
    refine Settles.ask_bind fun path hpath => Settles.ask_bind fun location hloc => ?_
    dsimp only
    split
    · exact Settles.throw_bind
    · rename_i hroot
      -- from here on nothing fails
      have hnames := Session.names_of_prepare hgood harg hpath
      refine Yields.settles (Yields.bind (reach_yields hs hnames hloc) fun id t h => ?_)
      have ht : t.store.Rooted good ∧ id ≠ root := by
        cases h with
        | found hc => exact ⟨hs, fun hid => hroot (congrArg Location.found hid)⟩
        | made _ hm => exact ⟨hm.rooted, hm.ne_root hs⟩
      refine Yields.bind (assign_yields ht.1 ht.2 first) fun _ u hu => ?_
      refine Yields.step (run_store u) ?_
      have hend : ∀ v : Session, v.store.Rooted good →
          Yields (do touch id; pure (first :: rest).length) v fun _ t => t.store.Rooted good := by
        intro v hv
        exact Yields.step (run_touch id v) (Yields.pure (by simpa using hv))
      split
      · rename_i parent label hp hl
        have hlabel := hu.good_label id label hl
        exact Yields.bind (addSiblings_yields hu parent hlabel id rest) fun _ v hv => hend v hv
      · exact hend u hu

theorem set_settles {arg : PathArg} (hs : s.store.Rooted good) (hgood : ∀ l, l ≠ "" → good l)
    (harg : arg.Names good) (value : Option String) :
    Settles (set arg value) s fun _ t => t.store.Rooted good :=
  Settles.bind (setMany_settles hs hgood harg [value]) fun _ _ ht => Yields.pure ht

/-! ## Removing -/

theorem removeAll_yields (hs : s.store.Rooted good) (ids : List NodeId) :
    Yields (removeAll ids) s fun _ t => t.store.Rooted good := by
  induction ids generalizing s with
  | nil => exact Yields.pure hs
  | cons id rest ih =>
    unfold removeAll
    refine Yields.step (run_touch id s) (Yields.step (run_store _) ?_)
    refine Yields.step (run_setStore _ _) ?_
    refine Yields.bind (ih ?_) fun _ t ht => Yields.pure ht
    rw [Session.store_touch]
    exact hs.remove id

theorem remove_settles (hs : s.store.Rooted good) (arg : PathArg) :
    Settles (remove arg) s fun _ t => t.store.Rooted good := by
  unfold remove
  refine Settles.ask_bind fun path _ => Settles.step (run_get s) ?_
  dsimp only
  split
  · exact Settles.throw_bind
  · exact (removeAll_yields hs _).settles

/-! ## Moving -/

theorem run_replace (node target : NodeId) (s : Session) :
    (replace node target).run.run s =
      (.ok (), { s.touch node with store := s.store.takePlace node target }.touch node) := by
  unfold replace
  rw [run_bind_ok (run_store s)]
  dsimp only
  rw [run_bind_ok (run_touch node s), run_bind_ok (run_store _), Session.store_touch]
  rfl

theorem replace_yields {node target : NodeId} (hs : s.store.Rooted good) (hn : node ≠ root)
    (hcn : s.store.contains node = true) (ht : target ≠ root)
    (hct : s.store.contains target = true) (hout : s.store.isWithin target node = false) :
    Yields (replace node target) s fun _ t => t.store.Rooted good := by
  refine Yields.of_run (run_replace node target s) ?_
  rw [Session.store_touch]
  exact hs.takePlace hn hcn ht hct hout

theorem move_settles {src dst : PathArg} (hs : s.store.Rooted good)
    (hgood : ∀ l, l ≠ "" → good l) (hdst : dst.Names good) :
    Settles (move src dst) s fun _ t => t.store.Rooted good := by
  unfold move
  refine Settles.ask_bind fun srcPath _ => Settles.ask_bind fun dstPath hpath => ?_
  refine Settles.ask_bind fun node hnode => Settles.ask_bind fun location hloc => ?_
  dsimp only
  split
  · exact Settles.throw_bind
  · rename_i hroots
    rw [not_or] at hroots
    obtain ⟨hnroot, hlroot⟩ := hroots
    refine Settles.step (run_store s) ?_
    split
    · exact Settles.throw_bind
    · rename_i hinto
      rw [Bool.not_eq_true] at hinto
      have hcn := Session.contains_of_resolve_eq hs.wellFormed (Session.resolveSingle_eq_ok hnode)
      -- both checks have passed, so the place can be made and taken
      have hnames := Session.names_of_prepare hgood hdst hpath
      refine Yields.settles (Yields.bind (reach_yields hs hnames hloc) fun target t h => ?_)
      obtain ⟨ht, hcn, htroot, hct, hout⟩ := h.place hs hcn hlroot hinto
      exact replace_yields ht hnroot hcn htroot hct hout

/-! ## Inserting -/

theorem ne_empty_of_isPlainLabel {label : String} (h : isPlainLabel label = true) : label ≠ "" := by
  rintro rfl
  cases h

theorem insert_settles (hs : s.store.Rooted good) (hgood : ∀ l, l ≠ "" → good l) (arg : PathArg)
    (label : String) (before : Bool) :
    Settles (insert arg label before) s fun _ t => t.store.Rooted good := by
  unfold insert
  dsimp only
  split
  · exact Settles.throw_bind
  · rename_i hplain
    have hl : good label := by
      refine hgood label (ne_empty_of_isPlainLabel ?_)
      simpa using hplain
    refine Settles.ask_bind fun path _ => Settles.ask_bind fun sibling _ => ?_
    refine Settles.step (run_store s) ?_
    split
    · split
      · exact (Yields.pure hs).settles
      · rename_i id store hi
        refine Yields.settles (Yields.step (run_setStore store s) ?_)
        refine Yields.of_run (run_touch id _) ?_
        rw [Session.store_touch]
        exact hs.insertChild hl hi
    · exact Settles.throw

/-! ## Saving and loading -/

theorem Rooted.recordSaves {store : Store} (hs : store.Rooted good) (hgood : ∀ l, l ≠ "" → good l)
    (node : NodeId) (saves : Nat) : (recordSaves store node saves).Rooted good := by
  unfold Edit.recordSaves
  split
  · exact hs
  · rename_i events t he
    have ht := (hs.findOrAppend (hgood _ (by decide)) he).1
    split
    · exact ht
    · rename_i saved u hsaved
      obtain ⟨hu, hroot⟩ := ht.findOrAppend (hgood _ (by decide)) hsaved
      exact Store.getD_keeps hu fun _ => hu.setValue hroot

theorem save_settles (hs : s.store.Rooted good) (hgood : ∀ l, l ≠ "" → good l) :
    Settles save s fun _ t => t.store.Rooted good := by
  unfold save
  refine Settles.ask_bind fun mode _ => Yields.settles (Yields.step (run_modify _ s) ?_)
  -- counting a save does not touch the tree
  have hcount : (if s.pending then { s with saves := s.saves + 1 } else s).store = s.store := by
    split <;> rfl
  generalize (if s.pending then { s with saves := s.saves + 1 } else s) = t at hcount ⊢
  rw [← hcount] at hs
  have hend : ∀ v : Session, v.store.Rooted good →
      Yields (do modify fun s => { s with pending := false }; pure mode) v
        fun _ t => t.store.Rooted good := by
    intro v hv
    exact Yields.step (run_modify _ v) (Yields.pure hv)
  refine Yields.step (run_get t) ?_
  dsimp only
  split
  · exact hend t hs
  · rename_i node _
    refine Yields.step (run_setStore _ t) (hend _ ?_)
    exact Rooted.recordSaves hs hgood node t.saves

theorem load_settles {arg : PathArg} (hs : s.store.Rooted good) (hgood : ∀ l, l ≠ "" → good l)
    (harg : arg.Names good) (snapshot : Snapshot) :
    Settles (load arg snapshot) s fun _ t => t.store.Rooted good := by
  unfold load
  split
  · exact Settles.throw
  · rename_i hlabels
    have hl : ∀ l ∈ snapshot.labelsBelow, good l := fun l hl =>
      hgood l (ne_empty_of_isPlainLabel (Snapshot.isPlainLabel_of_firstBadLabel hlabels l hl))
    have hgraft : ∀ (id : NodeId) (t : Session), t.store.Rooted good →
        Yields (do
          let s ← store
          setStore (s.graft id snapshot).2
          touch id
          return (s.graft id snapshot).1) t fun _ u => u.store.Rooted good := by
      intro id t ht
      refine Yields.step (run_store t) (Yields.step (run_setStore _ t) ?_)
      refine Yields.step (run_touch id _) (Yields.pure ?_)
      rw [Session.store_touch]
      exact ht.graft id hl
    refine Settles.ask_bind fun path hpath => Settles.ask_bind fun location hloc => ?_
    have hreach := reach_yields hs (Session.names_of_prepare hgood harg hpath) hloc
    cases location with
    | found id =>
      -- nothing has been made, so the value of the root can still be refused
      refine Settles.step (run_pure id s) ?_
      dsimp only
      split
      · split
        · exact Settles.throw_bind
        · rename_i hid
          refine Yields.settles (Yields.bind (assign_yields hs hid snapshot.value) ?_)
          exact fun _ t ht => hgraft id t ht
      · exact (hgraft id s hs).settles
    | missing anchor i =>
      refine Yields.settles (Yields.bind hreach fun id t h => ?_)
      cases h with
      | made _ hm =>
        have hid := hm.ne_root hs
        dsimp only
        split
        · refine Yields.bind (assign_yields hm.rooted hid snapshot.value) ?_
          exact fun _ u hu => hgraft id u hu
        · exact hgraft id t hm.rooted

end Edit

end LabelTree
