import LabelTree.Proofs.Session.Frame
import LabelTree.Proofs.Session.Prepare
import LabelTree.Proofs.Session.Unmarked

/-!
# Session — what a save shows

A save puts the number of counted saves below the meta node, where a path leads to it: the first
node that `/augeas/events/saved` leads to has it as its value (`shownSaves_saved`).
-/

namespace LabelTree

open Store (root)

/-! ## The path -/

/-- The path that leads to the number of saves. -/
def savedPath : Path :=
  ⟨"/augeas/events/saved", true, ["augeas", "events", "saved"].map fun label =>
    .select (.child (.exact label)) []⟩

theorem compile_savedPath : Path.compile "/augeas/events/saved" = .ok savedPath := by
  with_unfolding_all rfl

namespace Store

variable {s t : Store} {c id m p q : NodeId} {nodes : List NodeId} {l l' : String}

theorem head?_advance (hnodes : nodes.head? = some p) (h : s.findChild? p l = some c) :
    (s.advance nodes (.select (.child (.exact l)) [])).head? = some c := by
  obtain ⟨rest, rfl⟩ := List.head?_eq_some_iff.mp hnodes
  have hfirst : (s.candidates (.select (.child (.exact l)) []) p).head? = some c := by
    show (s.axisNodes (.child (.exact l)) p).head? = some c
    rw [axisNodes_exact, List.head?_filter]
    exact h
  show ((p :: rest).flatMap (s.candidates (.select (.child (.exact l)) []))).head? = some c
  rw [List.flatMap_cons, List.head?_append, hfirst, Option.some_or]

/-- A path of labels leads first along the first children with them. -/
theorem head?_resolve_savedPath {events saved : NodeId} (hm : s.metaTop? = some m)
    (hevents : s.findChild? m "events" = some events)
    (hsaved : s.findChild? events "saved" = some saved) :
    (s.resolve savedPath root).head? = some saved :=
  head?_advance (head?_advance (head?_advance (p := root) rfl hm) hevents) hsaved

/-! ## Making it -/

namespace WellFormed

theorem exists_findOrAppend (hc : s.contains p = true) (l : String) :
    ∃ id t, s.findOrAppend p l = some (id, t) := by
  unfold findOrAppend
  split
  · exact ⟨_, _, rfl⟩
  · exact insertChild_isSome _ _ hc

/-- What was found or made is what is found. -/
theorem findChild?_findOrAppend (hs : s.WellFormed) (h : s.findOrAppend p l = some (id, t)) :
    t.findChild? p l = some id := by
  unfold findOrAppend at h
  split at h
  · rename_i found hfound
    cases h
    exact hfound
  · rename_i hnone
    have hins := hs.freeExact.inserts h
    have hold : ((s.children p).find? fun c => t.label c = some l) = none :=
      (hins.find?_label (fun _ => hs.contains_of_child) l).trans hnone
    rw [findChild?, hins.children_parent, spliced_eq, List.take_length, List.drop_length,
      List.find?_append, hold, Option.none_or, List.find?_cons, hins.label, if_pos rfl]
    simp

/-- Children of other nodes are found as before. -/
theorem findChild?_findOrAppend_of_ne (hs : s.WellFormed) (h : s.findOrAppend p l = some (id, t))
    (hq : s.contains q = true) (hne : q ≠ p) : t.findChild? q l' = s.findChild? q l' := by
  unfold findOrAppend at h
  split at h
  · cases h
    rfl
  · have hins := hs.freeExact.inserts h
    rw [findChild?, findChild?, hins.children, if_neg (hins.ne hq), if_neg hne]
    exact hins.find?_label (fun _ => hs.contains_of_child) l'

/-- The number of saves is shown at the first node that its path leads to. -/
theorem shown_recordSaves (hs : s.WellFormed) (hm : s.metaTop? = some m) (saves : Nat) :
    (((Edit.recordSaves s m saves).resolve savedPath root).head?.bind
      (Edit.recordSaves s m saves).value) = some (toString saves) := by
  have hc := Store.contains_of_parent (hs.of_metaTop hm).1
  obtain ⟨events, t, hevents⟩ := exists_findOrAppend hc "events"
  obtain ⟨hst, ht, hce, hine⟩ := hs.sameOutside_findOrAppend hm (isWithin_self s m) hc hevents
  obtain ⟨saved, u, hsaved⟩ := exists_findOrAppend hce "saved"
  obtain ⟨htu, hu, hcs, hins⟩ := ht.sameOutside_findOrAppend hst.metaTop hine hce hsaved
  obtain ⟨v, hv⟩ : ∃ v, u.setValue saved (some (toString saves)) = some v := by
    simp [Store.setValue, hcs]
  have hset := setsValue hv
  have hstore : Edit.recordSaves s m saves = v := by
    unfold Edit.recordSaves
    simp only [hevents, hsaved, hv, Option.getD_some]
  have hkept : ∀ q l, v.findChild? q l = u.findChild? q l := by
    intro q l
    rw [findChild?, findChild?, hset.shape.children]
    simp only [hset.label]
  have hmv : v.metaTop? = some m := (hkept root metaLabel).trans htu.metaTop
  have hme : v.findChild? m "events" = some events := by
    have hparent := parent_of_findChild? ht (hs.findChild?_findOrAppend hevents)
    have hne : m ≠ events := by
      rintro rfl
      exact ht.parent_ne_self hparent
    rw [hkept, ht.findChild?_findOrAppend_of_ne hsaved (ht.contains_of_parent hparent) hne]
    exact hs.findChild?_findOrAppend hevents
  have hes : v.findChild? events "saved" = some saved := by
    rw [hkept]
    exact ht.findChild?_findOrAppend hsaved
  rw [hstore, head?_resolve_savedPath hmv hme hes, Option.bind_some, hset.value, if_pos rfl]

end WellFormed

end Store

namespace Session

/-- The value at the first node that the path of the number of saves leads to. -/
def shownSaves (s : Session) : Option String :=
  (s.resolve savedPath).head?.bind s.store.value

variable {s : Session}

theorem saves_saved : s.saved.saves = if s.pending then s.saves + 1 else s.saves :=
  rfl

theorem metaNode?_saved (hs : s.store.WellFormed) : s.saved.metaNode? = s.metaNode? := by
  unfold saved
  cases hm : s.metaNode? with
  | none => exact hm
  | some m => exact (hs.sameOutside_recordSaves hm _).metaTop

theorem shownSaves_saved (hs : s.store.WellFormed) {m : NodeId} (hm : s.saved.metaNode? = some m) :
    s.saved.shownSaves = some (toString s.saved.saves) := by
  rw [metaNode?_saved hs] at hm
  have hshown := hs.shown_recordSaves hm s.saved.saves
  have hstore : s.saved.store = Edit.recordSaves s.store m s.saved.saves := by
    unfold saved
    rw [hm]
    rfl
  rw [shownSaves, resolve, hstore]
  exact hshown

end Session

end LabelTree
