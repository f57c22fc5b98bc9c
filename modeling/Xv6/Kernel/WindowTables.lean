import Xv6.Kernel.FirstFit
import Xv6.Wmap.Histories

/-! # Tables with all mappings in their area

The invariant behind the placement of mappings: every live mapping starts on a page of
the area for mappings and has no more pages than the area, and the node made last is one
that the search can start from.
-/
namespace Xv6.Kernel
open Wmap Program Relation Gaps
variable {t t' : Table} {a : Word} {p : Ptr} {e : Entry}

structure Regular (e : Entry) : Prop where
  start : ValidKey e.startAddress
  positive : 0 < e.extent.toNat
  bounded : e.extent.toNat ≤ 0x20000000

theorem Regular.paged (h : Regular e) : Paged e := by
  have h1 := h.start.aligned
  have h2 := h.start.high
  have h3 := h.bounded
  refine ⟨h1,h.positive,?_⟩
  unfold Entry.limit
  omega

structure Harmless (e : Entry) : Prop where
  start : e.startAddress = EMPTY ∨ e.startAddress = 0 ∨ ValidKey e.startAddress
  bounded : e.extent.toNat ≤ 0x20000000

theorem Regular.harmless (h : Regular e) : Harmless e := ⟨.inr (.inr h.start),h.bounded⟩

/-- A table whose mappings start in the window and are not longer than it. -/
structure Tame (t : Table) : Prop where
  wf : WF t
  init : t.hashInit ≠ -1
  live : ∀ e ∈ t.entries, Regular e
  recent : ∀ p, t.mostRecent = some p → Harmless (t.entry p)
  unused : t.mostRecent = none → t.entries = []

structure Unused (t : Table) : Prop where
  wf : WF t
  init : t.hashInit = -1
  start : ∀ p, (t.deref p).startAddress = 0 ∨ (t.deref p).startAddress = EMPTY
  numPages : ∀ p, (t.deref p).numPages = 0

section Tame

theorem Tame.ranged (h : Tame t) : Ranged t := ⟨h.wf,fun e he => (h.live e he).paged⟩

theorem retouched_mem (h : Retouched t t') {f : Entry} (hf : f ∈ t'.entries) :
    ∃ e ∈ t.entries, f.startAddress = e.startAddress ∧ f.numPages = e.numPages := by
  rw [entries_eq,h.allNodes] at hf
  obtain ⟨p,hp,rfl⟩ := List.mem_map.mp hf
  refine ⟨t.entry p,?_,h.start p,h.numPages p⟩
  rw [entries_eq]
  exact List.mem_map_of_mem hp

theorem Regular.congr {f : Entry} (h : Regular e) (hs : f.startAddress = e.startAddress)
    (hn : f.numPages = e.numPages) : Regular f := by
  obtain ⟨h1,h2,h3⟩ := h
  unfold Entry.extent at h2 h3
  refine ⟨hs ▸ h1,?_,?_⟩
  all_goals
    unfold Entry.extent
    rw [hn]
    assumption

theorem Tame.retouch (h : Tame t) (hre : Retouched t t') : Tame t' := by
  refine ⟨hre.wf h.wf,hre.hashInit ▸ h.init,?_,?_,?_⟩
  · intro f hf
    obtain ⟨e,he,hs,hn⟩ := retouched_mem hre hf
    exact (h.live e he).congr hs hn
  · intro p hp
    obtain ⟨h1,h2⟩ := h.recent p (hre.mostRecent ▸ hp)
    have hs : (t'.entry p).startAddress = (t.entry p).startAddress := hre.start p
    refine ⟨hs ▸ h1,?_⟩
    rw [hre.extent p]
    exact h2
  · intro hnone
    have hnil := h.unused (hre.mostRecent ▸ hnone)
    rw [entries_eq,List.map_eq_nil_iff] at hnil ⊢
    rw [hre.allNodes,hnil]

theorem Tame.insert (h : Tame t) {len np fd fl : Word} (hreg : Regular ⟨a,np,len,fd,fl,0⟩)
    (hins : hashInsert t a len np fd fl = .ok t') : Tame t' := by
  obtain ⟨i,-,hwf,-,-,hinit,q,hq,hentry⟩ := hashInsert_ok h.wf hins
  have hperm := hashInsert_entries h.wf hins
  refine ⟨hwf,hinit ▸ h.init,?_,?_,?_⟩
  · intro e he
    rcases List.mem_cons.mp (hperm.mem_iff.mp he) with rfl | he
    · exact hreg
    · exact h.live e he
  · intro p hp
    rw [hq,Option.some.injEq] at hp
    rw [← hp,Table.entry,hentry]
    exact hreg.harmless
  · intro hnone
    rw [hq] at hnone
    cases hnone

theorem unlink_start {fuel : ℕ} {prev : Ptr} {o : Option PoolIdx} {r : ℤ}
    (h : unlink t a fuel prev o = .ok (r,t')) (q : Ptr) :
    (t'.deref q).startAddress = (t.deref q).startAddress ∨ (t'.deref q).startAddress = EMPTY := by
  fun_induction unlink t a fuel prev o with
  | case1 =>
    cases h
    exact .inl rfl
  | case2 => cases h
  | case3 fuel prev j =>
    cases h
    change ((Table.setNode _ (.pool j) _).deref q).startAddress = _ ∨
      ((Table.setNode _ (.pool j) _).deref q).startAddress = _
    rw [deref_setNode,deref_setNode]
    by_cases hq : q = .pool j
    · exact .inr (by rw [if_pos hq])
    · rw [if_neg hq]
      by_cases hprev : q = prev
      · rw [if_pos hprev,hprev]
        exact .inl rfl
      · rw [if_neg hprev]
        exact .inl rfl
  | case4 fuel prev j hne ih => exact ih h

theorem removeValue_start (hw : WF t) {r : ℤ} (h : removeValue t a = .ok (r,t')) (q : Ptr) :
    (t'.deref q).startAddress = (t.deref q).startAddress ∨ (t'.deref q).startAddress = EMPTY ∨
      ∃ e ∈ t.entries, (t'.deref q).startAddress = e.startAddress := by
  obtain ⟨i,hi,h⟩ := bind_ok h
  dsimp only at h
  split at h
  · rename_i hstart
    have hlive : (t.table i).startAddress ≠ EMPTY := fun he => ne_empty_of_slotOf hi (hstart.symm.trans he)
    split at h
    · rename_i j hj
      cases h
      change ((Table.setNode _ (.slot i) _).deref q).startAddress = _ ∨
        ((Table.setNode _ (.slot i) _).deref q).startAddress = _ ∨
        ∃ e ∈ t.entries, ((Table.setNode _ (.slot i) _).deref q).startAddress = _
      rw [deref_setNode]
      by_cases hq : q = .slot i
      · rw [if_pos hq]
        exact .inr (.inr ⟨t.entry (.pool j),entry_mem (hw.next_mem (slot_mem_nodes hlive) hj),rfl⟩)
      · rw [if_neg hq]
        exact .inl rfl
    · cases h
      change ((Table.setNode _ (.slot i) _).deref q).startAddress = _ ∨
        ((Table.setNode _ (.slot i) _).deref q).startAddress = _ ∨ _
      rw [deref_setNode]
      by_cases hq : q = .slot i
      · rw [if_pos hq]
        exact .inr (.inl rfl)
      · rw [if_neg hq]
        exact .inl rfl
  · rcases unlink_start h q with h | h
    · exact .inl h
    · exact .inr (.inl h)

theorem removeValue_removed (hw : WF t) {r : ℤ} (h : removeValue t a = .ok (r,t')) :
    ∃ i, slotOf a = .ok i ∧ Removed t t' a i r := by
  obtain ⟨i,hi,-⟩ := bind_ok h
  obtain ⟨r',u,hu,hspec⟩ := removeValue_spec hw hi
  rw [hu] at h
  cases h
  exact ⟨i,hi,hspec⟩

theorem removed_numPages {i : Slot} {r : ℤ} (h : Removed t t' a i r) (q : Ptr) :
    (t'.deref q).numPages = (t.deref q).numPages := by
  have := congrArg Entry.numPages (h.payload q)
  exact this

theorem Tame.remove (h : Tame t) {r : ℤ} (hrem : removeValue t a = .ok (r,t')) : Tame t' := by
  obtain ⟨i,hi,hspec⟩ := removeValue_removed h.wf hrem
  have hent := removed_entries hspec
  refine ⟨hspec.wf,hspec.hashInit ▸ h.init,?_,?_,?_⟩
  · intro f hf
    rcases hent with ⟨gone,hperm⟩ | ⟨e,x,l,rest,-,-,hperm,hperm'⟩
    · exact h.live f (hperm.mem_iff.mpr (List.mem_append_left _ hf))
    · rcases List.mem_cons.mp (hperm'.mem_iff.mp hf) with rfl | hf
      · have he := h.live e (hperm.mem_iff.mpr List.mem_cons_self)
        have hx := h.live x (hperm.mem_iff.mpr (List.mem_cons_of_mem _ List.mem_cons_self))
        exact ⟨hx.start,he.positive,he.bounded⟩
      · exact h.live f (hperm.mem_iff.mpr (List.mem_cons_of_mem _ (List.mem_cons_of_mem _ hf)))
  · intro p hp
    obtain ⟨h1,h2⟩ := h.recent p (hspec.mostRecent ▸ hp)
    constructor
    · rcases removeValue_start h.wf hrem p with hs | hs | ⟨e,he,hs⟩
      · exact (show (t'.entry p).startAddress = _ from hs) ▸ h1
      · exact .inl hs
      · exact .inr (.inr ((show (t'.entry p).startAddress = _ from hs) ▸ (h.live e he).start))
    · unfold Entry.extent at h2 ⊢
      rw [show (t'.entry p).numPages = (t.entry p).numPages from removed_numPages hspec p]
      exact h2
  · intro hnone
    have hnil := h.unused (hspec.mostRecent ▸ hnone)
    rw [hnil] at hent
    rcases hent with ⟨gone,hperm⟩ | ⟨e,x,l,rest,-,-,hperm,-⟩
    · exact (List.append_eq_nil_iff.mp (List.nil_perm.mp hperm)).1
    · cases List.nil_perm.mp hperm

end Tame

section Unused

theorem unused_boot : Unused .boot where
  wf := wf_of_unlinked fun _ => rfl
  init := rfl
  start p := by cases p <;> exact .inl rfl
  numPages p := by cases p <;> rfl

theorem Unused.retouch (h : Unused t) (hre : Retouched t t') : Unused t' where
  wf := hre.wf h.wf
  init := hre.hashInit.trans h.init
  start p := by
    rw [hre.start p]
    exact h.start p
  numPages p := (hre.numPages p).trans (h.numPages p)

theorem Unused.entry (h : Unused t) (he : e ∈ t.entries) :
    (e.startAddress = 0 ∨ e.startAddress = EMPTY) ∧ e.numPages = 0 := by
  rw [entries_eq] at he
  obtain ⟨p,-,rfl⟩ := List.mem_map.mp he
  exact ⟨h.start p,h.numPages p⟩

theorem Unused.remove (h : Unused t) {r : ℤ} (hrem : removeValue t a = .ok (r,t')) : Unused t' := by
  obtain ⟨i,hi,hspec⟩ := removeValue_removed h.wf hrem
  refine ⟨hspec.wf,hspec.hashInit.trans h.init,?_,?_⟩
  · intro p
    rcases removeValue_start h.wf hrem p with hs | hs | ⟨e,he,hs⟩
    · exact hs ▸ h.start p
    · exact .inr hs
    · exact hs ▸ (h.entry he).1
  · exact fun p => (removed_numPages hspec p).trans (h.numPages p)

theorem hashInsert_entry {len np fd fl : Word} (h : hashInsert t a len np fd fl = .ok t') (q : Ptr) :
    t'.entry q = t.entry q ∨ t'.entry q = ⟨a,np,len,fd,fl,0⟩ := by
  obtain ⟨i,-,⟨-,rfl⟩ | ⟨-,j,-,rfl⟩⟩ := hashInsert_cases h
  · cases q with
    | slot k => by_cases hk : k = i <;> simp [Table.entry,Table.deref,Table.fillSlot,Table.setSlot,hk]
    | pool k => exact .inl rfl
  · cases q with
    | slot k =>
      by_cases hk : k = i <;> simp [Table.entry,Table.deref,Table.pushNode,Table.setSlot,Table.setPool,hk]
    | pool k =>
      by_cases hk : k = j <;> simp [Table.entry,Table.deref,Table.pushNode,Table.setSlot,Table.setPool,hk]

theorem Unused.insert (h : Unused t) {len np fd fl : Word} (ha : a = 0 ∨ a = EMPTY) (hnp : np = 0)
    (hins : hashInsert t a len np fd fl = .ok t') : Unused t' := by
  obtain ⟨i,-,hwf,-,-,hinit,-⟩ := hashInsert_ok h.wf hins
  refine ⟨hwf,hinit.trans h.init,?_,?_⟩
  · intro p
    change (t'.entry p).startAddress = 0 ∨ (t'.entry p).startAddress = EMPTY
    rcases hashInsert_entry hins p with he | he
    · rw [he]
      exact h.start p
    · rw [he]
      exact ha
  · intro p
    change (t'.entry p).numPages = 0
    rcases hashInsert_entry hins p with he | he
    · rw [he]
      exact h.numPages p
    · rw [he]
      exact hnp

theorem Unused.tame_init (h : Unused t) {v : ℤ} (hv : v ≠ -1) : Tame { initHashTable t with hashInit := v } := by
  have hnil : Table.entries { initHashTable t with hashInit := v } = [] := by
    rw [Table.entries,List.flatMap_eq_nil_iff]
    exact fun i _ => bucket_of_empty rfl
  have hext : ∀ p, (t.entry p).extent = 0 := by
    intro p
    rw [Entry.extent,show (t.entry p).numPages = 0 from h.numPages p]
    rfl
  have hbound : ∀ p, (t.entry p).extent.toNat ≤ 0x20000000 := by
    intro p
    rw [hext p]
    decide
  refine ⟨wf_of_unlinked fun _ => rfl,hv,by simp [hnil],?_,fun _ => hnil⟩
  intro p _
  cases p with
  | slot i => exact ⟨.inl rfl,hbound (.slot i)⟩
  | pool j => exact ⟨(h.start (.pool j)).elim (fun h0 => .inr (.inl h0)) .inl,hbound (.pool j)⟩

end Unused

section Steps

def Settled (t : Table) : Prop := Unused t ∨ Tame t

theorem Settled.wf (h : Settled t) : WF t := by
  rcases h with h | h
  · exact h.wf
  · exact h.wf

theorem Settled.drop (h : Settled t) (hd : Drop t t') : Settled t' := by
  cases hd with
  | bump hb =>
    rcases h with h | h
    · exact .inl (h.retouch hb.retouched)
    · exact .inr (h.retouch hb.retouched)
  | remove hrem =>
    rcases h with h | h
    · exact .inl (h.remove hrem)
    · exact .inr (h.remove hrem)

theorem Settled.drops (h : Settled t) (hd : ReflTransGen Drop t t') : Settled t' := by
  induction hd with
  | refl => exact h
  | tail _ hstep ih => exact ih.drop hstep

theorem Settled.resize (h : Settled t) (p : Ptr) (length : Word) :
    Settled (t.setNode p { t.deref p with length }) := by
  have hre := retouched_setNode t p { t.deref p with length := length } rfl rfl rfl
  rcases h with h | h
  · exact .inl (h.retouch hre)
  · exact .inr (h.retouch hre)

theorem Settled.copied (h : Settled t) (hfork : forkHelper t = .ok t') : Settled t' := by
  refine forkHelper_invariant (fun _ => Settled.wf) (fun u u' e hu he hins => ?_) h hfork
  rcases hu with hu | hu
  · obtain ⟨hs,hn⟩ := hu.entry he
    exact .inl (hu.insert hs hn hins)
  · have hreg := hu.live e he
    exact .inr (hu.insert ⟨hreg.start,hreg.positive,hreg.bounded⟩ hins)

theorem Settled.initialised {s : Ctx} (h : Settled s.tab) : Tame s.initialised.tab := by
  change Tame (Kernel.initialised s.tab)
  unfold Kernel.initialised
  rcases h with h | h
  · rw [if_pos h.init]
    exact h.tame_init (by decide)
  · rw [if_neg h.init]
    exact h

theorem Settled.getwmapinfo {l : List Info} (h : Settled t) (hrun : getwmapinfo t = .ok (l,t')) : Settled t' := by
  unfold Wmap.getwmapinfo at hrun
  rcases h with h | h
  · rw [if_pos h.init] at hrun
    cases hrun
    exact .inr (h.tame_init (by decide))
  · rw [if_neg h.init] at hrun
    obtain ⟨infos,-,hrun'⟩ := bind_ok hrun
    split at hrun'
    · cases hrun'
      exact .inr h
    · cases hrun'

end Steps
end Xv6.Kernel
