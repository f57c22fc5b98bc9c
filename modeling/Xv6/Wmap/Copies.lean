import Xv6.Wmap.Ranges

/-! # Copies made by a fork

`forkHelper` walks the chains while it inserts into them. The table keeps its nodes and
gains copies of its entries, at least one for every slot in use. The report of
`getwmapinfo` is the list of live entries.
-/
namespace Xv6.Wmap
open NodePool Program
variable {t t' u : Table} {a len np fd fl : Word} {i k : Slot} {p q : Ptr}

section Nodes

theorem nodes_of_live (h : (t.table i).startAddress ≠ EMPTY) : t.nodes i = .slot i :: (t.chain i).map .pool :=
  if_neg h

theorem slot_mem_nodes (h : (t.table i).startAddress ≠ EMPTY) : .slot i ∈ t.nodes i := by
  rw [nodes_of_live h]
  exact List.mem_cons_self

theorem live_of_nodes (h : p ∈ t.nodes i) : (t.table i).startAddress ≠ EMPTY := by
  intro he
  rw [Table.nodes,if_pos he] at h
  cases h

theorem WF.next_mem (hw : WF t) {j : PoolIdx} (hp : p ∈ t.nodes i) (hj : (t.deref p).next = some j) :
    .pool j ∈ t.nodes i := by
  have hlive := live_of_nodes hp
  rw [nodes_of_live hlive] at hp ⊢
  refine List.mem_cons_of_mem _ (List.mem_map_of_mem ?_)
  rcases List.mem_cons.mp hp with rfl | hp
  · have hl := hw.linked i
    change (t.table i).next = some j at hj
    rw [hj] at hl
    cases hch : t.chain i with
    | nil =>
      rw [hch] at hl
      cases hl
    | cons m l =>
      rw [hch] at hl
      cases hl.1
      exact List.mem_cons_self
  · obtain ⟨m,hm,rfl⟩ := List.mem_map.mp hp
    exact (hw.linked i).next_mem hm hj

theorem entry_mem (hp : p ∈ t.nodes i) : t.entry p ∈ t.entries := by
  rw [entries_eq]
  exact List.mem_map_of_mem (mem_allNodes_of_nodes hp)

theorem Rechained.nodes {l : List PoolIdx} (hre : Rechained t t' i l) (hw : WF t) (hk : k ≠ i) :
    t'.nodes k = t.nodes k := by
  have hchain : t'.chain k = t.chain k := by
    apply chain_eq _ (hw.nodup k)
    rw [hre.table k hk]
    apply (hw.linked k).congr
    intro j hj
    rw [Table.nexts,hre.pool k hk j hj]
    rfl
  rw [Table.nodes,Table.nodes,hre.table k hk,hchain]

theorem nodes_fillSlot {e : Entry} (hw : WF t) (he : (t.table i).startAddress = EMPTY)
    (ha : e.startAddress ≠ EMPTY) : (t.fillSlot i e).nodes i = .slot i :: t.nodes i := by
  have hlive : ((t.fillSlot i e).table i).startAddress ≠ EMPTY := by
    simpa [Table.fillSlot,Table.setSlot] using ha
  rw [nodes_of_live hlive,((rechained_fillSlot hw he ha).wf hw).2.1,Table.nodes,if_pos he]
  rfl

theorem nodes_pushNode {e : Entry} {j : PoolIdx} (hw : WF t) (he : (t.table i).startAddress ≠ EMPTY)
    (hc : j.val = t.poolCounter) (ha : e.startAddress ≠ EMPTY) :
    (t.pushNode i j e).nodes i = .slot i :: .pool j :: (t.chain i).map .pool := by
  have hlive : ((t.pushNode i j e).table i).startAddress ≠ EMPTY := by
    simpa [Table.pushNode,Table.setSlot,Table.setPool] using he
  rw [nodes_of_live hlive,((rechained_pushNode hw he hc ha).wf hw).2.1,List.map_cons]

theorem hashInsert_nodes (hw : WF t) (h : hashInsert t a len np fd fl = .ok t') (hp : p ∈ t.nodes k) :
    p ∈ t'.nodes k := by
  obtain ⟨i,hi,hcases⟩ := hashInsert_cases h
  have hlive := live_of_nodes hp
  have ha : (⟨a,np,len,fd,fl,0⟩ : Entry).startAddress ≠ EMPTY := ne_empty_of_slotOf hi
  rcases hcases with ⟨he,rfl⟩ | ⟨he,j,hc,rfl⟩
  · have hk : k ≠ i := fun hk => hlive (hk ▸ he)
    rw [(rechained_fillSlot hw he ha).nodes hw hk]
    exact hp
  · by_cases hk : k = i
    · subst hk
      rw [nodes_pushNode hw he hc ha]
      rw [nodes_of_live he] at hp
      rcases List.mem_cons.mp hp with rfl | hp
      · exact List.mem_cons_self
      · exact List.mem_cons_of_mem _ (List.mem_cons_of_mem _ hp)
    · rw [(rechained_pushNode hw he hc ha).nodes hw hk]
      exact hp

/-- One node more, with the entry `e`; the others keep theirs. -/
structure Inserted (t t' : Table) (e : Entry) : Prop where
  node : ∃ q, q ∉ t.allNodes ∧ t'.allNodes.Perm (q :: t.allNodes) ∧ t'.entry q = e
  kept : ∀ p ∈ t.allNodes, t'.entry p = t.entry p

theorem slot_mem_allNodes (h : .slot i ∈ t.allNodes) : (t.table i).startAddress ≠ EMPTY := by
  obtain ⟨k,-,hk⟩ := List.mem_flatMap.mp h
  have hlive := live_of_nodes hk
  rw [nodes_of_live hlive] at hk
  rcases List.mem_cons.mp hk with hk | hk
  · cases hk
    exact hlive
  · obtain ⟨j,-,hj⟩ := List.mem_map.mp hk
    cases hj

theorem WF.pool_mem_allNodes {j : PoolIdx} (hw : WF t) (h : .pool j ∈ t.allNodes) : j.val < t.poolCounter := by
  obtain ⟨k,-,hk⟩ := List.mem_flatMap.mp h
  rw [nodes_of_live (live_of_nodes hk)] at hk
  rcases List.mem_cons.mp hk with hk | hk
  · cases hk
  · obtain ⟨m,hm,hj⟩ := List.mem_map.mp hk
    exact Ptr.pool.inj hj ▸ hw.fresh k m hm

theorem hashInsert_newest (hw : WF t) (h : hashInsert t a len np fd fl = .ok t') :
    ∃ q, t'.mostRecent = some q ∧ q ∉ t.allNodes ∧ t'.allNodes.Perm (q :: t.allNodes) ∧
      t'.entry q = ⟨a,np,len,fd,fl,0⟩ := by
  obtain ⟨i,hi,hcases⟩ := hashInsert_cases h
  have ha : (⟨a,np,len,fd,fl,0⟩ : Entry).startAddress ≠ EMPTY := ne_empty_of_slotOf hi
  rcases hcases with ⟨he,rfl⟩ | ⟨he,j,hc,rfl⟩
  · have hre := rechained_fillSlot hw he ha
    obtain ⟨rest,h1,h2⟩ := flatMap_perm i fun k hk => hre.nodes hw hk
    rw [nodes_fillSlot hw he ha] at h2
    refine ⟨.slot i,rfl,fun hm => slot_mem_allNodes hm he,h2.trans (h1.symm.cons _),?_⟩
    simp [Table.entry,Table.deref,Table.fillSlot,Table.setSlot]
  · have hre := rechained_pushNode hw he hc ha
    obtain ⟨rest,h1,h2⟩ := flatMap_perm i fun k hk => hre.nodes hw hk
    rw [nodes_pushNode hw he hc ha] at h2
    rw [nodes_of_live he] at h1
    refine ⟨.pool j,rfl,fun hm => ?_,h2.trans ((List.Perm.swap _ _ _).trans (h1.symm.cons _)),?_⟩
    · have := hw.pool_mem_allNodes hm
      omega
    · simp [Table.entry,Table.deref,Table.pushNode,Table.setSlot,Table.setPool]

theorem hashInsert_inserted (hw : WF t) (h : hashInsert t a len np fd fl = .ok t') :
    Inserted t t' ⟨a,np,len,fd,fl,0⟩ := by
  obtain ⟨q,-,hq⟩ := hashInsert_newest hw h
  refine ⟨⟨q,hq⟩,fun p hp => ?_⟩
  obtain ⟨i,-,⟨he,rfl⟩ | ⟨-,j,hc,rfl⟩⟩ := hashInsert_cases h
  · cases p with
    | slot k =>
      have hk : k ≠ i := fun hk => slot_mem_allNodes hp (hk ▸ he)
      simp [Table.entry,Table.deref,Table.fillSlot,Table.setSlot,hk]
    | pool m => rfl
  · cases p with
    | slot k =>
      by_cases hk : k = i
      · subst hk
        simp [Table.entry,Table.deref,Table.pushNode,Table.setSlot,Table.setPool]
      · simp [Table.entry,Table.deref,Table.pushNode,Table.setSlot,Table.setPool,hk]
    | pool m =>
      have hm : m ≠ j := by
        rintro rfl
        have := hw.pool_mem_allNodes hp
        omega
      simp [Table.entry,Table.deref,Table.pushNode,Table.setSlot,Table.setPool,hm]

theorem Rechained.subset {l : List PoolIdx} (hre : Rechained t t' i l) (hw : WF t)
    (hlive : (t'.table i).startAddress ≠ EMPTY → (t.table i).startAddress ≠ EMPTY)
    (hl : ∀ j ∈ l, j ∈ t.chain i) (hp : p ∈ t'.allNodes) : p ∈ t.allNodes := by
  obtain ⟨k,-,hk⟩ := List.mem_flatMap.mp hp
  by_cases hki : k = i
  · subst hki
    have hlive' := live_of_nodes hk
    rw [nodes_of_live hlive',(hre.wf hw).2.1] at hk
    refine mem_allNodes_of_nodes (i := k) ?_
    rw [nodes_of_live (hlive hlive')]
    rcases List.mem_cons.mp hk with rfl | hk
    · exact List.mem_cons_self
    · obtain ⟨j,hj,rfl⟩ := List.mem_map.mp hk
      exact List.mem_cons_of_mem _ (List.mem_map_of_mem (hl j hj))
  · rw [hre.nodes hw hki] at hk
    exact mem_allNodes_of_nodes hk

theorem removeValue_nodes {r : ℤ} (hw : WF t) (h : removeValue t a = .ok (r,t')) (hp : p ∈ t'.allNodes) :
    p ∈ t.allNodes := by
  obtain ⟨i,hi,h⟩ := bind_ok h
  dsimp only at h
  have hl := hw.linked i
  split at h
  · rename_i hhead
    have hlive : (t.table i).startAddress ≠ EMPTY := fun he => ne_empty_of_slotOf hi (hhead.symm.trans he)
    cases hch : t.chain i with
    | nil =>
      rw [hch] at hl
      rw [linked_nil.mp hl] at h
      cases h
      exact (rechained_clear t i).subset hw (fun _ => hlive) (by simp) hp
    | cons k l =>
      rw [hch] at hl
      rw [hl.1] at h
      cases h
      exact (rechained_shift hw hch).subset hw (fun _ => hlive) (fun j hj => hch ▸ List.mem_cons_of_mem _ hj) hp
  · rcases split_chain t a (t.chain i) with hno | ⟨l₁,k,l₂,hch,hno,hk⟩
    · rw [unlink_missing hl (hw.chain_length i) hno] at h
      cases h
      exact hp
    · have hlen := hw.chain_length i
      rw [hch] at hl hlen
      rw [unlink_found hl hlen hno hk] at h
      cases h
      refine (rechained_skip hw hch).subset hw (fun hlive => ?_) (fun j hj => ?_) hp
      · rwa [congrArg Entry.startAddress (slotEntry_skip t _ k i)] at hlive
      · rw [hch]
        rcases List.mem_append.mp hj with hj | hj
        · exact List.mem_append_left _ hj
        · exact List.mem_append_right _ (List.mem_cons_of_mem _ hj)

end Nodes

section Fork

def Entry.fresh (e : Entry) : Entry := { e with loadedPages := 0 }

/-- `forkHelper` leaves every entry and adds copies. -/
structure Copied (t t' : Table) : Prop where
  wf : WF t'
  nodes : ∀ k, ∀ p ∈ t.nodes k, p ∈ t'.nodes k
  extra : ∃ l, t'.entries.Perm (l ++ t.entries) ∧ ∀ e ∈ l, ∃ f ∈ t.entries, e = f.fresh
  hashInit : t'.hashInit = t.hashInit

theorem Copied.refl (hw : WF t) : Copied t t := ⟨hw,fun _ _ h => h,⟨[],.rfl,by simp⟩,rfl⟩

theorem Copied.trans (h : Copied t u) (h' : Copied u t') : Copied t t' := by
  obtain ⟨l,hl,hcopies⟩ := h.extra
  obtain ⟨l',hl',hcopies'⟩ := h'.extra
  refine ⟨h'.wf,fun k p hp => h'.nodes k p (h.nodes k p hp),⟨l' ++ l,?_,?_⟩,h'.hashInit.trans h.hashInit⟩
  · rw [List.append_assoc]
    exact hl'.trans (hl.append_left l')
  · intro e he
    rcases List.mem_append.mp he with he | he
    · obtain ⟨f,hf,rfl⟩ := hcopies' e he
      rcases List.mem_append.mp (hl.mem_iff.mp hf) with hf | hf
      · obtain ⟨g,hg,rfl⟩ := hcopies f hf
        exact ⟨g,hg,rfl⟩
      · exact ⟨f,hf,rfl⟩
    · exact hcopies e he

theorem Copied.length_le (h : Copied t t') : t.entries.length ≤ t'.entries.length := by
  obtain ⟨l,hl,-⟩ := h.extra
  rw [hl.length_eq,List.length_append]
  omega

theorem copied_insert (hw : WF t) (hp : p ∈ t.nodes k)
    (h : hashInsert t (t.deref p).startAddress (t.deref p).length (t.deref p).numPages (t.deref p).fd
      (t.deref p).flags = .ok t') : Copied t t' ∧ t.entries.length < t'.entries.length := by
  obtain ⟨i,-,hw',-,-,hinit,-⟩ := hashInsert_ok hw h
  have hperm := hashInsert_entries hw h
  refine ⟨⟨hw',fun _ _ hq => hashInsert_nodes hw h hq,⟨[(t.entry p).fresh],hperm,?_⟩,hinit⟩,?_⟩
  · intro e he
    rw [List.mem_singleton.mp he]
    exact ⟨t.entry p,entry_mem hp,rfl⟩
  · rw [hperm.length_eq,List.length_cons]
    omega

theorem forkChain_copied {fuel : ℕ} {o : Option Ptr} (hw : WF t)
    (ho : ∀ q, o = some q → (t.deref q).startAddress ≠ EMPTY → q ∈ t.nodes i)
    (h : forkChain fuel t o = .ok t') : Copied t t' ∧
      ((∃ q, o = some q ∧ (t.deref q).startAddress ≠ EMPTY) → t.entries.length < t'.entries.length) := by
  fun_induction forkChain fuel t o with
  | case1 =>
    cases h
    exact ⟨.refl hw,by simp⟩
  | case2 => cases h
  | case3 fuel t q n he =>
    cases h
    refine ⟨.refl hw,?_⟩
    rintro ⟨_,hq,hlive⟩
    cases hq
    exact absurd he hlive
  | case4 fuel t q n he ih =>
    obtain ⟨u,hins,h⟩ := bind_ok h
    have hq := ho q rfl he
    obtain ⟨hcopied,hlt⟩ := copied_insert hw hq hins
    have hnext : ∀ r, (u.deref q).next.map Ptr.pool = some r → (u.deref r).startAddress ≠ EMPTY →
        r ∈ u.nodes i := by
      intro r hr _
      obtain ⟨j,hj,rfl⟩ := Option.map_eq_some_iff.mp hr
      exact hcopied.wf.next_mem (hcopied.nodes i q hq) hj
    obtain ⟨hrest,-⟩ := ih u hcopied.wf hnext h
    exact ⟨hcopied.trans hrest,fun _ => lt_of_lt_of_le hlt hrest.length_le⟩

theorem forkSlots_copied {l : List Slot} {fuel : ℕ} (hw : WF t)
    (h : l.foldlM (fun t i => forkChain fuel t (some (.slot i))) t = .ok t') : Copied t t' ∧
      ∀ i ∈ l, (t.table i).startAddress ≠ EMPTY → t.entries.length < t'.entries.length := by
  induction l generalizing t with
  | nil =>
    cases h
    exact ⟨.refl hw,by simp⟩
  | cons i l ih =>
    rw [List.foldlM_cons] at h
    obtain ⟨u,hu,h⟩ := bind_ok h
    have hslot : ∀ q, some (Ptr.slot i) = some q → (t.deref q).startAddress ≠ EMPTY → q ∈ t.nodes i := by
      rintro _ ⟨⟩ hlive
      exact slot_mem_nodes hlive
    obtain ⟨hfirst,hgrows⟩ := forkChain_copied hw hslot hu
    obtain ⟨hrest,hmore⟩ := ih hfirst.wf h
    refine ⟨hfirst.trans hrest,fun k hk hlive => ?_⟩
    rcases List.mem_cons.mp hk with rfl | hk
    · exact lt_of_lt_of_le (hgrows ⟨_,rfl,hlive⟩) hrest.length_le
    · have hlive' := live_of_nodes (hfirst.nodes k _ (slot_mem_nodes hlive))
      exact lt_of_le_of_lt hfirst.length_le (hmore k hk hlive')

theorem forkHelper_copied (hw : WF t) (h : forkHelper t = .ok t') :
    Copied t t' ∧ (t.entries ≠ [] → t.entries.length < t'.entries.length) := by
  obtain ⟨hcopied,hgrows⟩ := forkSlots_copied hw h
  refine ⟨hcopied,fun hne => ?_⟩
  obtain ⟨e,he⟩ := List.exists_mem_of_ne_nil _ hne
  obtain ⟨i,he⟩ := mem_entries.mp he
  refine hgrows i (List.mem_finRange i) fun hempty => ?_
  rw [bucket_of_empty hempty] at he
  cases he

/-- What every insertion of a copy of a live entry keeps is kept by `forkHelper`. -/
theorem forkHelper_invariant {I : Table → Prop} (hwf : ∀ t, I t → WF t)
    (hins : ∀ t t' e, I t → e ∈ t.entries →
      hashInsert t e.startAddress e.length e.numPages e.fd e.flags = .ok t' → I t')
    (hI : I t) (h : forkHelper t = .ok t') : I t' := by
  have hchain : ∀ fuel t o t', I t → (∀ q, o = some q → (t.deref q).startAddress ≠ EMPTY → ∃ i, q ∈ t.nodes i) →
      forkChain fuel t o = .ok t' → I t' := by
    intro fuel t o t' hI ho h
    fun_induction forkChain fuel t o with
    | case1 =>
      cases h
      exact hI
    | case2 => cases h
    | case3 =>
      cases h
      exact hI
    | case4 fuel t q n he ih =>
      obtain ⟨u,hu,h⟩ := bind_ok h
      obtain ⟨i,hq⟩ := ho q rfl he
      have hIu := hins t u (t.entry q) hI (entry_mem hq) hu
      refine ih u hIu (fun r hr _ => ?_) h
      obtain ⟨j,hj,rfl⟩ := Option.map_eq_some_iff.mp hr
      exact ⟨i,(hwf u hIu).next_mem (hashInsert_nodes (hwf t hI) hu hq) hj⟩
  have hslots : ∀ (l : List Slot) t, I t →
      l.foldlM (fun t i => forkChain (2*MAX_WMMAP_INFO+3) t (some (.slot i))) t = .ok t' → I t' := by
    intro l
    induction l with
    | nil =>
      intro t hI h
      cases h
      exact hI
    | cons i l ih =>
      intro t hI h
      rw [List.foldlM_cons] at h
      obtain ⟨u,hu,h⟩ := bind_ok h
      refine ih u (hchain _ t _ u hI ?_ hu) h
      rintro _ ⟨⟩ hlive
      exact ⟨i,slot_mem_nodes hlive⟩
  exact hslots _ t hI h

theorem forkHelper_empty (h : t.entries = []) : forkHelper t = .ok t := by
  have hslots : ∀ l : List Slot,
      l.foldlM (fun t i => forkChain (2*MAX_WMMAP_INFO+3) t (some (.slot i))) t = .ok t := by
    intro l
    induction l with
    | nil => rfl
    | cons i l ih =>
      have hempty : (t.deref (.slot i)).startAddress = EMPTY := by
        by_contra hlive
        have := entry_mem (slot_mem_nodes hlive)
        rw [h] at this
        cases this
      rw [List.foldlM_cons,forkChain,if_pos hempty]
      exact ih
  exact hslots _

end Fork

section Report

theorem readChain_eq {l : List PoolIdx} {p : Option PoolIdx} {fuel : ℕ} (hl : Linked t.nexts p l)
    (hlen : l.length ≤ fuel) : readChain t fuel p = .ok (l.map fun j => (t.nodePool j).info) := by
  induction l generalizing p fuel with
  | nil =>
    rw [linked_nil.mp hl]
    cases fuel <;> rfl
  | cons j l ih =>
    obtain ⟨rfl,hl⟩ := hl
    cases fuel with
    | zero => simp at hlen
    | succ fuel =>
      have hrest : readChain t fuel (t.nodePool j).next = _ := ih hl (by simpa using hlen)
      rw [readChain,hrest]
      rfl

theorem readSlots_eq (hw : WF t) (is : List Slot) :
    readSlots t is = .ok ((is.flatMap t.bucket).map Entry.info) := by
  induction is with
  | nil => rfl
  | cons i is ih =>
    rw [readSlots,ih,List.flatMap_cons,List.map_append]
    by_cases he : (t.table i).startAddress = EMPTY
    · rw [if_pos he,bucket_of_empty he]
      rfl
    · rw [if_neg he,bucket_of_live he,readChain_eq (hw.linked i) (hw.chain_length i),List.map_cons,List.map_map]
      rfl

theorem getwmapinfo_eq (hw : WF t) (hinit : t.hashInit ≠ -1) : getwmapinfo t =
    if t.entries.length ≤ MAX_WMMAP_INFO then .ok (t.entries.map Entry.info,t) else .error .undefined := by
  rw [getwmapinfo,if_neg hinit,readSlots_eq hw]
  change (if (t.entries.map Entry.info).length ≤ MAX_WMMAP_INFO then _ else _) = _
  rw [List.length_map]
  rfl

end Report
end Xv6.Wmap
