import Xv6.Kernel.NoOverlap
import Xv6.Wmap.Copies
import Xv6.Wmap.Histories
import Xv6.Wmap.PoolUse

/-! # The chains of the table

Whatever calls have changed the table, its chains are finite, apart from each other and sorted
into the slots of their addresses. So the loops over chains end, also those of `forkHelper` and
`exitHelper`, which change the chain that they walk.
-/
namespace Xv6.Kernel
open Wmap NodePool Program Relation
variable {t t' : Table} {a : Word} {i : Slot} {r : ℤ} {p : Ptr} {o : Option Ptr} {fuel : ℕ}

/-- Every entry is in the bucket of its address. -/
def Homed (t : Table) : Prop := ∀ i, ∀ e ∈ t.bucket i, slotOf e.startAddress = .ok i

structure Orderly (t : Table) : Prop where
  wf : WF t
  homed : Homed t

section Steps

theorem Homed.remove (h : Homed t) (hspec : Removed t t' a i r) : Homed t' := by
  intro k e he
  by_cases hk : k = i
  · subst k
    have hmem : e.startAddress ∈ ((t.bucket i).map Entry.startAddress).erase a := by
      rw [← removeEntry_starts,← hspec.bucket]
      exact List.mem_map_of_mem he
    obtain ⟨f,hf,hstart⟩ := List.mem_map.mp (List.mem_of_mem_erase hmem)
    rw [← hstart]
    exact h i f hf
  · rw [hspec.other k hk] at he
    exact h k e he

theorem Homed.retouched (h : Homed t) (hr : Retouched t t') : Homed t' := by
  intro i e he
  rw [bucket_eq,hr.nodes i] at he
  obtain ⟨p,hp,rfl⟩ := List.mem_map.mp he
  have hstart : (t'.entry p).startAddress = (t.entry p).startAddress := hr.start p
  rw [hstart]
  exact h i _ (by rw [bucket_eq]; exact List.mem_map_of_mem hp)

theorem Orderly.step (h : Orderly t) (hstep : TableStep t t') : Orderly t' := by
  refine ⟨wf_step h.wf hstep,?_⟩
  cases hstep with
  | init v _ _ =>
    intro i e he
    rw [bucket_of_empty rfl] at he
    cases he
  | insert hins =>
    obtain ⟨i,hi,-,hbucket,hother,-⟩ := hashInsert_ok h.wf hins
    intro k e he
    by_cases hk : k = i
    · subst k
      rw [hbucket] at he
      rcases List.mem_cons.mp ((insertEntry_perm _ _).mem_iff.mp he) with rfl | he
      · exact hi
      · exact h.homed i e he
    · rw [hother k hk] at he
      exact h.homed k e he
  | remove hrem =>
    obtain ⟨i,hi,-⟩ := bind_ok hrem
    obtain ⟨r,u,hu,hspec⟩ := removeValue_spec h.wf hi
    rw [hrem] at hu
    cases hu
    exact h.homed.remove hspec
  | length p len => exact h.homed.retouched (retouched_setNode t p { t.deref p with length := len } rfl rfl rfl)
  | bump hb => exact h.homed.retouched hb.retouched

theorem Orderly.steps (h : Orderly t) (hsteps : ReflTransGen TableStep t t') : Orderly t' := by
  induction hsteps with
  | refl => exact h
  | tail _ hstep ih => exact ih.step hstep

theorem orderly_initHashTable (t : Table) : Orderly (initHashTable t) := by
  refine ⟨wf_initHashTable t,fun i e he => ?_⟩
  rw [bucket_initHashTable] at he
  cases he

end Steps

section Loops

theorem Orderly.slotOf_node (h : Orderly t) (hp : p ∈ t.nodes i) : slotOf (t.deref p).startAddress = .ok i := by
  refine h.homed i (t.entry p) ?_
  rw [bucket_eq]
  exact List.mem_map_of_mem hp

/-- A loop over the slots does not stop in a way in which none of its rounds does. -/
theorem foldlM_ne_error {g : Table → Slot → Except Stop Table} {e : Stop}
    (hkeep : ∀ t i t', Orderly t → g t i = .ok t' → Orderly t') (hround : ∀ t i, Orderly t → g t i ≠ .error e)
    (h : Orderly t) (l : List Slot) : l.foldlM g t ≠ .error e := by
  induction l generalizing t with
  | nil => exact fun hnil => by cases hnil
  | cons i l ih =>
    rw [List.foldlM_cons]
    cases hg : g t i with
    | error e' =>
      intro he
      cases he
      exact hround t i h hg
    | ok u => exact ih (hkeep t i u h hg)

/-- Every insertion of the loop takes a node of the pool, so the loop ends or the pool is used up. -/
theorem forkChain_ends {e : Stop} (he : e ≠ .undefined) (h : Orderly t)
    (ho : ∀ q, o = some q → (t.deref q).startAddress ≠ EMPTY → q ∈ t.nodes i) (hfuel : 0 < fuel)
    (hpool : MAX_WMMAP_INFO < fuel+t.poolCounter) : forkChain fuel t o ≠ .error e := by
  induction fuel generalizing t o with
  | zero => exact absurd hfuel (lt_irrefl 0)
  | succ fuel ih =>
    cases o with
    | none => exact fun hnone => by cases hnone
    | some q =>
      rw [forkChain]
      split
      · exact fun hempty => by cases hempty
      · rename_i hlive
        have hq := ho q rfl hlive
        have hslot := h.slotOf_node hq
        cases hins : hashInsert t (t.deref q).startAddress (t.deref q).length (t.deref q).numPages (t.deref q).fd
            (t.deref q).flags with
        | error e' =>
          intro heq
          cases heq
          unfold hashInsert at hins
          rw [hslot] at hins
          change (if (t.table i).startAddress = EMPTY then _ else _) = _ at hins
          split at hins
          · cases hins
          · split at hins
            · cases hins
            · cases hins
              exact he rfl
        | ok u =>
          change forkChain fuel u _ ≠ _
          have hoccupied : occupied (t,(t.deref q).startAddress) = true := by
            simpa [occupied,hslot] using live_of_nodes hq
          have hcounter := counter_hashInsert hins
          rw [if_pos hoccupied] at hcounter
          have hroom : t.poolCounter < MAX_WMMAP_INFO := by
            obtain ⟨k,hk,⟨he,-⟩ | ⟨-,j,hj,-⟩⟩ := hashInsert_cases hins
            · rw [hslot] at hk
              cases hk
              exact absurd he (live_of_nodes hq)
            · exact hj ▸ j.isLt
          have hu := h.step (.insert hins)
          refine ih hu (fun q' hq' _ => ?_) (by omega) (by omega)
          obtain ⟨j,hj,rfl⟩ := Option.map_eq_some_iff.mp hq'
          exact hu.wf.next_mem (hashInsert_nodes h.wf hins hq) hj

theorem Orderly.forkHelper_ends (h : Orderly t) : (∃ t', forkHelper t = .ok t') ∨ forkHelper t = .error .undefined := by
  have hno : ∀ e, e ≠ .undefined → forkHelper t ≠ .error e := by
    intro e he
    refine foldlM_ne_error (fun _ _ _ h hg => h.steps (forkChain_steps hg)) (fun t i h => ?_) h _
    refine forkChain_ends (i := i) he h ?_ (by decide) (by omega)
    rintro _ ⟨⟩ hlive
    exact slot_mem_nodes hlive
  cases hfork : forkHelper t with
  | ok t' => exact .inl ⟨t',rfl⟩
  | error e =>
    by_cases he : e = .undefined
    · exact .inr (congrArg _ he)
    · exact absurd hfork (hno e he)

/-- Behind the node that holds the address removed, the pointer goes on in the same slot. -/
theorem Orderly.next_of_remove (h : Orderly t) (hp : p ∈ t.nodes i)
    (hrem : removeValue t (t.deref p).startAddress = .ok (r,t')) {k : PoolIdx}
    (hk : (t'.deref p).next = some k) : k ∈ t'.chain i := by
  have hw := h.wf
  have hlive := live_of_nodes hp
  have hl := hw.linked i
  obtain ⟨r',u,hu,hspec⟩ := removeValue_spec hw (h.slotOf_node hp)
  rw [hrem] at hu
  cases hu
  rw [nodes_of_live hlive] at hp
  rcases List.mem_cons.mp hp with rfl | hp
  · have hl' := hspec.wf.linked i
    change (t'.table i).next = some k at hk
    cases hch : t'.chain i with
    | nil =>
      rw [hch,hk] at hl'
      cases hl'
    | cons m l =>
      rw [hch,hk] at hl'
      cases hl'.1
      exact List.mem_cons_self
  · obtain ⟨j,hj,rfl⟩ := List.mem_map.mp hp
    unfold removeValue at hrem
    rw [h.slotOf_node (p := .pool j) (by rw [nodes_of_live hlive]; exact List.mem_cons_of_mem _ hp)] at hrem
    change (if (t.table i).startAddress = (t.nodePool j).startAddress then _ else _) = _ at hrem
    split at hrem
    · -- The second node has moved up into the slot; the pointer may be left at it.
      cases hch : t.chain i with
      | nil =>
        rw [hch] at hj
        cases hj
      | cons m l =>
        obtain ⟨-,hchain,-⟩ := (rechained_shift hw hch).wf hw
        rw [hch] at hl hj
        rw [hl.1] at hrem
        cases hrem
        rw [hchain]
        exact Linked.next_mem_tail hl hj hk
    · rcases split_chain t (t.nodePool j).startAddress (t.chain i) with hno | ⟨l₁,m,l₂,hch,hno,hm⟩
      · exact absurd rfl (hno j hj)
      · obtain ⟨hwf,hchain,-⟩ := (rechained_skip hw hch).wf hw
        have hlen := hw.chain_length i
        rw [hch] at hl hlen hj
        change unlink t (t.nodePool j).startAddress _ _ _ = _ at hrem
        rw [unlink_found hl hlen hno hm] at hrem
        cases hrem
        by_cases hjm : j = m
        · subst j
          simp [Table.deref,Table.skip,Table.setPool] at hk
        · refine (hwf.linked i).next_mem ?_ hk
          rw [hchain]
          simpa [hjm] using hj

/-- Every removal of the loop takes an entry from the slot. -/
theorem exitChain_ends (h : Orderly t) (ho : ∀ q, o = some q → (t.deref q).startAddress ≠ EMPTY → q ∈ t.nodes i)
    (hfuel : (t.bucket i).length < fuel) (e : Stop) : exitChain fuel t o ≠ .error e := by
  induction fuel generalizing t o with
  | zero => exact absurd hfuel (Nat.not_lt_zero _)
  | succ fuel ih =>
    cases o with
    | none => exact fun hnone => by cases hnone
    | some q =>
      rw [exitChain]
      split
      · exact fun hempty => by cases hempty
      · rename_i hlive
        have hq := ho q rfl hlive
        obtain ⟨r,u,hrem,hspec⟩ := removeValue_spec h.wf (h.slotOf_node hq)
        rw [hrem]
        change exitChain fuel u _ ≠ _
        have hu := h.step (.remove hrem)
        refine ih hu (fun q' hq' _ => ?_) ?_
        · obtain ⟨j,hj,rfl⟩ := Option.map_eq_some_iff.mp hq'
          have hmem := h.next_of_remove hq hrem hj
          have hne : (u.table i).startAddress ≠ EMPTY := fun he => by
            rw [hu.wf.chain_of_empty he] at hmem
            cases hmem
          rw [nodes_of_live hne]
          exact List.mem_cons_of_mem _ (List.mem_map_of_mem hmem)
        · have hmem : (t.deref q).startAddress ∈ (t.bucket i).map Entry.startAddress := by
            rw [bucket_eq,List.map_map]
            exact List.mem_map_of_mem hq
          have hlen := congrArg List.length (removeEntry_starts (t.deref q).startAddress (t.bucket i))
          rw [List.length_map,List.length_erase_of_mem hmem,List.length_map] at hlen
          have := List.length_pos_of_mem hmem
          rw [List.length_map] at this
          rw [hspec.bucket,hlen]
          omega

theorem Orderly.exitHelper_ends (h : Orderly t) : ∃ t', exitHelper t = .ok t' := by
  have hno : ∀ e, exitHelper t ≠ .error e := by
    intro e
    refine foldlM_ne_error (fun _ _ _ h hg => h.steps (ReflTransGen.mono (fun _ _ => Drop.step) _ _ (exitChain_steps hg)))
      (fun t i h => ?_) h _
    refine exitChain_ends (i := i) h ?_ ?_ e
    · rintro _ ⟨⟩ hlive
      exact slot_mem_nodes hlive
    · have hlen := h.wf.chain_length i
      rw [Table.bucket]
      split
      · exact Nat.succ_pos _
      · rw [List.length_cons,List.length_map]
        omega
  cases hexit : exitHelper t with
  | ok t' => exact ⟨t',rfl⟩
  | error e => exact absurd hexit (hno e)

end Loops

section Runs

/-- Tables that calls lead to after `initHashTable`: system calls, the walks of `fork` and `exit`, in any order
and each by a process of its own choice. A call may also end with the exit of its process. -/
inductive Chained : Table → Prop
  | start (t : Table) : Chained (initHashTable t)
  | call {s s' : Ctx} {c : Call} {r : Answer} : Chained s.tab → c.run s = .ok r s' → Chained s'.tab
  | exited {s s' : Ctx} {c : Call} : Chained s.tab → c.run s = .error .exited s' → Chained s'.tab
  | forkHelper {t t' : Table} : Chained t → forkHelper t = .ok t' → Chained t'
  | exitHelper {t t' : Table} : Chained t → exitHelper t = .ok t' → Chained t'

theorem Chained.orderly (h : Chained t) : Orderly t := by
  induction h with
  | start t => exact orderly_initHashTable t
  | call _ hrun ih => exact ih.steps ((stepping_call _).ok hrun)
  | exited _ hrun ih => exact ih.steps ((stepping_call _).error hrun)
  | forkHelper _ hfork ih => exact ih.steps (forkHelper_steps hfork)
  | exitHelper _ hexit ih => exact ih.steps (ReflTransGen.mono (fun _ _ => Drop.step) _ _ (exitHelper_steps hexit))

/-- The nodes of a chain follow one another to its end and none twice; the chains are apart; an empty head has
no chain, and no node of a chain is empty; every address is in the slot that it hashes to. -/
structure ChainStructure (t : Table) : Prop where
  ends : ∀ i, Linked t.nexts (t.table i).next (t.chain i)
  acyclic : ∀ i, (t.chain i).Nodup
  disjoint : ∀ i k, i ≠ k → List.Disjoint (t.chain i) (t.chain k)
  emptyHead : ∀ i, (t.table i).startAddress = EMPTY → (t.table i).next = none
  notEmpty : ∀ i, ∀ j ∈ t.chain i, (t.nodePool j).startAddress ≠ EMPTY
  head : ∀ i, (t.table i).startAddress ≠ EMPTY → Wmap.hash (t.table i).startAddress = i.val
  node : ∀ i, ∀ j ∈ t.chain i, Wmap.hash (t.nodePool j).startAddress = i.val

/-- The walks of the chains end. Those that look for a mapped address return, and so does `exitHelper`. The
report of `getwmapinfo` and the pool that `forkHelper` takes nodes from may be too small. -/
structure Terminating (t : Table) : Prop where
  hashSearch : ∀ a, ValidKey a → ∃ o, hashSearch t a = .ok o
  removeValue : ∀ a, ValidKey a → ∃ r t', removeValue t a = .ok (r,t')
  pageInMappings : ∀ a, a.toNat < 2^31 → ∃ o, pageInMappings t a = .ok o
  getwmapinfo : (∃ r, getwmapinfo t = .ok r) ∨ getwmapinfo t = .error .undefined
  forkHelper : (∃ t', forkHelper t = .ok t') ∨ forkHelper t = .error .undefined
  exitHelper : ∃ t', exitHelper t = .ok t'

theorem Orderly.chainStructure (h : Orderly t) : ChainStructure t where
  ends := h.wf.linked
  acyclic := h.wf.nodup
  disjoint i k hne j hi hk := hne (h.wf.apart i k j hi hk)
  emptyHead := h.wf.empty
  notEmpty := h.wf.live
  head i hlive := hash_of_slotOf (h.slotOf_node (p := .slot i) (slot_mem_nodes hlive))
  node i j hj := by
    refine hash_of_slotOf (h.slotOf_node (p := .pool j) ?_)
    have hlive : (t.table i).startAddress ≠ EMPTY := fun he => by
      rw [h.wf.chain_of_empty he] at hj
      cases hj
    rw [nodes_of_live hlive]
    exact List.mem_cons_of_mem _ (List.mem_map_of_mem hj)

theorem Orderly.terminating (h : Orderly t) : Terminating t where
  hashSearch a ha := by
    obtain ⟨i,hi⟩ := slotOf_lower ha.high
    exact ⟨_,hashSearch_eq h.wf hi⟩
  removeValue a ha := by
    obtain ⟨i,hi⟩ := slotOf_lower ha.high
    obtain ⟨r,t',hrem,-⟩ := removeValue_spec h.wf hi
    exact ⟨r,t',hrem⟩
  pageInMappings a ha := by
    obtain ⟨i,hi⟩ := slotOf_lower ha
    exact ⟨_,pageInMappings_eq h.wf hi⟩
  getwmapinfo := by
    by_cases hinit : t.hashInit = -1
    · exact .inl ⟨_,if_pos hinit⟩
    · rw [getwmapinfo_eq h.wf hinit]
      split
      · exact .inl ⟨_,rfl⟩
      · exact .inr rfl
  forkHelper := h.forkHelper_ends
  exitHelper := h.exitHelper_ends

/-- In every run after `initHashTable` the chains are sound, and the walks over them end. -/
theorem chains_sound (h : Chained t) : ChainStructure t ∧ Terminating t :=
  ⟨h.orderly.chainStructure,h.orderly.terminating⟩

/-- Two mappings in one slot. `forkHelper` inserts each of them again, and once more the copy of the first,
which has become its successor in the chain. -/
theorem chains_sound_fork : ∃ s₁ s₂ t,
    (Call.wmap 0x60000000 8192 14 0).run { firstCtx with tab := initHashTable .boot } = .ok (.value 0x60000000) s₁ ∧
    (Call.wmap 0x60013000 5000 14 0).run s₁ = .ok (.value 0x60013000) s₂ ∧ s₂.tab.chain 7 = [0] ∧
    forkHelper s₂.tab = .ok t ∧ t.chain 7 = [3,2,1,0] ∧ ChainStructure t ∧ Terminating t := by
  obtain ⟨s₁,s₂,h₁,h₂,hchain,hfork⟩ : ∃ s₁ s₂,
      (Call.wmap 0x60000000 8192 14 0).run { firstCtx with tab := initHashTable .boot } =
        .ok (.value 0x60000000) s₁ ∧ (Call.wmap 0x60013000 5000 14 0).run s₁ = .ok (.value 0x60013000) s₂ ∧
      s₂.tab.chain 7 = [0] ∧
        (forkHelper s₂.tab).toOption.any (fun t => decide (t.chain 7 = [3,2,1,0])) = true :=
    ⟨_,_,rfl,rfl,by decide +kernel,by decide +kernel⟩
  obtain ⟨t,ht,hcopied⟩ := exists_ok hfork
  have hrun : Chained t := .forkHelper (.call (.call (.start .boot) h₁) h₂) ht
  exact ⟨s₁,s₂,t,h₁,h₂,hchain,ht,of_decide_eq_true hcopied,chains_sound hrun⟩

end Runs
end Xv6.Kernel
