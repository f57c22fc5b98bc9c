import Xv6.Wmap.Buckets
import Xv6.Library.Program

/-! # Insertion on buckets

An insertion that returns puts the entry behind the first one of its bucket: into the
slot itself when it is empty, and into the next node of the pool otherwise.
-/
namespace Xv6.Wmap
open NodePool Function Program
variable {t t' : Table} {a len np fd fl : Word} {i : Slot} {j : PoolIdx} {e : Entry}

def Table.fillSlot (t : Table) (i : Slot) (e : Entry) : Table :=
  { t.setSlot i ⟨e,(t.table i).next⟩ with mostRecent := some (.slot i) }

def Table.pushNode (t : Table) (i : Slot) (j : PoolIdx) (e : Entry) : Table :=
  { (t.setPool j ⟨e,(t.table i).next⟩).setSlot i { t.table i with next := some j } with
    mostRecent := some (.pool j), poolCounter := t.poolCounter+1 }

theorem hashInsert_cases (h : hashInsert t a len np fd fl = .ok t') : ∃ i, slotOf a = .ok i ∧
    ((t.table i).startAddress = EMPTY ∧ t' = t.fillSlot i ⟨a,np,len,fd,fl,0⟩ ∨
      (t.table i).startAddress ≠ EMPTY ∧ ∃ j : PoolIdx, j.val = t.poolCounter ∧
        t' = t.pushNode i j ⟨a,np,len,fd,fl,0⟩) := by
  obtain ⟨i,hi,h⟩ := bind_ok h
  refine ⟨i,hi,?_⟩
  split at h
  · rename_i he
    cases h
    exact .inl ⟨he,rfl⟩
  · rename_i he
    split at h
    · rename_i hc
      cases h
      exact .inr ⟨he,⟨t.poolCounter,hc⟩,rfl,rfl⟩
    · cases h

theorem WF.notMem_chain (hw : WF t) (hj : t.poolCounter ≤ j.val) (k : Slot) : j ∉ t.chain k := by
  intro hm
  have := hw.fresh k j hm
  omega

theorem rechained_fillSlot (hw : WF t) (he : (t.table i).startAddress = EMPTY) (ha : e.startAddress ≠ EMPTY) :
    Rechained t (t.fillSlot i e) i [] := by
  constructor
  · exact fun k hk => update_of_ne hk _ _
  · exact fun _ _ _ _ => rfl
  · simpa [Table.fillSlot,Table.setSlot] using hw.empty i he
  · exact List.nodup_nil
  · simp
  · exact le_rfl
  · simp
  · simpa [Table.fillSlot,Table.setSlot] using fun h0 => absurd h0 ha
  · simp

theorem rechained_pushNode (hw : WF t) (he : (t.table i).startAddress ≠ EMPTY) (hc : j.val = t.poolCounter)
    (ha : e.startAddress ≠ EMPTY) : Rechained t (t.pushNode i j e) i (j :: t.chain i) := by
  have hj := hw.notMem_chain hc.ge
  constructor
  · exact fun k hk => update_of_ne hk _ _
  · intro k hk m hm
    have hne : m ≠ j := fun he' => hj k (he' ▸ hm)
    exact update_of_ne hne _ _
  · have hl := (hw.linked i).push (hj i)
    rw [← nexts_setPool t _ ⟨e,(t.table i).next⟩] at hl
    change Linked _ (update t.table i { t.table i with next := some j } i).next _
    rw [update_self]
    exact hl
  · exact List.nodup_cons.mpr ⟨hj i,hw.nodup i⟩
  · intro k hk m hm
    rcases List.mem_cons.mp hm with rfl | hm
    · exact hj k
    · exact fun hmk => hk (hw.apart i k m hm hmk).symm
  · exact Nat.le_succ _
  · intro m hm
    change m.val < t.poolCounter+1
    rcases List.mem_cons.mp hm with rfl | hm
    · omega
    · exact Nat.lt_succ_of_lt (hw.fresh i m hm)
  · simpa [Table.pushNode,Table.setSlot,Table.setPool] using fun h0 => absurd h0 he
  · intro m hm
    by_cases hmj : m = j
    · simpa [Table.pushNode,Table.setPool,Table.setSlot,hmj] using ha
    · have hm' := (List.mem_cons.mp hm).resolve_left hmj
      simpa [Table.pushNode,Table.setPool,Table.setSlot,hmj] using hw.live i m hm'

theorem bucket_fillSlot (hw : WF t) (he : (t.table i).startAddress = EMPTY) (ha : e.startAddress ≠ EMPTY) :
    (t.fillSlot i e).bucket i = insertEntry e (t.bucket i) := by
  have hch := ((rechained_fillSlot hw he ha).wf hw).2.1
  rw [bucket_of_empty he,bucket_of_live (by simpa [Table.fillSlot,Table.setSlot] using ha),hch]
  simp [Table.fillSlot,Table.setSlot,insertEntry]

theorem bucket_pushNode (hw : WF t) (he : (t.table i).startAddress ≠ EMPTY) (hc : j.val = t.poolCounter)
    (ha : e.startAddress ≠ EMPTY) : (t.pushNode i j e).bucket i = insertEntry e (t.bucket i) := by
  have hch := ((rechained_pushNode hw he hc ha).wf hw).2.1
  rw [bucket_of_live he,bucket_of_live (by simpa [Table.pushNode,Table.setSlot,Table.setPool] using he),hch]
  simp only [Table.pushNode,Table.setSlot,Table.setPool,update_self,insertEntry,List.map_cons,
    Table.poolEntry]
  congr 2
  apply List.map_congr_left
  intro m hm
  have hne : m ≠ j := fun he' => hw.notMem_chain hc.ge i (he' ▸ hm)
  exact congrArg Node.toEntry (update_of_ne hne _ _)

theorem hashInsert_ok (hw : WF t) (h : hashInsert t a len np fd fl = .ok t') :
    ∃ i, slotOf a = .ok i ∧ WF t' ∧ t'.bucket i = insertEntry ⟨a,np,len,fd,fl,0⟩ (t.bucket i) ∧
      (∀ k, k ≠ i → t'.bucket k = t.bucket k) ∧ t'.hashInit = t.hashInit ∧
      ∃ p, t'.mostRecent = some p ∧ (t'.deref p).toEntry = ⟨a,np,len,fd,fl,0⟩ := by
  obtain ⟨i,hi,hcases⟩ := hashInsert_cases h
  have ha : (⟨a,np,len,fd,fl,0⟩ : Entry).startAddress ≠ EMPTY := ne_empty_of_slotOf hi
  refine ⟨i,hi,?_⟩
  rcases hcases with ⟨he,rfl⟩ | ⟨he,j,hc,rfl⟩
  · obtain ⟨hwf,-,hother⟩ := (rechained_fillSlot hw he ha).wf hw
    refine ⟨hwf,bucket_fillSlot hw he ha,hother,rfl,.slot i,rfl,?_⟩
    simp [Table.fillSlot,Table.deref,Table.setSlot]
  · obtain ⟨hwf,-,hother⟩ := (rechained_pushNode hw he hc ha).wf hw
    refine ⟨hwf,bucket_pushNode hw he hc ha,hother,rfl,.pool j,rfl,?_⟩
    simp [Table.pushNode,Table.deref,Table.setSlot,Table.setPool]

/-- An insertion returns unless its slot index is negative or the pool is used up. -/
theorem hashInsert_returns (len np fd fl : Word) (hi : slotOf a = .ok i) (hroom : t.bucket i = [] ∨ t.poolCounter < MAX_WMMAP_INFO) :
    ∃ t', hashInsert t a len np fd fl = .ok t' := by
  unfold hashInsert
  rw [hi]
  change ∃ t', (if (t.table i).startAddress = EMPTY then _ else _) = Except.ok t'
  by_cases he : (t.table i).startAddress = EMPTY
  · rw [if_pos he]
    exact ⟨_,rfl⟩
  · rw [if_neg he]
    have hc : t.poolCounter < MAX_WMMAP_INFO := by
      rcases hroom with h | h
      · simp [Table.bucket,he] at h
      · exact h
    rw [dif_pos hc]
    exact ⟨_,rfl⟩

theorem hashInsert_counter (h : hashInsert t a len np fd fl = .ok t') (hi : slotOf a = .ok i) :
    t'.poolCounter = if t.bucket i = [] then t.poolCounter else t.poolCounter+1 := by
  obtain ⟨k,hk,hcases⟩ := hashInsert_cases h
  rw [hi] at hk
  cases hk
  rcases hcases with ⟨he,rfl⟩ | ⟨he,j,-,rfl⟩
  · rw [if_pos (bucket_of_empty he)]
    rfl
  · rw [if_neg (by rw [bucket_of_live he]; simp)]
    rfl

end Xv6.Wmap
