import Xv6.Log.Recovery

/-! # The cache while a group of operations runs

Operations read, modify, record and release buffers in any interleaving; a
modified buffer must be recorded with `log_write` before it is released. Between
the two its contents are ahead of the disk without being dirty, so the invariant
looks at the cache with those buffers marked dirty as well.
-/
namespace Xv6.Log
open Bio ByteField Program RedoLog Function

def logCheck (g : Geometry) (outstanding : ℤ) (lh : LogHeader) : Option Stop :=
  if LOGSIZE ≤ lh.n ∨ g.size-1 ≤ lh.n then some .tooBigTransaction
  else if outstanding < 1 then some .outsideTransaction
  else none

def logWrite (g : Geometry) (outstanding : ℤ) (lh : LogHeader) (i : Fin NBUF) : BioM LogHeader := do
  if let some e := logCheck g outstanding lh then throw e
  let c ← get
  match lh.record (c.buf i).blockno with
  | some lh' =>
    set (c.setBuf i { c.buf i with dirty := true })
    pure lh'
  | none => throw .headerOverflow

structure GroupState where
  c : Bcache
  modified : Finset (Fin NBUF)
  lh : LogHeader

inductive GroupStep (g : Geometry) : GroupState → GroupState → Prop
  | read {s : GroupState} {b : ℕ} {i : Fin NBUF} {c' : Bcache} :
      bread b s.c = .ok i c' → GroupStep g s { s with c := c' }
  | modify {s : GroupState} {b : ℕ} {i : Fin NBUF} (v : Block) :
      Held s.c i b → GroupStep g s
        { s with c := s.c.setBuf i { s.c.buf i with data := v }, modified := insert i s.modified }
  | record {s : GroupState} {b : ℕ} {outstanding : ℤ} {i : Fin NBUF} {c' : Bcache} {lh' : LogHeader} :
      Held s.c i b → logWrite g outstanding s.lh i s.c = .ok lh' c' →
        GroupStep g s ⟨c',s.modified.erase i,lh'⟩
  | release {s : GroupState} {i : Fin NBUF} {c' : Bcache} :
      i ∉ s.modified → brelse i s.c = .ok () c' → GroupStep g s { s with c := c' }

def pinned (P : Finset (Fin NBUF)) (c : Bcache) : Bcache :=
  { c with buf := fun i => { c.buf i with dirty := (c.buf i).dirty || decide (i ∈ P) } }

theorem pinned_empty (c : Bcache) : pinned ∅ c = c := by simp [pinned]

theorem pinned_setBuf (P : Finset (Fin NBUF)) (c : Bcache) (i : Fin NBUF) (b : Buf) :
    pinned P (c.setBuf i b) = (pinned P c).setBuf i { b with dirty := b.dirty || decide (i ∈ P) } := by
  simp only [pinned,Bcache.setBuf,Bcache.mk.injEq,true_and,and_true]
  funext j
  by_cases hj : j = i
  · subst j
    simp
  · simp [hj]

theorem pinned_hit (P : Finset (Fin NBUF)) (c : Bcache) (i : Fin NBUF) :
    pinned P (hit c i) = hit (pinned P c) i := by
  rw [hit,pinned_setBuf]
  rfl

theorem pinned_recycled {P : Finset (Fin NBUF)} (c : Bcache) (b : ℕ) {i : Fin NBUF} (hi : i ∉ P) :
    pinned P (recycled c b i) = recycled (pinned P c) b i := by
  rw [recycled,pinned_setBuf]
  simp [recycled,pinned,hi]

theorem pinned_loaded (P : Finset (Fin NBUF)) (c : Bcache) (i : Fin NBUF) :
    pinned P (loaded c i) = loaded (pinned P c) i := by
  rw [loaded,pinned_setBuf]
  rfl

theorem pinned_released (P : Finset (Fin NBUF)) (c : Bcache) (i : Fin NBUF) :
    pinned P (released c i) = released (pinned P c) i := by
  unfold released
  dsimp only
  have hb : ((pinned P c).buf i).refcnt = (c.buf i).refcnt := rfl
  rw [hb]
  split
  · have h := pinned_setBuf P c i { c.buf i with locked := false, refcnt := (c.buf i).refcnt - 1 }
    have h' := congrArg (fun d : Bcache => { d with lru := i :: c.lru.erase i }) h
    exact h'
  · rw [pinned_setBuf]
    rfl

/-- The state of a running group that started from the disk `d`. `V` is what its
operations see. -/
structure Grouped (g : Geometry) (d V : Disk) (s : GroupState) : Prop where
  coherent : Coherent (pinned s.modified s.c) V
  disk : s.c.disk = d
  count : s.lh.n ≤ LOGSIZE
  room : s.lh.n ≤ g.size-1
  dirty : ∀ i, (s.c.buf i).dirty = true → (s.c.buf i).blockno ∈ s.lh.blocks
  inUse : ∀ i ∈ s.modified, 0 < (s.c.buf i).refcnt
  onDisk : ∀ b ∈ s.lh.blocks, b < FSSIZE

namespace Grouped
variable {g : Geometry} {d V : Disk} {s : GroupState}

theorem dirty_valid (h : Grouped g d V s) {i : Fin NBUF} (hi : (s.c.buf i).dirty = true) :
    (s.c.buf i).valid = true :=
  (h.coherent.dirty_valid i (by simp [pinned,hi])).2

theorem not_unused (h : Grouped g d V s) {i : Fin NBUF} (hi : s.c.unused i = true) :
    i ∉ s.modified ∧ (pinned s.modified s.c).unused i = true := by
  obtain ⟨h0,hd⟩ := unused_iff.mp hi
  have hm : i ∉ s.modified := by
    intro hm
    have := h.inUse i hm
    omega
  exact ⟨hm,unused_iff.mpr ⟨h0,by simp [pinned,hd,hm]⟩⟩

theorem hit (h : Grouped g d V s) (i : Fin NBUF) : Grouped g d V { s with c := Bio.hit s.c i } := by
  have hs := hit_sameContents s.c i
  constructor
  · rw [pinned_hit]
    exact hit_coherent h.coherent i
  · exact h.disk
  · exact h.count
  · exact h.room
  · intro j hj
    rw [(hs j).2.1]
    exact h.dirty j ((hs j).2.2.2.1 ▸ hj)
  · intro j hj
    by_cases hji : j = i
    · subst j
      simp [Bio.hit]
    · rw [show (Bio.hit s.c i).buf j = s.c.buf j from setBuf_ne _ hji _]
      exact h.inUse j hj
  · exact h.onDisk

theorem recycled (h : Grouped g d V s) {b : ℕ} {i : Fin NBUF} (hf : s.c.lru.find? (s.c.cached b) = none)
    (hi : s.c.unused i = true) : Grouped g d V { s with c := Bio.recycled s.c b i } := by
  obtain ⟨hm,hu⟩ := h.not_unused hi
  have hne : ∀ j, j ≠ i → (Bio.recycled s.c b i).buf j = s.c.buf j := fun j hj => setBuf_ne _ hj _
  constructor
  · rw [pinned_recycled s.c b hm]
    exact recycled_coherent h.coherent hf hu
  · exact h.disk
  · exact h.count
  · exact h.room
  · intro j hj
    have hji : j ≠ i := by
      rintro rfl
      simp [Bio.recycled] at hj
    rw [hne j hji] at hj ⊢
    exact h.dirty j hj
  · intro j hj
    rw [hne j (fun he => hm (he ▸ hj))]
    exact h.inUse j hj
  · exact h.onDisk

theorem loaded (h : Grouped g d V s) {i : Fin NBUF} (hdev : (s.c.buf i).dev = ROOTDEV)
    (hv : (s.c.buf i).valid = false) (hd : (s.c.buf i).dirty = false) (hb : (s.c.buf i).blockno < FSSIZE) :
    Grouped g d V { s with c := Bio.loaded s.c i } := by
  have hm : i ∉ s.modified := by
    intro hm
    have := (h.coherent.dirty_valid i (by simp [pinned,hm])).2
    rw [show ((pinned s.modified s.c).buf i).valid = (s.c.buf i).valid from rfl,hv] at this
    cases this
  have hfields : ∀ j, ((Bio.loaded s.c i).buf j).dirty = (s.c.buf j).dirty ∧
      ((Bio.loaded s.c i).buf j).blockno = (s.c.buf j).blockno ∧
      ((Bio.loaded s.c i).buf j).refcnt = (s.c.buf j).refcnt := by
    intro j
    by_cases hji : j = i
    · subst j
      simp [Bio.loaded]
    · simp [Bio.loaded,setBuf_ne _ hji]
  constructor
  · rw [pinned_loaded]
    exact loaded_coherent h.coherent hdev (by simp [pinned,hd,hm]) hb
  · exact h.disk
  · exact h.count
  · exact h.room
  · intro j hj
    rw [(hfields j).2.1]
    exact h.dirty j ((hfields j).1 ▸ hj)
  · intro j hj
    rw [(hfields j).2.2]
    exact h.inUse j hj
  · exact h.onDisk

theorem read (h : Grouped g d V s) {b : ℕ} {i : Fin NBUF} {c' : Bcache} (hr : bread b s.c = .ok i c') :
    Grouped g d V { s with c := c' } := by
  obtain ⟨c1,hget,hload⟩ := bread_ok (fun j => h.dirty_valid) hr
  have h1 : Grouped g d V { s with c := c1 } ∧ (c1.buf i).dev = ROOTDEV := by
    rcases hget with ⟨hc,_,rfl⟩ | ⟨hf,hu,_,rfl⟩
    · exact ⟨h.hit i,by simpa [Bio.hit] using (cached_iff.mp hc).1⟩
    · exact ⟨h.recycled hf hu,by simp [Bio.recycled]⟩
  rcases hload with ⟨_,rfl⟩ | ⟨hv,hd,hlt,rfl⟩
  · exact h1.1
  · exact h1.1.loaded h1.2 hv hd hlt

theorem modify (h : Grouped g d V s) {b : ℕ} {i : Fin NBUF} (hi : Held s.c i b) (v : Block) :
    Grouped g d (Function.update V b v)
      { s with c := s.c.setBuf i { s.c.buf i with data := v }, modified := insert i s.modified } := by
  have hheld : Held (pinned s.modified s.c) i b := ⟨hi.dev,hi.blockno,hi.valid,hi.locked,hi.refcnt⟩
  constructor
  · have hbuf : (pinned (insert i s.modified) (s.c.setBuf i { s.c.buf i with data := v })).buf =
        (filled (pinned s.modified s.c) i v true).buf := by
      funext j
      by_cases hj : j = i
      · subst j
        simp [pinned,filled,hi.valid]
      · simp [pinned,filled,setBuf_ne _ hj,hj]
    exact h.coherent.filled hheld v hbuf rfl (fun _ _ => rfl) (fun hf => by cases hf)
  · exact h.disk
  · exact h.count
  · exact h.room
  · intro j hj
    by_cases hji : j = i
    · subst j
      simp only [setBuf_self] at hj ⊢
      exact h.dirty i hj
    · rw [setBuf_ne _ hji] at hj ⊢
      exact h.dirty j hj
  · intro j hj
    by_cases hji : j = i
    · subst j
      rw [setBuf_self]
      exact hi.refcnt
    · rw [setBuf_ne _ hji]
      exact h.inUse j ((Finset.mem_insert.mp hj).resolve_left hji)
  · exact h.onDisk

end Grouped

theorem logCheck_none {g : Geometry} {outstanding : ℤ} {lh : LogHeader} :
    logCheck g outstanding lh = none ↔ lh.n < LOGSIZE ∧ lh.n < g.size-1 ∧ 1 ≤ outstanding := by
  unfold logCheck
  split
  · simp only [reduceCtorEq,false_iff]
    omega
  · split
    · simp only [reduceCtorEq,false_iff]
      omega
    · simp only [true_iff]
      omega

theorem logWrite_ok {g : Geometry} {outstanding : ℤ} {lh lh' : LogHeader} {i : Fin NBUF} {c c' : Bcache}
    (h : logWrite g outstanding lh i c = .ok lh' c') :
    lh.n < LOGSIZE ∧ lh.n < g.size-1 ∧ lh.record (c.buf i).blockno = some lh' ∧
      c' = c.setBuf i { c.buf i with dirty := true } := by
  simp only [logWrite] at h
  cases hk : logCheck g outstanding lh with
  | some e =>
    simp only [hk,bind_apply,throw_apply] at h
    cases h
  | none =>
    obtain ⟨h1,h2,_⟩ := logCheck_none.mp hk
    simp only [hk,bind_apply,get_apply] at h
    cases hr : lh.record (c.buf i).blockno with
    | none => simp [hr] at h
    | some lh1 =>
      simp only [hr,bind_apply,set_apply,pure_apply,EStateM.Result.ok.injEq] at h
      obtain ⟨rfl,rfl⟩ := h
      exact ⟨h1,h2,rfl,rfl⟩

theorem LogHeader.record_mem {lh lh' : LogHeader} {b : ℕ} (hn : lh.n ≤ LOGSIZE)
    (h : lh.record b = some lh') (a : ℕ) : a ∈ lh'.blocks ↔ a ∈ lh.blocks ∨ a = b := by
  rw [(LogHeader.record_blocks hn h).1]
  split
  · rename_i hb
    constructor
    · exact Or.inl
    · rintro (ha | rfl)
      · exact ha
      · exact hb
  · simp

theorem LogHeader.record_n_le {lh lh' : LogHeader} {b : ℕ} (h : lh.record b = some lh') :
    lh'.n ≤ lh.n + 1 := by
  simp only [LogHeader.record] at h
  split at h
  · cases h
    dsimp only
    split <;> omega
  · cases h

theorem Grouped.record {g : Geometry} {d V : Disk} {s : GroupState} (h : Grouped g d V s) {b : ℕ}
    {outstanding : ℤ} {i : Fin NBUF} {c' : Bcache} {lh' : LogHeader} (hi : Held s.c i b)
    (hw : logWrite g outstanding s.lh i s.c = .ok lh' c') : Grouped g d V ⟨c',s.modified.erase i,lh'⟩ := by
  obtain ⟨hn,hroom,hr,rfl⟩ := logWrite_ok hw
  rw [hi.blockno] at hr
  have hmem := LogHeader.record_mem h.count hr
  have hheld : Held (pinned s.modified s.c) i b := ⟨hi.dev,hi.blockno,hi.valid,hi.locked,hi.refcnt⟩
  constructor
  · have hbuf : (pinned (s.modified.erase i) (s.c.setBuf i { s.c.buf i with dirty := true })).buf =
        (filled (pinned s.modified s.c) i (s.c.buf i).data true).buf := by
      funext j
      by_cases hj : j = i
      · subst j
        simp [pinned,filled,hi.valid]
      · simp [pinned,filled,setBuf_ne _ hj,hj]
    have hsame : (s.c.buf i).data = V b := hi.blockno ▸ h.coherent.data i hi.dev hi.valid
    have hc := h.coherent.filled hheld (s.c.buf i).data hbuf rfl (fun _ _ => rfl) (fun hf => by cases hf)
    rwa [hsame,update_eq_self] at hc
  · exact h.disk
  · exact (LogHeader.record_blocks h.count hr).2
  · have := LogHeader.record_n_le hr
    dsimp only
    omega
  · intro j hj
    by_cases hji : j = i
    · subst j
      simp only [setBuf_self]
      exact (hmem _).mpr (Or.inr hi.blockno)
    · simp only [setBuf_ne _ hji] at hj ⊢
      exact (hmem _).mpr (Or.inl (h.dirty j hj))
  · intro j hj
    obtain ⟨hji,hm⟩ := Finset.mem_erase.mp hj
    simp only [setBuf_ne _ hji]
    exact h.inUse j hm
  · intro a ha
    rcases (hmem a).mp ha with ha | rfl
    · exact h.onDisk a ha
    · have := h.coherent.range i hi.dev hi.valid
      rw [← hi.blockno]
      exact this

theorem brelse_ok {i : Fin NBUF} {c c' : Bcache} (h : brelse i c = .ok () c') : c' = released c i := by
  simp only [brelse,bind_apply,get_apply] at h
  cases hl : (c.buf i).locked with
  | false => simp [hl] at h
  | true =>
    simp only [hl,Bool.not_true,Bool.false_eq_true,↓reduceIte] at h
    unfold released
    dsimp only
    split at h
    · rename_i h0
      rw [if_pos h0]
      simpa using h.symm
    · rename_i h0
      rw [if_neg h0]
      simpa using h.symm

theorem Grouped.release {g : Geometry} {d V : Disk} {s : GroupState} (h : Grouped g d V s) {i : Fin NBUF}
    {c' : Bcache} (hi : i ∉ s.modified) (hr : brelse i s.c = .ok () c') : Grouped g d V { s with c := c' } := by
  rw [brelse_ok hr]
  constructor
  · rw [pinned_released]
    exact released_coherent h.coherent i
  · exact (released_sameDisk s.c i).1.trans h.disk
  · exact h.count
  · exact h.room
  · intro j hj
    rw [released_buf] at hj ⊢
    by_cases hji : j = i
    · subst j
      simp only [update_self] at hj ⊢
      exact h.dirty i hj
    · simp only [update_of_ne hji] at hj ⊢
      exact h.dirty j hj
  · intro j hj
    have hji : j ≠ i := fun he => hi (he ▸ hj)
    rw [released_buf,update_of_ne hji]
    exact h.inUse j hj
  · exact h.onDisk

theorem Grouped.step {g : Geometry} {d V : Disk} {s t : GroupState} (h : Grouped g d V s)
    (hst : GroupStep g s t) : ∃ V', Grouped g d V' t := by
  cases hst with
  | read hr => exact ⟨V,h.read hr⟩
  | modify v hi => exact ⟨_,h.modify hi v⟩
  | record hi hw => exact ⟨V,h.record hi hw⟩
  | release hi hr => exact ⟨V,h.release hi hr⟩

structure Quiet (g : Geometry) (s : GroupState) : Prop where
  coherent : Coherent s.c s.c.disk
  clean : ∀ i, (s.c.buf i).dirty = false
  modified : s.modified = ∅
  header : diskCount (s.c.disk g.start) = 0
  count : s.lh.n = 0

theorem Quiet.grouped {g : Geometry} {s : GroupState} (h : Quiet g s) : Grouped g s.c.disk s.c.disk s := by
  have hb : s.lh.blocks = [] := by simp [LogHeader.blocks,h.count]
  constructor
  · rw [h.modified,pinned_empty]
    exact h.coherent
  · rfl
  · simp [h.count]
  · simp [h.count]
  · intro i hi
    rw [h.clean i] at hi
    cases hi
  · simp [h.modified]
  · simp [hb]

theorem Grouped.run {g : Geometry} {s t : GroupState} (h : Quiet g s)
    (hrun : Relation.ReflTransGen (GroupStep g) s t) : ∃ V, Grouped g s.c.disk V t := by
  induction hrun with
  | refl => exact ⟨_,h.grouped⟩
  | tail _ hst ih =>
    obtain ⟨V,hV⟩ := ih
    exact hV.step hst

end Xv6.Log
