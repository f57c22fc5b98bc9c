import Xv6.Log.BufferSpecs

/-! # Writing and releasing held buffers -/
namespace Xv6.Bio
open Program Function

def filled (c : Bcache) (i : Fin NBUF) (v : Block) (dirty : Bool) : Bcache :=
  c.setBuf i { c.buf i with data := v, valid := true, dirty := dirty }

def written (c : Bcache) (i : Fin NBUF) (v : Block) : Bcache :=
  { filled c i v false with
    disk := Function.update c.disk (c.buf i).blockno v
    issued := c.issued ++ [((c.buf i).blockno,v)] }

theorem filled_self (c : Bcache) (i : Fin NBUF) (v : Block) (dirty : Bool) :
    (filled c i v dirty).buf i = { c.buf i with data := v, valid := true, dirty := dirty } := setBuf_self c i _
theorem filled_ne (c : Bcache) {i j : Fin NBUF} (h : j ≠ i) (v : Block) (dirty : Bool) :
    (filled c i v dirty).buf j = c.buf j := setBuf_ne c h _

theorem filled_dev (c : Bcache) (i j : Fin NBUF) (v : Block) (dirty : Bool) :
    ((filled c i v dirty).buf j).dev = (c.buf j).dev ∧
      ((filled c i v dirty).buf j).blockno = (c.buf j).blockno := by
  by_cases hj : j = i
  · subst j
    rw [filled_self]
    exact ⟨rfl,rfl⟩
  · rw [filled_ne c hj]
    exact ⟨rfl,rfl⟩

theorem filled_keepsHeld (c : Bcache) (i : Fin NBUF) (v : Block) (dirty : Bool) :
    KeepsHeld c (filled c i v dirty) := by
  intro j b hj
  by_cases hji : j = i
  · subst j
    exact ⟨by rw [filled_self]; exact hj.dev,by rw [filled_self]; exact hj.blockno,by rw [filled_self],
      by rw [filled_self]; exact hj.locked,by rw [filled_self]; exact hj.refcnt⟩
  · have he := filled_ne c hji v dirty
    exact ⟨he ▸ hj.dev,he ▸ hj.blockno,he ▸ hj.valid,he ▸ hj.locked,he ▸ hj.refcnt⟩

theorem Indexed.filled {c d : Bcache} (h : Indexed c) {i : Fin NBUF} (hi : (c.buf i).dev = ROOTDEV)
    (v : Block) {dirty : Bool} (hbuf : d.buf = (Bio.filled c i v dirty).buf) (hlru : d.lru = c.lru) :
    Indexed d := by
  have hfield := fun j => hbuf ▸ filled_dev c i j v dirty
  refine ⟨hlru ▸ h.lru_nodup,hlru ▸ h.mem_lru,?_,?_⟩
  · intro j k hj hk hjk
    rw [(hfield j).1] at hj
    rw [(hfield k).1] at hk
    rw [(hfield j).2,(hfield k).2] at hjk
    exact h.unique j k hj hk hjk
  · intro j hj
    rw [hbuf] at hj ⊢
    by_cases hji : j = i
    · subst j
      rw [filled_self]
      exact ⟨hi,rfl⟩
    · rw [filled_ne c hji] at hj ⊢
      exact h.dirty_valid j hj

/-- Filling a held buffer moves the visible contents of its own block only. The disk
may keep the old contents as long as the buffer stays dirty. -/
theorem Coherent.filled {c d : Bcache} {V : Disk} (h : Coherent c V) {i : Fin NBUF} {b : ℕ} (hi : Held c i b)
    (v : Block) {dirty : Bool} (hbuf : d.buf = (Bio.filled c i v dirty).buf) (hlru : d.lru = c.lru)
    (hsame : ∀ a, a ≠ b → d.disk a = c.disk a) (hown : dirty = false → d.disk b = v) :
    Coherent d (Function.update V b v) := by
  have hself : d.buf i = { c.buf i with data := v, valid := true, dirty := dirty } := by
    rw [hbuf,filled_self]
  have hne : ∀ j, j ≠ i → d.buf j = c.buf j := fun j hj => by rw [hbuf,filled_ne c hj]
  have hother : ∀ j, j ≠ i → (c.buf j).dev = ROOTDEV → (c.buf j).blockno ≠ b := by
    intro j hj hdev he
    exact hj (h.unique j i hdev hi.dev (he.trans hi.blockno.symm))
  refine ⟨h.toIndexed.filled hi.dev v hbuf hlru,?_,?_,?_⟩
  · intro j hj hv
    by_cases hji : j = i
    · subst j
      rw [hself]
      simp [hi.blockno]
    · rw [hne j hji] at hj hv ⊢
      rw [update_of_ne (hother j hji hj)]
      exact h.data j hj hv
  · intro a ha
    by_cases hab : a = b
    · subst a
      rw [update_self]
      apply hown
      by_contra hd
      refine ha i ?_ ?_
      · rw [hself]
        simpa using hd
      · rw [hself]
        exact hi.blockno
    · rw [update_of_ne hab,hsame a hab]
      apply h.clean a
      intro j hj
      by_cases hji : j = i
      · subst j
        rw [hi.blockno]
        exact Ne.symm hab
      · rw [← hne j hji]
        exact ha j (by rw [hne j hji]; exact hj)
  · intro j hj hv
    by_cases hji : j = i
    · subst j
      rw [hself]
      exact h.range i hi.dev hi.valid
    · rw [hne j hji] at hj hv ⊢
      exact h.range j hj hv

theorem written_indexed {c : Bcache} (h : Indexed c) {i : Fin NBUF} (hi : (c.buf i).dev = ROOTDEV)
    (v : Block) : Indexed (written c i v) :=
  have hbuf : (written c i v).buf = (filled c i v false).buf := rfl
  h.filled hi v hbuf rfl

theorem written_coherent {c : Bcache} {V : Disk} (h : Coherent c V) {i : Fin NBUF} {b : ℕ} (hi : Held c i b)
    (v : Block) : Coherent (written c i v) (Function.update V b v) := by
  have hbuf : (written c i v).buf = (filled c i v false).buf := rfl
  refine h.filled hi v hbuf rfl ?_ ?_
  · intro a ha
    exact update_of_ne (by rw [hi.blockno]; exact ha) _ _
  · intro _
    simp [written,hi.blockno]

theorem written_keepsHeld (c : Bcache) (i : Fin NBUF) (v : Block) : KeepsHeld c (written c i v) := by
  intro j b hj
  have h := filled_keepsHeld c i v false j b hj
  exact ⟨h.dev,h.blockno,h.valid,h.locked,h.refcnt⟩

theorem bwrite_cases {c : Bcache} {i : Fin NBUF} {b : ℕ} (hi : Held c i b) (v : Block) :
    (setData i v >>= fun _ => bwrite i) c =
      if FSSIZE ≤ b then .error .incorrectBlockno (c.setBuf i { c.buf i with data := v, dirty := true })
      else .ok () (written c i v) := by
  simp only [setData,bwrite,iderw,bind_apply,modify_apply,get_apply,set_apply,setBuf_self,setBuf_setBuf,
    hi.locked,Bool.not_true,Bool.false_eq_true,↓reduceIte,Bool.and_false,hi.blockno]
  split
  · simp
  · simp [written,filled,Bcache.setBuf,hi.locked,hi.blockno]

theorem bwrite_held {c : Bcache} {V : Disk} (h : Coherent c V) {i : Fin NBUF} {b : ℕ} (hi : Held c i b)
    (v : Block) : (setData i v >>= fun _ => bwrite i) c = .ok () (written c i v) := by
  have hr := h.range i hi.dev hi.valid
  rw [hi.blockno] at hr
  rw [bwrite_cases hi v,if_neg (by omega)]

theorem Idle.written {c : Bcache} {held : List (Fin NBUF)} (h : Idle c held) (i : Fin NBUF) (v : Block) :
    Idle (Bio.written c i v) held := by
  have hall : ∀ j, ((Bio.written c i v).buf j).refcnt = (c.buf j).refcnt ∧
      ((Bio.written c i v).buf j).locked = (c.buf j).locked ∧ ((Bio.written c i v).buf j).dirty = false := by
    intro j
    change ((Bio.filled c i v false).buf j).refcnt = _ ∧ ((Bio.filled c i v false).buf j).locked = _ ∧
      ((Bio.filled c i v false).buf j).dirty = _
    by_cases hji : j = i
    · subst j
      rw [filled_self]
      exact ⟨rfl,rfl,rfl⟩
    · rw [filled_ne c hji]
      exact ⟨rfl,rfl,h.clean j⟩
  constructor
  · intro j hj
    rw [(hall j).1,(hall j).2.1]
    exact h.free j hj
  · intro j hj
    rw [(hall j).1,(hall j).2.1]
    exact h.once j hj
  · exact fun j => (hall j).2.2

def released (c : Bcache) (i : Fin NBUF) : Bcache :=
  let b := { c.buf i with locked := false, refcnt := (c.buf i).refcnt - 1 }
  if b.refcnt = 0 then { c.setBuf i b with lru := i :: c.lru.erase i } else c.setBuf i b

theorem brelse_held {c : Bcache} {i : Fin NBUF} {b : ℕ} (hi : Held c i b) :
    brelse i c = .ok () (released c i) := by
  simp only [brelse,bind_apply,get_apply,hi.locked,Bool.not_true,Bool.false_eq_true,↓reduceIte,released]
  split <;> rfl

theorem released_buf (c : Bcache) (i : Fin NBUF) :
    (released c i).buf =
      Function.update c.buf i { c.buf i with locked := false, refcnt := (c.buf i).refcnt - 1 } := by
  unfold released
  dsimp only
  split <;> rfl

theorem released_sameDisk (c : Bcache) (i : Fin NBUF) : SameDisk c (released c i) := by
  unfold released
  dsimp only
  split <;> exact ⟨rfl,rfl⟩

theorem released_sameContents (c : Bcache) (i : Fin NBUF) : SameContents c (released c i) := by
  intro j
  rw [released_buf]
  by_cases hj : j = i
  · subst j
    simp
  · simp [hj]

theorem released_lru {c : Bcache} (h : Indexed c) (i : Fin NBUF) :
    (released c i).lru.Nodup ∧ ∀ j, j ∈ (released c i).lru := by
  unfold released
  dsimp only
  split
  · refine ⟨List.nodup_cons.mpr ⟨h.lru_nodup.not_mem_erase,h.lru_nodup.erase i⟩,?_⟩
    intro j
    by_cases hj : j = i
    · exact List.mem_cons.mpr (Or.inl hj)
    · exact List.mem_cons_of_mem _ ((List.mem_erase_of_ne hj).mpr (h.mem_lru j))
  · exact ⟨h.lru_nodup,h.mem_lru⟩

theorem released_indexed {c : Bcache} (h : Indexed c) (i : Fin NBUF) : Indexed (released c i) :=
  h.of_sameContents (released_sameContents c i) (released_lru h i).1 (released_lru h i).2

theorem released_coherent {c : Bcache} {V : Disk} (h : Coherent c V) (i : Fin NBUF) :
    Coherent (released c i) V :=
  h.of_sameContents (released_sameContents c i) (released_sameDisk c i).1 (released_lru h.toIndexed i).1
    (released_lru h.toIndexed i).2

theorem released_held {c : Bcache} {i j : Fin NBUF} {b : ℕ} (hj : Held c j b) (hne : j ≠ i) :
    Held (released c i) j b := by
  have he : (released c i).buf j = c.buf j := by rw [released_buf,update_of_ne hne]
  exact ⟨he ▸ hj.dev,he ▸ hj.blockno,he ▸ hj.valid,he ▸ hj.locked,he ▸ hj.refcnt⟩

theorem Idle.released {c : Bcache} {held held' : List (Fin NBUF)} (h : Idle c held) {i : Fin NBUF}
    (hi : i ∈ held) (hsub : ∀ j, j ∈ held' ↔ j ∈ held ∧ j ≠ i) : Idle (Bio.released c i) held' := by
  have hself : (Bio.released c i).buf i =
      { c.buf i with locked := false, refcnt := (c.buf i).refcnt - 1 } := by
    rw [released_buf,update_self]
  have hne : ∀ j, j ≠ i → (Bio.released c i).buf j = c.buf j := fun j hj => by
    rw [released_buf,update_of_ne hj]
  constructor
  · intro j hj
    by_cases hji : j = i
    · subst j
      rw [hself]
      exact ⟨by simp [(h.once i hi).1],rfl⟩
    · rw [hne j hji]
      exact h.free j (fun hm => hj ((hsub j).mpr ⟨hm,hji⟩))
  · intro j hj
    obtain ⟨hm,hji⟩ := (hsub j).mp hj
    rw [hne j hji]
    exact h.once j hm
  · intro j
    by_cases hji : j = i
    · subst j
      rw [hself]
      exact h.clean i
    · rw [hne j hji]
      exact h.clean j

end Xv6.Bio
