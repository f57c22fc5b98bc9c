import Xv6.Log.BufferCache

/-! # What the buffer operations do to a coherent cache

`bget` is inverted once; the specifications of `bread`, `bwrite` and `brelse`
follow from that. They speak about failing outcomes as well: no operation touches
the disk on its way to a panic or a wait.
-/
namespace Xv6.Bio
open Program

def SameDisk (c c' : Bcache) : Prop := c'.disk = c.disk ∧ c'.issued = c.issued

theorem SameDisk.trans {c d e : Bcache} (h : SameDisk c d) (h' : SameDisk d e) : SameDisk c e :=
  ⟨h'.1.trans h.1,h'.2.trans h.2⟩

def KeepsHeld (c c' : Bcache) : Prop := ∀ j b, Held c j b → Held c' j b

theorem acquiresleep_ok {c c' : Bcache} {i : Fin NBUF} {u : Unit} (h : acquiresleep i c = .ok u c') :
    (c.buf i).locked = false ∧ c' = c.setBuf i { c.buf i with locked := true } := by
  simp only [acquiresleep,bind_apply,get_apply] at h
  cases hl : (c.buf i).locked with
  | true => simp [hl] at h
  | false =>
    simp only [hl,Bool.false_eq_true,↓reduceIte,set_apply,EStateM.Result.ok.injEq] at h
    exact ⟨rfl,h.2.symm⟩

theorem acquiresleep_error {c c' : Bcache} {i : Fin NBUF} {e : Stop} (h : acquiresleep i c = .error e c') :
    c' = c ∧ (c.buf i).locked = true := by
  simp only [acquiresleep,bind_apply,get_apply] at h
  cases hl : (c.buf i).locked with
  | true =>
    simp only [hl,↓reduceIte,throw_apply,EStateM.Result.error.injEq] at h
    exact ⟨h.2.symm,rfl⟩
  | false => simp [hl] at h

def hit (c : Bcache) (i : Fin NBUF) : Bcache :=
  c.setBuf i { c.buf i with refcnt := (c.buf i).refcnt + 1, locked := true }

def recycled (c : Bcache) (b : ℕ) (i : Fin NBUF) : Bcache :=
  c.setBuf i { c.buf i with
    dev := ROOTDEV, blockno := b, valid := false, dirty := false, refcnt := 1, locked := true }

theorem setBuf_setBuf (c : Bcache) (i : Fin NBUF) (b b' : Buf) :
    (c.setBuf i b).setBuf i b' = c.setBuf i b' := by
  simp [Bcache.setBuf]

theorem bget_cases {c : Bcache} {b : ℕ} :
    (∃ i, c.lru.find? (c.cached b) = some i ∧ (c.buf i).locked = false ∧ bget b c = .ok i (hit c i)) ∨
    (∃ i, c.lru.find? (c.cached b) = none ∧ c.lru.reverse.find? c.unused = some i ∧
      (c.buf i).locked = false ∧ bget b c = .ok i (recycled c b i)) ∨
    (∃ e c', SameDisk c c' ∧ bget b c = .error e c' ∧
      ((∃ i, (c.cached b i = true ∨ c.unused i = true) ∧ (c.buf i).locked = true) ∨
        (c.lru.find? (c.cached b) = none ∧ c.lru.reverse.find? c.unused = none))) := by
  cases hf : c.lru.find? (c.cached b) with
  | some i =>
    have hi := List.find?_some hf
    cases ha : acquiresleep i (c.setBuf i { c.buf i with refcnt := (c.buf i).refcnt + 1 }) with
    | ok u c' =>
      obtain ⟨hl,rfl⟩ := acquiresleep_ok ha
      refine Or.inl ⟨i,rfl,by simpa using hl,?_⟩
      simp only [bget,bind_apply,get_apply,hf,set_apply,ha,pure_apply,hit,setBuf_self,setBuf_setBuf]
    | error e c' =>
      obtain ⟨hc,hl⟩ := acquiresleep_error ha
      refine Or.inr (Or.inr ⟨e,c',hc ▸ ⟨rfl,rfl⟩,?_,Or.inl ⟨i,Or.inl hi,by simpa using hl⟩⟩)
      simp only [bget,bind_apply,get_apply,hf,set_apply,ha]
  | none =>
    cases hr : c.lru.reverse.find? c.unused with
    | some i =>
      have hi := List.find?_some hr
      cases ha : acquiresleep i (c.setBuf i { c.buf i with
          dev := ROOTDEV, blockno := b, valid := false, dirty := false, refcnt := 1 }) with
      | ok u c' =>
        obtain ⟨hl,rfl⟩ := acquiresleep_ok ha
        refine Or.inr (Or.inl ⟨i,rfl,rfl,by simpa using hl,?_⟩)
        simp only [bget,bind_apply,get_apply,hf,hr,set_apply,ha,pure_apply,recycled,setBuf_self,setBuf_setBuf]
      | error e c' =>
        obtain ⟨hc,hl⟩ := acquiresleep_error ha
        refine Or.inr (Or.inr ⟨e,c',hc ▸ ⟨rfl,rfl⟩,?_,Or.inl ⟨i,Or.inr hi,by simpa using hl⟩⟩)
        simp only [bget,bind_apply,get_apply,hf,hr,set_apply,ha]
    | none =>
      refine Or.inr (Or.inr ⟨.bgetNoBuffers,c,⟨rfl,rfl⟩,?_,Or.inr ⟨rfl,rfl⟩⟩)
      simp only [bget,bind_apply,get_apply,hf,hr,throw_apply]

theorem hit_sameContents (c : Bcache) (i : Fin NBUF) : SameContents c (hit c i) :=
  SameContents.setBuf ⟨rfl,rfl,rfl,rfl,rfl⟩

theorem hit_indexed {c : Bcache} (h : Indexed c) (i : Fin NBUF) : Indexed (hit c i) :=
  h.of_sameContents (hit_sameContents c i) h.lru_nodup h.mem_lru

theorem hit_coherent {c : Bcache} {V : Disk} (h : Coherent c V) (i : Fin NBUF) : Coherent (hit c i) V :=
  h.of_sameContents (hit_sameContents c i) rfl h.lru_nodup h.mem_lru

theorem hit_keepsHeld (c : Bcache) (i : Fin NBUF) : KeepsHeld c (hit c i) := by
  intro j b hj
  by_cases hji : j = i
  · subst j
    exact ⟨by simpa [hit] using hj.dev,by simpa [hit] using hj.blockno,by simpa [hit] using hj.valid,
      by simp [hit],by simp [hit]⟩
  · have he : (hit c i).buf j = c.buf j := setBuf_ne c hji _
    exact ⟨he ▸ hj.dev,he ▸ hj.blockno,he ▸ hj.valid,he ▸ hj.locked,he ▸ hj.refcnt⟩

theorem unused_iff {c : Bcache} {i : Fin NBUF} :
    c.unused i = true ↔ (c.buf i).refcnt = 0 ∧ (c.buf i).dirty = false := by
  simp [Bcache.unused]

theorem cached_iff {c : Bcache} {b : ℕ} {i : Fin NBUF} :
    c.cached b i = true ↔ (c.buf i).dev = ROOTDEV ∧ (c.buf i).blockno = b := by
  simp [Bcache.cached]

theorem recycled_indexed {c : Bcache} (h : Indexed c) {b : ℕ} {i : Fin NBUF}
    (hf : c.lru.find? (c.cached b) = none) : Indexed (recycled c b i) :=
  h.recycle (not_cached_of_find_none h hf) rfl rfl

theorem recycled_coherent {c : Bcache} {V : Disk} (h : Coherent c V) {b : ℕ} {i : Fin NBUF}
    (hf : c.lru.find? (c.cached b) = none) (hi : c.unused i = true) : Coherent (recycled c b i) V :=
  h.recycle (not_cached_of_find_none h.toIndexed hf) rfl rfl rfl (unused_iff.mp hi).2

theorem recycled_keepsHeld {c : Bcache} {b : ℕ} {i : Fin NBUF} (hi : c.unused i = true) :
    KeepsHeld c (recycled c b i) := by
  intro j a hj
  have hji : j ≠ i := by
    rintro rfl
    have h0 := (unused_iff.mp hi).1
    have h1 := hj.refcnt
    omega
  have he : (recycled c b i).buf j = c.buf j := setBuf_ne c hji _
  exact ⟨he ▸ hj.dev,he ▸ hj.blockno,he ▸ hj.valid,he ▸ hj.locked,he ▸ hj.refcnt⟩

def loaded (c : Bcache) (i : Fin NBUF) : Bcache :=
  c.setBuf i { c.buf i with data := c.disk (c.buf i).blockno, valid := true }

theorem iderw_read {c : Bcache} {i : Fin NBUF} (hl : (c.buf i).locked = true)
    (hv : (c.buf i).valid = false) (hd : (c.buf i).dirty = false) :
    iderw i c = if FSSIZE ≤ (c.buf i).blockno then .error .incorrectBlockno c else .ok () (loaded c i) := by
  simp only [iderw,bind_apply,get_apply,hl,hv,hd,Bool.not_true,Bool.false_eq_true,↓reduceIte,
    Bool.not_false,Bool.and_true]
  split
  · rfl
  · simp [loaded,hl,hd]

theorem loaded_fields (c : Bcache) (i j : Fin NBUF) : ((loaded c i).buf j).dev = (c.buf j).dev ∧
    ((loaded c i).buf j).blockno = (c.buf j).blockno ∧ ((loaded c i).buf j).dirty = (c.buf j).dirty := by
  by_cases hj : j = i
  · subst j
    simp [loaded]
  · simp [loaded,setBuf_ne c hj]

theorem loaded_indexed {c : Bcache} (h : Indexed c) (i : Fin NBUF) : Indexed (loaded c i) := by
  refine ⟨h.lru_nodup,h.mem_lru,?_,?_⟩
  · intro j k hj hk hjk
    rw [(loaded_fields c i j).1] at hj
    rw [(loaded_fields c i k).1] at hk
    rw [(loaded_fields c i j).2.1,(loaded_fields c i k).2.1] at hjk
    exact h.unique j k hj hk hjk
  · intro j hj
    rw [(loaded_fields c i j).2.2] at hj
    obtain ⟨hdev,hv⟩ := h.dirty_valid j hj
    refine ⟨(loaded_fields c i j).1.trans hdev,?_⟩
    by_cases hji : j = i
    · subst j
      simp [loaded]
    · simpa [loaded,setBuf_ne c hji] using hv

theorem loaded_coherent {c : Bcache} {V : Disk} (h : Coherent c V) {i : Fin NBUF}
    (hdev : (c.buf i).dev = ROOTDEV) (hd : (c.buf i).dirty = false)
    (hr : (c.buf i).blockno < FSSIZE) : Coherent (loaded c i) V := by
  have hself : (loaded c i).buf i =
      { c.buf i with data := c.disk (c.buf i).blockno, valid := true } := setBuf_self c i _
  have hdisk : c.disk (c.buf i).blockno = V (c.buf i).blockno := by
    apply h.clean
    intro j hj he
    have := h.unique j i (h.dirty_valid j hj).1 hdev he
    subst j
    rw [hd] at hj
    exact absurd hj (by simp)
  refine ⟨loaded_indexed h.toIndexed i,?_,?_,?_⟩
  · intro j hj hv
    rcases setBuf_cases c i _ j with ⟨rfl,_⟩ | ⟨_,ej⟩
    · rw [hself]
      exact hdisk
    · rw [loaded,ej] at hj hv ⊢
      exact h.data j hj hv
  · intro b hb
    apply h.clean b
    intro j hj
    rw [← (loaded_fields c i j).2.1]
    exact hb j ((loaded_fields c i j).2.2 ▸ hj)
  · intro j hj hv
    rcases setBuf_cases c i _ j with ⟨rfl,_⟩ | ⟨_,ej⟩
    · rw [hself]
      exact hr
    · rw [loaded,ej] at hj hv ⊢
      exact h.range j hj hv

structure Got (c : Bcache) (i : Fin NBUF) (b : ℕ) : Prop where
  dev : (c.buf i).dev = ROOTDEV
  blockno : (c.buf i).blockno = b
  locked : (c.buf i).locked = true
  refcnt : 0 < (c.buf i).refcnt

theorem Idle.hit {c : Bcache} {held : List (Fin NBUF)} (h : Idle c held) {i : Fin NBUF}
    (hl : (c.buf i).locked = false) : Idle (Bio.hit c i) (i :: held) := by
  have hi : i ∉ held := by
    intro hm
    rw [(h.once i hm).2] at hl
    exact absurd hl (by simp)
  have hne : ∀ j, j ≠ i → (Bio.hit c i).buf j = c.buf j := fun j hj => setBuf_ne c hj _
  constructor
  · intro j hj
    rw [List.mem_cons,not_or] at hj
    rw [hne j hj.1]
    exact h.free j hj.2
  · intro j hj
    by_cases hji : j = i
    · subst j
      simp [Bio.hit,(h.free i hi).1]
    · rw [hne j hji]
      exact h.once j ((List.mem_cons.mp hj).resolve_left hji)
  · intro j
    rw [(hit_sameContents c i j).2.2.2.1]
    exact h.clean j

theorem Idle.recycled {c : Bcache} {held : List (Fin NBUF)} (h : Idle c held) {b : ℕ} {i : Fin NBUF} :
    Idle (Bio.recycled c b i) (i :: held) := by
  have hne : ∀ j, j ≠ i → (Bio.recycled c b i).buf j = c.buf j := fun j hj => setBuf_ne c hj _
  constructor
  · intro j hj
    rw [List.mem_cons,not_or] at hj
    rw [hne j hj.1]
    exact h.free j hj.2
  · intro j hj
    by_cases hji : j = i
    · subst j
      simp [Bio.recycled]
    · rw [hne j hji]
      exact h.once j ((List.mem_cons.mp hj).resolve_left hji)
  · intro j
    by_cases hji : j = i
    · subst j
      simp [Bio.recycled]
    · rw [hne j hji]
      exact h.clean j

theorem bget_spec {c : Bcache} {V : Disk} (h : Coherent c V) (b : ℕ) :
    match bget b c with
    | .ok i c' => Coherent c' V ∧ Got c' i b ∧ KeepsHeld c c' ∧ SameDisk c c' ∧
        ∀ held, Idle c held → Idle c' (i :: held)
    | .error _ c' => SameDisk c c' := by
  rcases bget_cases (c := c) (b := b) with ⟨i,hf,hl,he⟩ | ⟨i,hf,hr,_,he⟩ | ⟨e,c',hs,he,_⟩
  · rw [he]
    obtain ⟨hdev,hb⟩ := cached_iff.mp (List.find?_some hf)
    refine ⟨hit_coherent h i,⟨?_,?_,?_,?_⟩,hit_keepsHeld c i,⟨rfl,rfl⟩,fun held hi => hi.hit hl⟩
    · simpa [hit] using hdev
    · simpa [hit] using hb
    · simp [hit]
    · simp [hit]
  · rw [he]
    have hu := List.find?_some hr
    refine ⟨recycled_coherent h hf hu,⟨?_,?_,?_,?_⟩,recycled_keepsHeld hu,⟨rfl,rfl⟩,
      fun held hi => hi.recycled⟩
    all_goals simp [recycled]
  · rw [he]
    exact hs

theorem Idle.loaded {c : Bcache} {held : List (Fin NBUF)} (h : Idle c held) (i : Fin NBUF) :
    Idle (Bio.loaded c i) held := by
  have hall : ∀ j, ((Bio.loaded c i).buf j).refcnt = (c.buf j).refcnt ∧
      ((Bio.loaded c i).buf j).locked = (c.buf j).locked ∧
      ((Bio.loaded c i).buf j).dirty = (c.buf j).dirty := by
    intro j
    by_cases hji : j = i
    · subst j
      simp [Bio.loaded]
    · rw [show (Bio.loaded c i).buf j = c.buf j from setBuf_ne c hji _]
      exact ⟨rfl,rfl,rfl⟩
  constructor
  · intro j hj
    rw [(hall j).1,(hall j).2.1]
    exact h.free j hj
  · intro j hj
    rw [(hall j).1,(hall j).2.1]
    exact h.once j hj
  · intro j
    rw [(hall j).2.2]
    exact h.clean j

theorem loaded_keepsHeld (c : Bcache) (i : Fin NBUF) : KeepsHeld c (loaded c i) := by
  intro j b hj
  by_cases hji : j = i
  · subst j
    exact ⟨by simpa [loaded] using hj.dev,by simpa [loaded] using hj.blockno,by simp [loaded],
      by simpa [loaded] using hj.locked,by simpa [loaded] using hj.refcnt⟩
  · have he : (loaded c i).buf j = c.buf j := setBuf_ne c hji _
    exact ⟨he ▸ hj.dev,he ▸ hj.blockno,he ▸ hj.valid,he ▸ hj.locked,he ▸ hj.refcnt⟩

theorem bread_of_bget {c c' : Bcache} {b : ℕ} {i : Fin NBUF} (hg : bget b c = .ok i c') :
    bread b c = if (c'.buf i).valid then .ok i c' else (iderw i >>= fun _ => pure i) c' := by
  simp only [bread,bind_of_ok hg,bind_apply,get_apply]
  cases hv : (c'.buf i).valid <;> rfl

/-- `bread` returns a held buffer for the block and changes nothing the file system sees. -/
theorem bread_spec {c : Bcache} {V : Disk} (h : Coherent c V) (b : ℕ) :
    match bread b c with
    | .ok i c' => Coherent c' V ∧ Held c' i b ∧ KeepsHeld c c' ∧ SameDisk c c' ∧
        ∀ held, Idle c held → Idle c' (i :: held)
    | .error _ c' => SameDisk c c' := by
  have hspec := bget_spec h b
  cases hg : bget b c with
  | error e c' =>
    rw [hg] at hspec
    rw [bread,bind_of_error hg]
    exact hspec
  | ok i c' =>
    rw [hg] at hspec
    obtain ⟨hc,hgot,hkeep,hsame,hidle⟩ := hspec
    rw [bread_of_bget hg]
    cases hv : (c'.buf i).valid with
    | true => exact ⟨hc,⟨hgot.dev,hgot.blockno,hv,hgot.locked,hgot.refcnt⟩,hkeep,hsame,hidle⟩
    | false =>
      have hd : (c'.buf i).dirty = false := by
        by_contra hd
        have := (hc.dirty_valid i (by simpa using hd)).2
        rw [hv] at this
        exact absurd this (by simp)
      simp only [Bool.false_eq_true,↓reduceIte,bind_apply,iderw_read hgot.locked hv hd]
      by_cases hr : FSSIZE ≤ (c'.buf i).blockno
      · simp only [if_pos hr]
        exact hsame
      · simp only [if_neg hr,pure_apply]
        refine ⟨loaded_coherent hc hgot.dev hd (by omega),⟨?_,?_,?_,?_,?_⟩,?_,hsame,?_⟩
        · simpa [loaded] using hgot.dev
        · simpa [loaded] using hgot.blockno
        · simp [loaded]
        · simpa [loaded] using hgot.locked
        · simpa [loaded] using hgot.refcnt
        · exact fun j a hj => loaded_keepsHeld c' i j a (hkeep j a hj)
        · exact fun held hi => (hidle held hi).loaded i

theorem bread_ok_of_bget {c c1 c' : Bcache} {b : ℕ} {i j : Fin NBUF} (hg : bget b c = .ok j c1)
    (hl : (c1.buf j).locked = true) (hdv : (c1.buf j).dirty = true → (c1.buf j).valid = true)
    (h : bread b c = .ok i c') :
    j = i ∧ (((c1.buf i).valid = true ∧ c' = c1) ∨ ((c1.buf i).valid = false ∧ (c1.buf i).dirty = false ∧
        (c1.buf i).blockno < FSSIZE ∧ c' = loaded c1 i)) := by
  rw [bread_of_bget hg] at h
  cases hv : (c1.buf j).valid with
  | true =>
    rw [hv] at h
    cases h
    exact ⟨rfl,Or.inl ⟨hv,rfl⟩⟩
  | false =>
    have hd : (c1.buf j).dirty = false := by
      rw [← Bool.not_eq_true]
      intro hd
      rw [hdv hd] at hv
      cases hv
    simp only [hv,Bool.false_eq_true,↓reduceIte,bind_apply,iderw_read hl hv hd] at h
    by_cases hr : FSSIZE ≤ (c1.buf j).blockno
    · simp [if_pos hr] at h
    · simp only [if_neg hr,pure_apply,EStateM.Result.ok.injEq] at h
      obtain ⟨rfl,rfl⟩ := h
      exact ⟨rfl,Or.inr ⟨hv,hd,by omega,rfl⟩⟩

theorem bread_ok {c c' : Bcache} {b : ℕ} {i : Fin NBUF}
    (hdv : ∀ j, (c.buf j).dirty = true → (c.buf j).valid = true) (h : bread b c = .ok i c') :
    ∃ c1, ((c.cached b i = true ∧ (c.buf i).locked = false ∧ c1 = hit c i) ∨
        (c.lru.find? (c.cached b) = none ∧ c.unused i = true ∧ (c.buf i).locked = false ∧
          c1 = recycled c b i)) ∧
      (((c1.buf i).valid = true ∧ c' = c1) ∨ ((c1.buf i).valid = false ∧ (c1.buf i).dirty = false ∧
        (c1.buf i).blockno < FSSIZE ∧ c' = loaded c1 i)) := by
  rcases bget_cases (c := c) (b := b) with ⟨j,hf,hl,he⟩ | ⟨j,hf,hr,hl,he⟩ | ⟨e,d,_,he,_⟩
  · obtain ⟨rfl,ht⟩ := bread_ok_of_bget he (by simp [hit]) (by simpa [hit] using hdv j) h
    exact ⟨_,Or.inl ⟨List.find?_some hf,hl,rfl⟩,ht⟩
  · obtain ⟨rfl,ht⟩ := bread_ok_of_bget he (by simp [recycled]) (by simp [recycled]) h
    exact ⟨_,Or.inr ⟨hf,List.find?_some hr,hl,rfl⟩,ht⟩
  · rw [bread,bind_of_error he] at h
    cases h

theorem bread_indexed {c c' : Bcache} {b : ℕ} {i : Fin NBUF} (hc : Indexed c) (h : bread b c = .ok i c') :
    Indexed c' ∧ KeepsHeld c c' ∧ Held c' i b ∧ (c.buf i).locked = false ∧
      ∀ j, (c.buf j).dirty = true → (c'.buf j).dirty = true ∧ (c'.buf j).dev = (c.buf j).dev ∧
        (c'.buf j).blockno = (c.buf j).blockno := by
  obtain ⟨c1,hget,hload⟩ := bread_ok (fun j hj => (hc.dirty_valid j hj).2) h
  have h1 : Indexed c1 ∧ KeepsHeld c c1 ∧ Got c1 i b ∧ (c.buf i).locked = false ∧
      ∀ j, (c.buf j).dirty = true → (c1.buf j).dirty = true ∧ (c1.buf j).dev = (c.buf j).dev ∧
        (c1.buf j).blockno = (c.buf j).blockno := by
    rcases hget with ⟨hcb,hl,rfl⟩ | ⟨hf,hu,hl,rfl⟩
    · obtain ⟨hdev,hb⟩ := cached_iff.mp hcb
      refine ⟨hit_indexed hc i,hit_keepsHeld c i,⟨?_,?_,?_,?_⟩,hl,?_⟩
      · simpa [hit] using hdev
      · simpa [hit] using hb
      · simp [hit]
      · simp [hit]
      · intro j hj
        obtain ⟨h1,h2,_,h4,_⟩ := hit_sameContents c i j
        exact ⟨h4.trans hj,h1,h2⟩
    · refine ⟨recycled_indexed hc hf,recycled_keepsHeld hu,⟨?_,?_,?_,?_⟩,hl,?_⟩
      · simp [recycled]
      · simp [recycled]
      · simp [recycled]
      · simp [recycled]
      · intro j hj
        have hji : j ≠ i := by
          rintro rfl
          rw [(unused_iff.mp hu).2] at hj
          cases hj
        rw [show (recycled c b i).buf j = c.buf j from setBuf_ne c hji _]
        exact ⟨hj,rfl,rfl⟩
  obtain ⟨hi1,hk1,hg1,hl,hd1⟩ := h1
  rcases hload with ⟨hv,rfl⟩ | ⟨_,_,_,rfl⟩
  · exact ⟨hi1,hk1,⟨hg1.dev,hg1.blockno,hv,hg1.locked,hg1.refcnt⟩,hl,hd1⟩
  · refine ⟨loaded_indexed hi1 i,fun j a hj => loaded_keepsHeld c1 i j a (hk1 j a hj),⟨?_,?_,?_,?_,?_⟩,hl,?_⟩
    · simpa [loaded] using hg1.dev
    · simpa [loaded] using hg1.blockno
    · simp [loaded]
    · simpa [loaded] using hg1.locked
    · simpa [loaded] using hg1.refcnt
    · intro j hj
      obtain ⟨h1,h2,h3⟩ := loaded_fields c1 i j
      rw [h1,h2,h3]
      exact hd1 j hj

theorem bget_returns {c : Bcache} {V : Disk} (h : Coherent c V) {b : ℕ} {held : List (Fin NBUF)}
    (hi : Idle c held) (hlen : held.length < NBUF) (hne : ∀ i ∈ held, (c.buf i).blockno ≠ b) :
    ∃ i c', bget b c = .ok i c' := by
  rcases bget_cases (c := c) (b := b) with ⟨i,_,_,he⟩ | ⟨i,_,_,_,he⟩ | ⟨e,c',_,he,hbad⟩
  · exact ⟨i,_,he⟩
  · exact ⟨i,_,he⟩
  exfalso
  rcases hbad with ⟨i,hcu,hl⟩ | ⟨_,hnone⟩
  · have hm : i ∈ held := by
      by_contra hm
      rw [(hi.free i hm).2] at hl
      exact absurd hl (by simp)
    rcases hcu with hc | hu
    · exact hne i hm (cached_iff.mp hc).2
    · have h0 := (unused_iff.mp hu).1
      rw [(hi.once i hm).1] at h0
      omega
  · obtain ⟨i,hi'⟩ : ∃ i : Fin NBUF, i ∉ held := by
      by_contra hall
      push Not at hall
      have hsub : (Finset.univ : Finset (Fin NBUF)) ⊆ held.toFinset :=
        fun i _ => List.mem_toFinset.mpr (hall i)
      have hcard := Finset.card_le_card hsub
      rw [Finset.card_univ,Fintype.card_fin] at hcard
      have := List.toFinset_card_le held
      omega
    have hn := List.find?_eq_none.mp hnone i (List.mem_reverse.mpr (h.mem_lru i))
    exact hn (unused_iff.mpr ⟨(hi.free i hi').1,hi.clean i⟩)

/-- With few buffers in use, a block that nobody holds can always be read. -/
theorem bread_returns {c : Bcache} {V : Disk} (h : Coherent c V) {b : ℕ} {held : List (Fin NBUF)}
    (hi : Idle c held) (hlen : held.length < NBUF) (hb : b < FSSIZE)
    (hne : ∀ i ∈ held, (c.buf i).blockno ≠ b) : ∃ i c', bread b c = .ok i c' := by
  obtain ⟨i,c',he⟩ := bget_returns h hi hlen hne
  have hspec := bget_spec h b
  rw [he] at hspec
  obtain ⟨hc,hgot,_,_,hidle⟩ := hspec
  rw [bread_of_bget he]
  cases hv : (c'.buf i).valid with
  | true => exact ⟨i,c',rfl⟩
  | false =>
    have hr : ¬ FSSIZE ≤ (c'.buf i).blockno := by
      rw [hgot.blockno]
      omega
    refine ⟨i,loaded c' i,?_⟩
    simp only [Bool.false_eq_true,↓reduceIte,bind_apply,
      iderw_read hgot.locked hv ((hidle held hi).clean i),if_neg hr,pure_apply]

end Xv6.Bio
