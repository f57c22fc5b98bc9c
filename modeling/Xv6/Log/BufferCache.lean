import Xv6.Param
import Xv6.Library.ByteField
import Xv6.Library.Program

/-! # The buffer cache and the disk behind it

The cache is the literal array of `NBUF` buffers with its recency list. A disk
command completes as one atomic block transfer; writes are also recorded in issue
order, so that a crash can be placed between any two of them.
-/
namespace Xv6.Bio
open ByteField

abbrev Block := Bytes BSIZE
abbrev Disk := ℕ → Block

inductive Stop
  | bgetNoBuffers
  | bwriteUnlocked
  | brelseUnlocked
  | iderwUnlocked
  | iderwNothingToDo
  | incorrectBlockno
  | waiting
  | tooBigTransaction
  | outsideTransaction
  | logCommitting
  | headerOverflow
  deriving DecidableEq

structure Buf where
  dev : ℕ
  blockno : ℕ
  refcnt : ℕ
  locked : Bool
  valid : Bool
  dirty : Bool
  data : Block

/-- The device `ROOTDEV` together with the cache. `lru` lists the buffers from the
most to the least recently released one. -/
structure Bcache where
  disk : Disk
  issued : List (ℕ × Block)
  buf : Fin NBUF → Buf
  lru : List (Fin NBUF)

abbrev BioM := EStateM Stop Bcache

def Bcache.setBuf (c : Bcache) (i : Fin NBUF) (b : Buf) : Bcache :=
  { c with buf := Function.update c.buf i b }
@[simp] theorem setBuf_lru (c : Bcache) (i : Fin NBUF) (b : Buf) : (c.setBuf i b).lru = c.lru := rfl

@[simp] theorem setBuf_self (c : Bcache) (i : Fin NBUF) (b : Buf) : (c.setBuf i b).buf i = b := by
  simp [Bcache.setBuf]
theorem setBuf_ne (c : Bcache) {i j : Fin NBUF} (h : j ≠ i) (b : Buf) : (c.setBuf i b).buf j = c.buf j := by
  simp [Bcache.setBuf,h]

def acquiresleep (i : Fin NBUF) : BioM Unit := do
  let c ← get
  if (c.buf i).locked then throw .waiting
  else set (c.setBuf i { c.buf i with locked := true })

def Bcache.cached (c : Bcache) (blockno : ℕ) (i : Fin NBUF) : Bool :=
  (c.buf i).dev == ROOTDEV && (c.buf i).blockno == blockno

def Bcache.unused (c : Bcache) (i : Fin NBUF) : Bool := (c.buf i).refcnt == 0 && !(c.buf i).dirty

def bget (blockno : ℕ) : BioM (Fin NBUF) := do
  let c ← get
  match c.lru.find? (c.cached blockno) with
  | some i =>
    set (c.setBuf i { c.buf i with refcnt := (c.buf i).refcnt + 1 })
    acquiresleep i
    pure i
  | none =>
    match c.lru.reverse.find? c.unused with
    | some i =>
      set (c.setBuf i { c.buf i with
        dev := ROOTDEV, blockno := blockno, valid := false, dirty := false, refcnt := 1 })
      acquiresleep i
      pure i
    | none => throw .bgetNoBuffers

def iderw (i : Fin NBUF) : BioM Unit := do
  let c ← get
  let b := c.buf i
  if !b.locked then throw .iderwUnlocked
  else if b.valid && !b.dirty then throw .iderwNothingToDo
  else if FSSIZE ≤ b.blockno then throw .incorrectBlockno
  else if b.dirty then
    set { c.setBuf i { b with valid := true, dirty := false } with
      disk := Function.update c.disk b.blockno b.data
      issued := c.issued ++ [(b.blockno,b.data)] }
  else set (c.setBuf i { b with data := c.disk b.blockno, valid := true })

def bread (blockno : ℕ) : BioM (Fin NBUF) := do
  let i ← bget blockno
  let c ← get
  if !(c.buf i).valid then iderw i
  pure i

def bwrite (i : Fin NBUF) : BioM Unit := do
  let c ← get
  if !(c.buf i).locked then throw .bwriteUnlocked
  else
    set (c.setBuf i { c.buf i with dirty := true })
    iderw i

def brelse (i : Fin NBUF) : BioM Unit := do
  let c ← get
  if !(c.buf i).locked then throw .brelseUnlocked
  else
    let b := { c.buf i with locked := false, refcnt := (c.buf i).refcnt - 1 }
    if b.refcnt = 0 then set { c.setBuf i b with lru := i :: c.lru.erase i }
    else set (c.setBuf i b)

def setData (i : Fin NBUF) (v : Block) : BioM Unit :=
  modify (fun c => c.setBuf i { c.buf i with data := v })

def Bcache.view (c : Bcache) (b : ℕ) : Block :=
  match c.lru.find? (fun i => c.cached b i && (c.buf i).valid) with
  | some i => (c.buf i).data
  | none => c.disk b

/-- The cache and the disk right after power-up; `binit` links every buffer in at the front. -/
def boot (d : Disk) : Bcache where
  disk := d
  issued := []
  buf _ := ⟨0,0,0,false,false,false,fun _ => 0⟩
  lru := (List.finRange NBUF).reverse

structure Indexed (c : Bcache) : Prop where
  lru_nodup : c.lru.Nodup
  mem_lru : ∀ i, i ∈ c.lru
  unique : ∀ i j, (c.buf i).dev = ROOTDEV → (c.buf j).dev = ROOTDEV →
    (c.buf i).blockno = (c.buf j).blockno → i = j
  dirty_valid : ∀ i, (c.buf i).dirty = true → (c.buf i).dev = ROOTDEV ∧ (c.buf i).valid = true

/-- `V` is what the file system sees through the cache: valid buffers hold it, and
so does the disk wherever no buffer is dirty. -/
structure Coherent (c : Bcache) (V : Disk) : Prop extends Indexed c where
  data : ∀ i, (c.buf i).dev = ROOTDEV → (c.buf i).valid = true → (c.buf i).data = V (c.buf i).blockno
  clean : ∀ b, (∀ i, (c.buf i).dirty = true → (c.buf i).blockno ≠ b) → c.disk b = V b
  range : ∀ i, (c.buf i).dev = ROOTDEV → (c.buf i).valid = true → (c.buf i).blockno < FSSIZE

structure Held (c : Bcache) (i : Fin NBUF) (b : ℕ) : Prop where
  dev : (c.buf i).dev = ROOTDEV
  blockno : (c.buf i).blockno = b
  valid : (c.buf i).valid = true
  locked : (c.buf i).locked = true
  refcnt : 0 < (c.buf i).refcnt

structure Idle (c : Bcache) (held : List (Fin NBUF)) : Prop where
  free : ∀ i, i ∉ held → (c.buf i).refcnt = 0 ∧ (c.buf i).locked = false
  once : ∀ i ∈ held, (c.buf i).refcnt = 1 ∧ (c.buf i).locked = true
  clean : ∀ i, (c.buf i).dirty = false

theorem boot_indexed (d : Disk) : Indexed (boot d) := by
  have hdev : ∀ i, ((boot d).buf i).dev ≠ ROOTDEV := fun i => by simp [boot]
  constructor
  · exact List.nodup_reverse.mpr (List.nodup_finRange NBUF)
  · exact fun i => List.mem_reverse.mpr (List.mem_finRange i)
  · exact fun i _ hi => absurd hi (hdev i)
  · intro i hi
    simp [boot] at hi

theorem boot_coherent (d : Disk) : Coherent (boot d) d := by
  have hdev : ∀ i, ((boot d).buf i).dev ≠ ROOTDEV := fun i => by simp [boot]
  refine ⟨boot_indexed d,?_,?_,?_⟩
  · exact fun i hi => absurd hi (hdev i)
  · exact fun _ _ => rfl
  · exact fun i hi => absurd hi (hdev i)

theorem boot_idle (d : Disk) : Idle (boot d) [] :=
  ⟨fun _ _ => ⟨rfl,rfl⟩,fun i hi => absurd hi (by simp),fun _ => rfl⟩

def SameContents (c c' : Bcache) : Prop :=
  ∀ i, (c'.buf i).dev = (c.buf i).dev ∧ (c'.buf i).blockno = (c.buf i).blockno ∧
    (c'.buf i).valid = (c.buf i).valid ∧ (c'.buf i).dirty = (c.buf i).dirty ∧
    (c'.buf i).data = (c.buf i).data

theorem Indexed.of_sameContents {c c' : Bcache} (h : Indexed c) (hs : SameContents c c')
    (hnd : c'.lru.Nodup) (hm : ∀ i, i ∈ c'.lru) : Indexed c' := by
  refine ⟨hnd,hm,?_,?_⟩
  · intro i j hi hj hij
    rw [(hs i).1] at hi
    rw [(hs j).1] at hj
    rw [(hs i).2.1,(hs j).2.1] at hij
    exact h.unique i j hi hj hij
  · intro i hi
    obtain ⟨h1,_,h3,h4,_⟩ := hs i
    rw [h1,h3]
    exact h.dirty_valid i (h4 ▸ hi)

theorem Coherent.of_sameContents {c c' : Bcache} {V : Disk} (h : Coherent c V) (hs : SameContents c c')
    (hd : c'.disk = c.disk) (hnd : c'.lru.Nodup) (hm : ∀ i, i ∈ c'.lru) : Coherent c' V := by
  refine ⟨h.toIndexed.of_sameContents hs hnd hm,?_,?_,?_⟩
  · intro i hi hv
    obtain ⟨h1,h2,h3,_,h5⟩ := hs i
    rw [h2,h5]
    exact h.data i (h1 ▸ hi) (h3 ▸ hv)
  · intro b hb
    rw [hd]
    apply h.clean b
    intro i hi
    rw [← (hs i).2.1]
    exact hb i ((hs i).2.2.2.1 ▸ hi)
  · intro i hi hv
    obtain ⟨h1,h2,h3,_,_⟩ := hs i
    rw [h2]
    exact h.range i (h1 ▸ hi) (h3 ▸ hv)

theorem SameContents.setBuf {c : Bcache} {i : Fin NBUF} {b : Buf}
    (h : b.dev = (c.buf i).dev ∧ b.blockno = (c.buf i).blockno ∧ b.valid = (c.buf i).valid ∧
      b.dirty = (c.buf i).dirty ∧ b.data = (c.buf i).data) : SameContents c (c.setBuf i b) := by
  intro j
  by_cases hj : j = i
  · subst j
    simpa using h
  · simp [setBuf_ne c hj]

theorem Coherent.view_eq {c : Bcache} {V : Disk} (h : Coherent c V) : c.view = V := by
  funext b
  unfold Bcache.view
  cases hf : c.lru.find? (fun i => c.cached b i && (c.buf i).valid) with
  | some i =>
    have hi := List.find?_some hf
    simp only [Bcache.cached,Bool.and_eq_true,beq_iff_eq] at hi
    obtain ⟨⟨hdev,rfl⟩,hv⟩ := hi
    exact h.data i hdev hv
  | none =>
    apply h.clean
    intro i hi hb
    obtain ⟨hdev,hv⟩ := h.dirty_valid i hi
    have hn := List.find?_eq_none.mp hf i (h.mem_lru i)
    simp [Bcache.cached,hdev,hb,hv] at hn

theorem not_cached_of_find_none {c : Bcache} (h : Indexed c) {b : ℕ}
    (hf : c.lru.find? (c.cached b) = none) (i : Fin NBUF) (hi : (c.buf i).dev = ROOTDEV) :
    (c.buf i).blockno ≠ b := by
  intro hb
  have hn := List.find?_eq_none.mp hf i (h.mem_lru i)
  simp [Bcache.cached,hi,hb] at hn

section Recycle
variable {c : Bcache} {b : ℕ} {i : Fin NBUF} {n : Buf}

theorem setBuf_cases (c : Bcache) (i : Fin NBUF) (n : Buf) (j : Fin NBUF) :
    (j = i ∧ (c.setBuf i n).buf j = n) ∨ (j ≠ i ∧ (c.setBuf i n).buf j = c.buf j) := by
  by_cases hj : j = i
  · subst j
    exact Or.inl ⟨rfl,setBuf_self c i n⟩
  · exact Or.inr ⟨hj,setBuf_ne c hj n⟩

variable (hfresh : ∀ j, (c.buf j).dev = ROOTDEV → (c.buf j).blockno ≠ b) (hb : n.blockno = b)
  (hv : n.valid = false) (hd : n.dirty = false)
include hfresh hb hd

theorem Indexed.recycle (h : Indexed c) : Indexed (c.setBuf i n) := by
  refine ⟨h.lru_nodup,h.mem_lru,?_,?_⟩
  · intro j k hj hk hjk
    rcases setBuf_cases c i n j with ⟨hji,ej⟩ | ⟨_,ej⟩ <;>
      rcases setBuf_cases c i n k with ⟨hki,ek⟩ | ⟨_,ek⟩
    · exact hji.trans hki.symm
    · rw [ej,ek,hb] at hjk
      exact absurd hjk.symm (hfresh k (ek ▸ hk))
    · rw [ej,ek,hb] at hjk
      exact absurd hjk (hfresh j (ej ▸ hj))
    · rw [ej,ek] at hjk
      exact h.unique j k (ej ▸ hj) (ek ▸ hk) hjk
  · intro j hj
    rcases setBuf_cases c i n j with ⟨rfl,ej⟩ | ⟨_,ej⟩
    · rw [ej,hd] at hj
      exact absurd hj (by simp)
    · rw [ej] at hj ⊢
      exact h.dirty_valid j hj

include hv in
/-- Recycling an unused buffer gives up no block the file system can see. -/
theorem Coherent.recycle {V : Disk} (h : Coherent c V) (hi : (c.buf i).dirty = false) :
    Coherent (c.setBuf i n) V := by
  refine ⟨h.toIndexed.recycle hfresh hb hd,?_,?_,?_⟩
  · intro j hj hjv
    rcases setBuf_cases c i n j with ⟨rfl,ej⟩ | ⟨_,ej⟩
    · rw [ej,hv] at hjv
      exact absurd hjv (by simp)
    · rw [ej] at hj hjv ⊢
      exact h.data j hj hjv
  · intro a ha
    apply h.clean a
    intro j hj
    rcases setBuf_cases c i n j with ⟨rfl,_⟩ | ⟨_,ej⟩
    · rw [hi] at hj
      exact absurd hj (by simp)
    · rw [← ej]
      exact ha j (ej ▸ hj)
  · intro j hj hjv
    rcases setBuf_cases c i n j with ⟨rfl,ej⟩ | ⟨_,ej⟩
    · rw [ej,hv] at hjv
      exact absurd hjv (by simp)
    · rw [ej] at hj hjv ⊢
      exact h.range j hj hjv

end Recycle
end Xv6.Bio
