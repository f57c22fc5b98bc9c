import Xv6.Log.BufferCache

/-! # The log header, in memory and on disk

The header block starts with the count and continues with one word for each
logged block number. The in-memory header has the same shape.
-/
namespace Xv6.Log
open Bio ByteField Function

structure LogHeader where
  n : ℕ
  block : Fin LOGSIZE → ℕ

def LogHeader.zero : LogHeader := ⟨0,fun _ => 0⟩

def LogHeader.blockAt (lh : LogHeader) (i : ℕ) : ℕ := if h : i < LOGSIZE then lh.block ⟨i,h⟩ else 0

def LogHeader.blocks (lh : LogHeader) : List ℕ := (List.range lh.n).map lh.blockAt

@[simp] theorem LogHeader.length_blocks (lh : LogHeader) : lh.blocks.length = lh.n := by
  simp [LogHeader.blocks]

def LogHeader.indexOf (lh : LogHeader) (b : ℕ) : ℕ := lh.blocks.idxOf b

/-- The critical section of `log_write`. Absorption overwrites the entry with the
same number; `none` is a store past the end of the array. -/
def LogHeader.record (lh : LogHeader) (b : ℕ) : Option LogHeader :=
  let i := lh.indexOf b
  if h : i < LOGSIZE then
    some ⟨if i = lh.n then lh.n + 1 else lh.n,Function.update lh.block ⟨i,h⟩ b⟩
  else none

theorem LogHeader.indexOf_le (lh : LogHeader) (b : ℕ) : lh.indexOf b ≤ lh.n := by
  have h := lh.blocks.idxOf_le_length (a := b)
  rwa [lh.length_blocks] at h

theorem LogHeader.indexOf_eq_n {lh : LogHeader} {b : ℕ} : lh.indexOf b = lh.n ↔ b ∉ lh.blocks := by
  unfold LogHeader.indexOf
  rw [← lh.length_blocks]
  exact List.idxOf_eq_length_iff

theorem LogHeader.record_blocks {lh lh' : LogHeader} {b : ℕ} (hn : lh.n ≤ LOGSIZE)
    (h : lh.record b = some lh') :
    lh'.blocks = (if b ∈ lh.blocks then lh.blocks else lh.blocks ++ [b]) ∧ lh'.n ≤ LOGSIZE := by
  simp only [LogHeader.record] at h
  split at h
  · rename_i hi
    cases h
    have hat : ∀ j, j ≠ lh.indexOf b →
        LogHeader.blockAt ⟨if lh.indexOf b = lh.n then lh.n + 1 else lh.n,
          update lh.block ⟨lh.indexOf b,hi⟩ b⟩ j = lh.blockAt j := by
      intro j hj
      unfold LogHeader.blockAt
      split
      · simp only
        rw [update_of_ne]
        simpa [Fin.ext_iff] using hj
      · rfl
    have hself : LogHeader.blockAt ⟨if lh.indexOf b = lh.n then lh.n + 1 else lh.n,
          update lh.block ⟨lh.indexOf b,hi⟩ b⟩ (lh.indexOf b) = b := by
      simp [LogHeader.blockAt,hi]
    by_cases hb : b ∈ lh.blocks
    · have hlt : lh.indexOf b < lh.n := by
        have h1 := lh.indexOf_le b
        have h2 : lh.indexOf b ≠ lh.n := fun he => LogHeader.indexOf_eq_n.mp he hb
        omega
      rw [if_pos hb]
      refine ⟨?_,by simpa [hlt.ne] using hn⟩
      simp only [LogHeader.blocks,if_neg hlt.ne]
      apply List.map_congr_left
      intro j hj
      by_cases hji : j = lh.indexOf b
      · have hown : lh.blockAt (lh.indexOf b) = b := by
          have hlen : lh.indexOf b < lh.blocks.length := by rw [lh.length_blocks]; exact hlt
          have hget : lh.blocks[lh.indexOf b] = b := List.getElem_idxOf hlen
          simpa [LogHeader.blocks] using hget
        subst j
        have hs := hself
        simp only [if_neg hlt.ne] at hs
        rw [hs,hown]
      · have hs := hat j hji
        simpa only [if_neg hlt.ne] using hs
    · have he := LogHeader.indexOf_eq_n.mpr hb
      rw [if_neg hb]
      refine ⟨?_,by simp only [he,↓reduceIte]; omega⟩
      simp only [LogHeader.blocks,if_pos he,List.range_succ,List.map_append,List.map_cons,List.map_nil]
      congr 1
      · apply List.map_congr_left
        intro j hj
        have hs := hat j (by have := List.mem_range.mp hj; omega)
        simpa only [if_pos he] using hs
      · have hs := hself
        simp only [he] at hs
        simpa [he] using hs
  · cases h

def diskCount (b : Block) : ℕ := if getLE 4 b 0 < 2^31 then getLE 4 b 0 else 0

def diskBlock (b : Block) (i : ℕ) : ℕ := getLE 4 b (4+4*i)

def encodeHeader (b : Block) (lh : LogHeader) : Block :=
  (List.range lh.n).foldl (fun b i => putLE 4 b (4+4*i) (lh.blockAt i)) (putLE 4 b 0 lh.n)

theorem fold_putLE_get (f : ℕ → ℕ) (xs : List ℕ) (b : Block) {off : ℕ}
    (h : ∀ i ∈ xs, off + 4 ≤ 4+4*i ∨ 4+4*i+4 ≤ off) :
    getLE 4 (xs.foldl (fun b i => putLE 4 b (4+4*i) (f i)) b) off = getLE 4 b off := by
  induction xs generalizing b with
  | nil => rfl
  | cons i xs ih =>
    rw [List.foldl_cons,ih _ (fun j hj => h j (List.mem_cons_of_mem _ hj))]
    apply getLE_putLE_disjoint
    have := h i List.mem_cons_self
    omega

theorem diskBlock_fold (f : ℕ → ℕ) (b : Block) {n i : ℕ} (hn : n ≤ LOGSIZE) (hi : i < n) :
    diskBlock ((List.range n).foldl (fun b i => putLE 4 b (4+4*i) (f i)) b) i = f i % 2^32 := by
  induction n with
  | zero => omega
  | succ n ih =>
    rw [List.range_succ,List.foldl_append]
    simp only [List.foldl_cons,List.foldl_nil,diskBlock]
    by_cases he : i = n
    · subst i
      have hL := LOGSIZE_eq
      have hB := BSIZE_eq
      rw [getLE_putLE_same _ _ _ _ (by omega)]
      norm_num
    · rw [getLE_putLE_disjoint _ _ _ _ _ _ (by omega)]
      exact ih (by omega) (by omega)

theorem diskCount_encodeHeader (b : Block) {lh : LogHeader} (hn : lh.n ≤ LOGSIZE) :
    diskCount (encodeHeader b lh) = lh.n := by
  have hL := LOGSIZE_eq
  have hget : getLE 4 (encodeHeader b lh) 0 = lh.n := by
    unfold encodeHeader
    rw [fold_putLE_get _ _ _ (fun i _ => by omega),getLE_putLE_same _ _ _ _ (by simp [BSIZE])]
    apply Nat.mod_eq_of_lt
    omega
  unfold diskCount
  rw [hget,if_pos]
  omega

theorem diskBlock_encodeHeader (b : Block) {lh : LogHeader} (hn : lh.n ≤ LOGSIZE) {i : ℕ} (hi : i < lh.n) :
    diskBlock (encodeHeader b lh) i = lh.blockAt i % 2^32 := diskBlock_fold lh.blockAt _ hn hi

def diskBlocks (b : Block) : List ℕ := (List.range (diskCount b)).map (diskBlock b)

theorem diskBlocks_encodeHeader (b : Block) {lh : LogHeader} (hn : lh.n ≤ LOGSIZE)
    (hb : ∀ a ∈ lh.blocks, a < FSSIZE) : diskBlocks (encodeHeader b lh) = lh.blocks := by
  unfold diskBlocks LogHeader.blocks
  rw [diskCount_encodeHeader b hn]
  apply List.map_congr_left
  intro i hi
  rw [diskBlock_encodeHeader b hn (List.mem_range.mp hi)]
  apply Nat.mod_eq_of_lt
  have hlt := hb (lh.blockAt i) (List.mem_map_of_mem hi)
  have hF := FSSIZE_eq
  omega

end Xv6.Log
