import Xv6.Fs.BlockMap

/-! # Writing to a file

The loop of `writei` goes from block to block. Each round finds or hands out one block and replaces
bytes in it; together the rounds replace the bytes of the buffer in the file and no others.
-/
namespace Xv6.Fs
open ByteField Ownership Program Function
variable [sb : Superblock] {s s' s₁ s₂ : Sys} {ip b off k n fuel : ℕ} {src : List UInt8}

section Need
variable {blk blk' : ℕ → Block} {d d' : Dinode}

/-- How many blocks `balloc` has to find for a write. -/
def need (blk : ℕ → Block) (d : Dinode) (off n : ℕ) : ℕ :=
  (∑ bn ∈ Finset.Ico (off/BSIZE) ((off+n+BSIZE-1)/BSIZE), if blockAt blk d bn = 0 then 1 else 0)+
    if NDIRECT*BSIZE < off+n ∧ d.addrs indirect = 0 then 1 else 0

omit sb in
theorem need_next (hhere : blockAt blk' d' (off/BSIZE) ≠ 0)
    (hothers : ∀ m, m ≠ off/BSIZE → blockAt blk' d' m = blockAt blk d m)
    (htable : d'.addrs indirect = 0 ↔ d.addrs indirect = 0 ∧ off/BSIZE < NDIRECT) (hpos : 0 < k)
    (hk : off%BSIZE+k ≤ BSIZE) (m : ℕ) : need blk' d' (off+k) m+cost blk d (off/BSIZE) ≤ need blk d off (k+m) := by
  have hB := BSIZE_eq
  have hdirect : NDIRECT*BSIZE = 512*NDIRECT := rfl
  have hoff : 512*(off/BSIZE)+off%BSIZE = off := Nat.div_add_mod off 512
  have hend : 512*((off+k)/BSIZE)+(off+k)%BSIZE = off+k := Nat.div_add_mod (off+k) 512
  have hmod : (off+k)%BSIZE < 512 := Nat.mod_lt _ (by decide)
  have hlast : off/BSIZE < (off+k+m+BSIZE-1)/BSIZE := by
    rw [Nat.lt_iff_add_one_le,Nat.le_div_iff_mul_le (by decide)]
    change (off/BSIZE+1)*512 ≤ _
    omega
  have hsum : (∑ bn ∈ Finset.Ico ((off+k)/BSIZE) ((off+k+m+BSIZE-1)/BSIZE), if blockAt blk' d' bn = 0 then 1 else 0) =
      ∑ bn ∈ Finset.Ico (off/BSIZE+1) ((off+(k+m)+BSIZE-1)/BSIZE), if blockAt blk d bn = 0 then 1 else 0 := by
    rw [← Nat.add_assoc off k m]
    have hcongr : ∀ bn ∈ Finset.Ico (off/BSIZE+1) ((off+k+m+BSIZE-1)/BSIZE),
        (if blockAt blk' d' bn = 0 then 1 else 0) = if blockAt blk d bn = 0 then 1 else 0 := by
      intro bn hbn
      rw [hothers bn (by have := (Finset.mem_Ico.mp hbn).1; omega)]
    rw [← Finset.sum_congr rfl hcongr]
    by_cases hfull : (off+k)/BSIZE = off/BSIZE
    · rw [hfull,Finset.sum_eq_sum_Ico_succ_bot hlast,if_neg hhere,Nat.zero_add]
    · have hnext : (off+k)/BSIZE = off/BSIZE+1 := by omega
      rw [hnext]
  have hstart := Finset.sum_eq_sum_Ico_succ_bot (by rwa [← Nat.add_assoc off k m] : off/BSIZE < (off+(k+m)+BSIZE-1)/BSIZE)
    fun bn => if blockAt blk d bn = 0 then 1 else 0
  unfold need cost
  rw [hsum,hstart]
  have hbit : (if NDIRECT*BSIZE < off+k+m ∧ d'.addrs indirect = 0 then 1 else 0)+
      (if NDIRECT ≤ off/BSIZE ∧ d.addrs indirect = 0 then 1 else 0) ≤
      if NDIRECT*BSIZE < off+(k+m) ∧ d.addrs indirect = 0 then 1 else 0 := by
    by_cases hzero : d.addrs indirect = 0
    · by_cases hbn : off/BSIZE < NDIRECT
      · have hnew := htable.mpr ⟨hzero,hbn⟩
        rw [if_neg (by omega : ¬ (NDIRECT ≤ off/BSIZE ∧ d.addrs indirect = 0))]
        simp only [hzero,hnew,and_true,Nat.add_assoc,Nat.add_zero,Nat.le_refl]
      · rw [if_neg fun hc => hbn (htable.mp hc.2).2,if_pos ⟨by omega,hzero⟩,if_pos ⟨by omega,hzero⟩]
    · rw [if_neg fun hc => hzero (htable.mp hc.2).1,if_neg fun hc => hzero hc.2]
      exact Nat.zero_le _
  omega

omit sb in
theorem need_mono {n' : ℕ} (h : n ≤ n') : need blk d off n ≤ need blk d off n' := by
  unfold need
  refine Nat.add_le_add (Finset.sum_le_sum_of_subset (Finset.Ico_subset_Ico_right (Nat.div_le_div_right (by omega)))) ?_
  by_cases hc : NDIRECT*BSIZE < off+n ∧ d.addrs indirect = 0
  · rw [if_pos hc,if_pos ⟨by omega,hc.2⟩]
  · rw [if_neg hc]
    exact Nat.zero_le _

omit sb in
theorem need_le : need blk d off n ≤ (off+n+BSIZE-1)/BSIZE-off/BSIZE+1 := by
  unfold need
  refine Nat.add_le_add ((Finset.sum_le_card_nsmul _ _ 1 fun bn _ => by split <;> omega).trans ?_) (by split <;> omega)
  simp

omit sb in
theorem cost_le_need (hn : 0 < n) : cost blk d (off/BSIZE) ≤ need blk d off n := by
  have hB := BSIZE_eq
  have hdirect : NDIRECT*BSIZE = 512*NDIRECT := rfl
  have hoff : 512*(off/BSIZE)+off%BSIZE = off := Nat.div_add_mod off 512
  have hlast : off/BSIZE < (off+n+BSIZE-1)/BSIZE := by
    rw [Nat.lt_iff_add_one_le,Nat.le_div_iff_mul_le (by decide)]
    change (off/BSIZE+1)*512 ≤ _
    have hmod : off%BSIZE < 512 := Nat.mod_lt _ (by decide)
    omega
  unfold cost need
  rw [Finset.sum_eq_sum_Ico_succ_bot hlast]
  have hbit : (if NDIRECT ≤ off/BSIZE ∧ d.addrs indirect = 0 then 1 else 0) ≤
      if NDIRECT*BSIZE < off+n ∧ d.addrs indirect = 0 then 1 else 0 := by
    by_cases hc : NDIRECT ≤ off/BSIZE ∧ d.addrs indirect = 0
    · rw [if_pos hc,if_pos ⟨by omega,hc.2⟩]
    · rw [if_neg hc]
      exact Nat.zero_le _
  omega

end Need

section Loop

/-- The blocks of a write are in the file; its size is not set yet. -/
structure Stored (ip off : ℕ) (src : List UInt8) (s s' : Sys) : Prop where
  consistent : s'.Consistent
  cached : s'.Cached ip
  self : ∃ a, s'.inode = Function.update s.inode ip { s.inode ip with addrs := a }
  bytes : byteOf s'.block (s'.inode ip) = overlay (byteOf s.block (s.inode ip)) off src
  others : ∀ j, j ≠ ip → (s.inode j).type ≠ .free → byteOf s'.block (s'.inode j) = byteOf s.block (s.inode j)
  keeps : ∀ m, blockAt s.block (s.inode ip) m ≠ 0 → blockAt s'.block (s'.inode ip) m ≠ 0
  covers : ∀ x, off ≤ x → x < off+src.length → blockAt s'.block (s'.inode ip) (x/BSIZE) ≠ 0
  left : ∃ c, free s'.used+c = free s.used ∧
    ∀ m, need s'.block (s'.inode ip) (off+src.length) m+c ≤ need s.block (s.inode ip) off (src.length+m)

theorem Stored.nil (h : s.Consistent) (hcached : s.Cached ip) : Stored ip off [] s s where
  consistent := h
  cached := hcached
  self := ⟨_,(update_eq_self _ _).symm⟩
  bytes := (overlay_nil _ _).symm
  others _ _ _ := rfl
  keeps _ hm := hm
  covers x hle hlt := absurd hlt (by rw [List.length_nil]; omega)
  left := ⟨0,rfl,fun m => by rw [List.length_nil,Nat.add_zero,Nat.zero_add,Nat.add_zero]⟩

theorem Stored.type (h : Stored ip off src s s') (j : ℕ) : (s'.inode j).type = (s.inode j).type := by
  obtain ⟨a,ha⟩ := h.self
  rw [ha]
  by_cases hj : j = ip
  · rw [hj,update_self]
  · rw [update_of_ne hj]

theorem Stored.trans (h : Stored ip off (src.take k) s s₁) (h' : Stored ip (off+k) (src.drop k) s₁ s')
    (hk : k ≤ src.length) : Stored ip off src s s' := by
  have htake : (src.take k).length = k := by rw [List.length_take,Nat.min_eq_left hk]
  have hdrop : (src.drop k).length = src.length-k := List.length_drop
  obtain ⟨a,ha⟩ := h.self
  obtain ⟨a',ha'⟩ := h'.self
  refine ⟨h'.consistent,h'.cached,⟨a',by rw [ha',ha,update_idem,update_self]⟩,?_,fun j hj htype => ?_,
    fun m hm => h'.keeps m (h.keeps m hm),fun x hle hlt => ?_,?_⟩
  · rw [h'.bytes,h.bytes,overlay_overlay _ _ hk]
  · rw [h'.others j hj (by rwa [h.type]),h.others j hj htype]
  · by_cases hin : x < off+k
    · exact h'.keeps _ (h.covers x hle (by rwa [htake]))
    · exact h'.covers x (by omega) (by omega)
  · obtain ⟨c,hfree,hneed⟩ := h.left
    obtain ⟨c',hfree',hneed'⟩ := h'.left
    refine ⟨c'+c,by omega,fun m => ?_⟩
    have h1 := hneed (src.length-k+m)
    have h2 := hneed' m
    rw [htake] at h1
    rw [hdrop] at h2
    have e1 : off+k+(src.length-k) = off+src.length := by omega
    have e2 : k+(src.length-k+m) = src.length+m := by omega
    rw [e1] at h2
    rw [e2] at h1
    omega

omit sb in
theorem bwrite_apply (hb : b < FSSIZE) (f : Block → Block) :
    bwrite b f s = .ok () { s with block := Function.update s.block b (f (s.block b)) } := by
  unfold bwrite
  rw [if_neg (by omega)]
  rfl

structure Patched (ip off : ℕ) (src : List UInt8) (s s' : Sys) : Prop where
  consistent : s'.Consistent
  cached : s'.Cached ip
  inode : s'.inode = s.inode
  used : s'.used = s.used
  addrs : ∀ m, blockAt s'.block (s.inode ip) m = blockAt s.block (s.inode ip) m
  bytes : ∀ j, (s.inode j).type ≠ .free → byteOf s'.block (s.inode j) =
    if j = ip then overlay (byteOf s.block (s.inode ip)) off src else byteOf s.block (s.inode j)

theorem bwrite_patched (src : List UInt8) (h : s.Consistent) (htype : (s.inode ip).type ≠ .free) (hcached : s.Cached ip)
    (hne : blockAt s.block (s.inode ip) (off/BSIZE) ≠ 0) (hsrc : off%BSIZE+src.length ≤ BSIZE) :
    ∃ s', bwrite (blockAt s.block (s.inode ip) (off/BSIZE)) (fun a => blit a (off%BSIZE) src) s = .ok () s' ∧
      Patched ip off src s s' := by
  have hlt : blockAt s.block (s.inode ip) (off/BSIZE) < FSSIZE := h.named_lt htype hne
  exact ⟨_,bwrite_apply hlt _,h.write htype hne _,⟨hcached.ref,hcached.valid⟩,rfl,rfl,h.blockAt_write htype hne _ htype,
    fun j hj => byteOf_blit h.owned htype hne hsrc hj⟩

theorem Mapped.type (h : Mapped ip n b s s') (j : ℕ) : (s'.inode j).type = (s.inode j).type := by
  obtain ⟨a,ha⟩ := h.self
  rw [ha]
  by_cases hj : j = ip
  · rw [hj,update_self]
  · rw [update_of_ne hj]

theorem Mapped.stored (h : Mapped ip (off/BSIZE) b s s₁) (h' : Patched ip off src s₁ s')
    (htype : (s.inode ip).type ≠ .free) (hpos : 0 < src.length) (hsrc : off%BSIZE+src.length ≤ BSIZE) :
    Stored ip off src s s' := by
  have hhere : blockAt s'.block (s'.inode ip) (off/BSIZE) ≠ 0 := by
    rw [h'.inode,h'.addrs,h.here]
    exact h.found
  have hothers : ∀ m, m ≠ off/BSIZE → blockAt s'.block (s'.inode ip) m = blockAt s.block (s.inode ip) m := by
    intro m hm
    rw [h'.inode,h'.addrs,h.others m (.inl hm)]
  refine ⟨h'.consistent,h'.cached,?_,?_,fun j hj htypej => ?_,fun m hm => ?_,fun x hle hx => ?_,
    cost s.block (s.inode ip) (off/BSIZE),?_,fun m => ?_⟩
  · rw [h'.inode]
    exact h.self
  · rw [h'.inode,h'.bytes ip (by rwa [h.type]),if_pos rfl,h.bytes ip htype]
  · rw [h'.inode,h'.bytes j (by rwa [h.type]),if_neg hj,h.bytes j htypej]
  · by_cases hmo : m = off/BSIZE
    · rw [hmo]
      exact hhere
    · rwa [hothers m hmo]
  · have hsame : x/BSIZE = off/BSIZE := by
      have hoff : 512*(off/BSIZE)+off%BSIZE = off := Nat.div_add_mod off 512
      have hdiv : 512*(x/BSIZE)+x%BSIZE = x := Nat.div_add_mod x 512
      have hmod : x%BSIZE < 512 := Nat.mod_lt _ (by decide)
      have hB := BSIZE_eq
      omega
    rw [hsame]
    exact hhere
  · rw [h'.used]
    exact h.left
  · refine need_next hhere hothers ?_ hpos hsrc m
    rw [h'.inode]
    exact h.table

theorem writeBlocks_cases (h : s.Consistent) (htype : (s.inode ip).type ≠ .free) (hcached : s.Cached ip)
    (hmax : off+src.length ≤ MAXFILE*BSIZE) (hfuel : src.length ≤ fuel) :
    (∃ s', writeBlocks ip fuel off src s = .ok () s' ∧ Stored ip off src s s') ∨
    ∃ s', writeBlocks ip fuel off src s = .error .ballocOutOfBlocks s' ∧
      free s.used < need s.block (s.inode ip) off src.length := by
  induction fuel generalizing s off src with
  | zero =>
    have hnil : src = [] := List.length_eq_zero_iff.mp (by omega)
    subst hnil
    exact .inl ⟨s,rfl,.nil h hcached⟩
  | succ fuel ih =>
    unfold writeBlocks
    by_cases hnil : src = []
    · subst hnil
      rw [if_pos rfl]
      exact .inl ⟨s,rfl,.nil h hcached⟩
    · rw [if_neg hnil]
      have hlen : 0 < src.length := List.length_pos_iff.mpr hnil
      have hmod : off%BSIZE < 512 := Nat.mod_lt _ (by decide)
      have hB := BSIZE_eq
      obtain ⟨k,hk⟩ : ∃ k, k = min src.length (BSIZE-off%BSIZE) := ⟨_,rfl⟩
      have htake : (src.take k).length = k := by
        rw [List.length_take]
        omega
      have hbn : off/BSIZE < MAXFILE := by
        rw [Nat.div_lt_iff_lt_mul (by decide)]
        omega
      dsimp only
      rw [← hk]
      rcases bmap_cases h htype hcached hbn with ⟨b,s₁,hmap,hmapped⟩ | ⟨s₁,hmap,hfull⟩
      · have htype₁ : (s₁.inode ip).type ≠ .free := by rwa [hmapped.type]
        obtain ⟨s₂,hwrite,hpatched⟩ := bwrite_patched (src.take k) hmapped.consistent htype₁ hmapped.cached
          (by rw [hmapped.here]; exact hmapped.found) (by omega)
        have hstored := hmapped.stored hpatched htype (by omega) (by omega)
        rw [hmapped.here] at hwrite
        rw [bind_of_ok hmap,bind_of_ok hwrite]
        have hmax' : off+k+(src.drop k).length ≤ MAXFILE*BSIZE := by
          rw [List.length_drop]
          omega
        have hfuel' : (src.drop k).length ≤ fuel := by
          rw [List.length_drop]
          omega
        rcases ih hstored.consistent (by rwa [hstored.type]) hstored.cached hmax' hfuel' with ⟨s',hrun,hrest⟩ | ⟨s',hrun,hfull⟩
        · exact .inl ⟨s',hrun,hstored.trans hrest (by omega)⟩
        · refine .inr ⟨s',hrun,?_⟩
          obtain ⟨c,hfree,hneed⟩ := hstored.left
          have h1 := hneed (src.length-k)
          have e : k+(src.length-k) = src.length := by omega
          rw [htake,e] at h1
          rw [List.length_drop] at hfull
          omega
      · rw [bind_of_error hmap]
        exact .inr ⟨s₁,rfl,Nat.lt_of_lt_of_le hfull (cost_le_need hlen)⟩

end Loop
end Xv6.Fs
