import Xv6.Fs.Contents
import Xv6.Fs.Bookkeeping

/-! # Consistent file systems

No block belongs to two files, every block of a file is marked, and every file has all the blocks up
to its size. Handing out a free block keeps this and changes no byte of a file.
-/
namespace Xv6.Fs
open ByteField Ownership Program Function
variable {s s' : Sys} {ip : ℕ}

section Views

/-- The inode as the kernel sees it: the copy in the cache, if there is one. -/
def Sys.inode (s : Sys) (i : ℕ) : Dinode :=
  if 0 < (s.cache i).ref ∧ (s.cache i).valid = true then (s.cache i).copy else s.dinode i

structure Sys.Cached (s : Sys) (ip : ℕ) : Prop where
  ref : 0 < (s.cache ip).ref
  valid : (s.cache ip).valid = true

theorem Sys.Cached.inode (h : s.Cached ip) : s.inode ip = (s.cache ip).copy := if_pos ⟨h.ref,h.valid⟩

variable {d : Dinode} (h : s.Cached ip)
  (hcache : s'.cache = Function.update s.cache ip { s.cache ip with copy := d })
include h hcache

theorem Sys.Cached.update : s'.Cached ip := by
  refine ⟨?_,?_⟩
  · rw [hcache,update_self]
    exact h.ref
  · rw [hcache,update_self]
    exact h.valid

theorem Sys.Cached.inode_update (hdinode : ∀ j, j ≠ ip → s'.dinode j = s.dinode j) :
    s'.inode = Function.update s.inode ip d := by
  funext j
  by_cases hj : j = ip
  · subst hj
    rw [(h.update hcache).inode,hcache,update_self,update_self]
  · rw [update_of_ne hj,Sys.inode,Sys.inode,hcache,update_of_ne hj,hdinode j hj]

end Views

section Locks

def Sys.lock (s : Sys) (ip : ℕ) : Sys :=
  { s with cache := Function.update s.cache ip { s.cache ip with locked := true, valid := true, copy := s.inode ip } }

def Sys.unlock (s : Sys) (ip : ℕ) : Sys :=
  { s with cache := Function.update s.cache ip { s.cache ip with locked := false } }

theorem Sys.lock_self (s : Sys) (ip : ℕ) :
    (s.lock ip).cache ip = { s.cache ip with locked := true, valid := true, copy := s.inode ip } :=
  update_self ..

theorem Sys.unlock_self (s : Sys) (ip : ℕ) : (s.unlock ip).cache ip = { s.cache ip with locked := false } :=
  update_self ..

theorem Sys.inode_congr {j : ℕ} (href : (s'.cache j).ref = (s.cache j).ref) (hvalid : (s'.cache j).valid = (s.cache j).valid)
    (hcopy : (s'.cache j).copy = (s.cache j).copy) (hdinode : s'.dinode j = s.dinode j) : s'.inode j = s.inode j := by
  unfold Sys.inode
  simp only [href,hvalid,hcopy,hdinode]

theorem Sys.cached_lock (h : 0 < (s.cache ip).ref) : (s.lock ip).Cached ip := by
  refine ⟨?_,?_⟩
  · rwa [s.lock_self]
  · rw [s.lock_self]

theorem Sys.inode_lock (h : 0 < (s.cache ip).ref) : (s.lock ip).inode = s.inode := by
  funext j
  by_cases hj : j = ip
  · subst hj
    rw [(Sys.cached_lock h).inode,s.lock_self]
  · have hsame : (s.lock ip).cache j = s.cache j := update_of_ne hj ..
    exact Sys.inode_congr (by rw [hsame]) (by rw [hsame]) (by rw [hsame]) rfl

theorem Sys.inode_unlock : (s.unlock ip).inode = s.inode := by
  funext j
  by_cases hj : j = ip
  · subst hj
    exact Sys.inode_congr (by rw [s.unlock_self]) (by rw [s.unlock_self]) (by rw [s.unlock_self]) rfl
  · have hsame : (s.unlock ip).cache j = s.cache j := update_of_ne hj ..
    exact Sys.inode_congr (by rw [hsame]) (by rw [hsame]) (by rw [hsame]) rfl

theorem ilock_ok (hopen : 0 < (s.cache ip).ref) (hunlocked : (s.cache ip).locked = false)
    (hread : (s.cache ip).valid = true ∨ (s.dinode ip).type ≠ .free) : ilock ip s = .ok () (s.lock ip) := by
  unfold ilock
  rw [bind_of_ok (get_apply s)]
  rw [if_neg (by omega),hunlocked,if_neg Bool.false_ne_true]
  by_cases hvalid : (s.cache ip).valid = true
  · have hcopy : s.inode ip = (s.cache ip).copy := if_pos ⟨hopen,hvalid⟩
    rw [if_pos hvalid,Sys.lock,hcopy,← hvalid]
    rfl
  · have hdisk : s.inode ip = s.dinode ip := if_neg fun hc => hvalid hc.2
    rw [if_neg hvalid,if_neg (hread.resolve_left hvalid),Sys.lock,hdisk]
    rfl

theorem ilock_cases (ip : ℕ) (s : Sys) :
    ilock ip s = .ok () (s.lock ip) ∧ 0 < (s.cache ip).ref ∨ ∃ e, ilock ip s = .error e s := by
  by_cases hok : 0 < (s.cache ip).ref ∧ (s.cache ip).locked = false ∧
      ((s.cache ip).valid = true ∨ (s.dinode ip).type ≠ .free)
  · exact .inl ⟨ilock_ok hok.1 hok.2.1 hok.2.2,hok.1⟩
  · refine .inr ?_
    unfold ilock
    rw [bind_of_ok (get_apply s)]
    by_cases hopen : (s.cache ip).ref < 1
    · rw [if_pos hopen]
      exact ⟨_,rfl⟩
    · rw [if_neg hopen]
      by_cases hlocked : (s.cache ip).locked = true
      · rw [if_pos hlocked]
        exact ⟨_,rfl⟩
      · have hread : ¬ ((s.cache ip).valid = true ∨ (s.dinode ip).type ≠ .free) :=
          fun hc => hok ⟨by omega,by simpa using hlocked,hc⟩
        rw [if_neg hlocked,if_neg fun hc => hread (.inl hc),if_pos (not_not.mp fun hc => hread (.inr hc))]
        exact ⟨_,rfl⟩

theorem iunlock_ok (hlocked : (s.cache ip).locked = true) (href : 0 < (s.cache ip).ref) :
    iunlock ip s = .ok () (s.unlock ip) := by
  unfold iunlock
  rw [bind_of_ok (get_apply s)]
  have hok : ¬ ((s.cache ip).locked = false ∨ (s.cache ip).ref < 1) := by
    rintro (hc | hc)
    · rw [hlocked] at hc
      cases hc
    · omega
  rw [if_neg hok]
  rfl

end Locks

variable [sb : Superblock] {blk blk' : ℕ → Block} {ino ino' : ℕ → Dinode} {used : ℕ → Bool} {i j b : ℕ}

section Consistency

/-- Every block of a file is in use and has one place in one file, and no file has a hole. -/
structure Consistent (blk : ℕ → Block) (ino : ℕ → Dinode) (used : ℕ → Bool) : Prop where
  start : 0 < sb.datastart
  limit : sb.size ≤ FSSIZE
  reserved : ∀ b < sb.datastart, used b = true
  owned : Owned {b | sb.datastart ≤ b ∧ b < sb.size} (slotAddr blk ino) fun b => used b = true
  sizes : ∀ i, (ino i).type ≠ .free → (ino i).size ≤ MAXFILE*BSIZE
  holeFree : ∀ i, (ino i).type ≠ .free → ∀ bn, bn*BSIZE < (ino i).size → blockAt blk (ino i) bn ≠ 0

def free (used : ℕ → Bool) : ℕ := ((Finset.range sb.size).filter fun b => used b = false).card

theorem free_update (hb : used b = false) (hlt : b < sb.size) : free (Function.update used b true)+1 = free used := by
  unfold free
  have hmem : b ∈ (Finset.range sb.size).filter fun b => used b = false :=
    Finset.mem_filter.mpr ⟨Finset.mem_range.mpr hlt,hb⟩
  have herase : ((Finset.range sb.size).filter fun c => update used b true c = false) =
      ((Finset.range sb.size).filter fun c => used c = false).erase b := by
    ext c
    simp only [Finset.mem_filter,Finset.mem_erase,Finset.mem_range]
    by_cases hc : c = b
    · subst hc
      simp
    · simp [hc]
  rw [herase]
  exact Finset.card_erase_add_one hmem

variable (h : Consistent blk ino used)
include h

theorem Consistent.fresh_ne (hb : used b = false) : b ≠ 0 := by
  rintro rfl
  rw [h.reserved 0 h.start] at hb
  cases hb

theorem Consistent.unnamed (hb : used b = false) (x : ℕ × Spot) : slotAddr blk ino x ≠ b :=
  h.owned.unnamed (by rw [hb]; exact Bool.false_ne_true) (h.fresh_ne hb) x

theorem Consistent.named_lt (hi : (ino i).type ≠ .free) {p : Spot} (hne : addrAt blk (ino i) p ≠ 0) :
    addrAt blk (ino i) p < FSSIZE := by
  have hpool := h.owned.pool (i,p) (by rwa [slotAddr_of_type hi])
  rw [slotAddr_of_type hi] at hpool
  exact Nat.lt_of_lt_of_le hpool.2 h.limit

theorem Consistent.assign {x : ℕ × Spot} (hslot : slotAddr blk' ino' = Function.update (slotAddr blk ino) x b)
    (hx : slotAddr blk ino x = 0) (hb : used b = false) (hlt : b < sb.size)
    (htype : ∀ j, (ino' j).type = (ino j).type) (hsize : ∀ j, (ino' j).size = (ino j).size) :
    Consistent blk' ino' (Function.update used b true) where
  start := h.start
  limit := h.limit
  reserved c hc := by
    by_cases hcb : c = b
    · rw [hcb,update_self]
    · rw [update_of_ne hcb]
      exact h.reserved c hc
  owned := by
    rw [hslot]
    refine h.owned.assign hx (by rw [hb]; exact Bool.false_ne_true) ⟨?_,hlt⟩ (update_self ..) fun c hc => ?_
    · by_contra hlow
      rw [h.reserved b (by omega)] at hb
      cases hb
    · by_cases hcb : c = b
      · rw [hcb,update_self]
      · rw [update_of_ne hcb]
        exact hc
  sizes j hj := by
    rw [hsize]
    exact h.sizes j (by rwa [← htype])
  holeFree j hj bn hbn := by
    have hj' : (ino j).type ≠ .free := by rwa [← htype]
    have hold := h.holeFree j hj' bn (by rwa [← hsize])
    have hnew : blockAt blk' (ino' j) bn = update (slotAddr blk ino) x b (j,spotOf bn) := by
      rw [← hslot,slotAddr_of_type hj]
      rfl
    rw [hnew]
    by_cases hjx : (j,spotOf bn) = x
    · rw [hjx,update_self]
      exact h.fresh_ne hb
    · rw [update_of_ne hjx,slotAddr_of_type hj']
      exact hold

theorem Consistent.blockAt_write (hi : (ino i).type ≠ .free) {bn : ℕ} (hne : blockAt blk (ino i) bn ≠ 0) (v : Block)
    (hj : (ino j).type ≠ .free) (m : ℕ) :
    blockAt (Function.update blk (blockAt blk (ino i) bn) v) (ino j) m = blockAt blk (ino j) m := by
  have hslot := congrFun (slotAddr_write (v := v) h.owned hi hne) (j,spotOf m)
  rwa [slotAddr_of_type hj,slotAddr_of_type hj] at hslot

theorem Consistent.write (hi : (ino i).type ≠ .free) {bn : ℕ} (hne : blockAt blk (ino i) bn ≠ 0) (v : Block) :
    Consistent (Function.update blk (blockAt blk (ino i) bn) v) ino used where
  start := h.start
  limit := h.limit
  reserved := h.reserved
  owned := by
    rw [slotAddr_write h.owned hi hne]
    exact h.owned
  sizes := h.sizes
  holeFree j hj m hm := by
    rw [h.blockAt_write hi hne v hj]
    exact h.holeFree j hj m hm

theorem Consistent.resize {n : ℕ} (hn : n ≤ MAXFILE*BSIZE) (hfull : ∀ bn, bn*BSIZE < n → blockAt blk (ino i) bn ≠ 0) :
    Consistent blk (Function.update ino i { ino i with size := n }) used := by
  have haddr : ∀ j, addrAt blk (update ino i { ino i with size := n } j) = addrAt blk (ino j) := by
    intro j
    by_cases hj : j = i
    · rw [hj,update_self]
      exact addrAt_congr rfl fun _ => rfl
    · rw [update_of_ne hj]
  have htype : ∀ j, (update ino i { ino i with size := n } j).type = (ino j).type := by
    intro j
    by_cases hj : j = i
    · rw [hj,update_self]
    · rw [update_of_ne hj]
  have hslot : slotAddr blk (update ino i { ino i with size := n }) = slotAddr blk ino := by
    funext x
    unfold slotAddr
    rw [htype,haddr]
  refine ⟨h.start,h.limit,h.reserved,by rw [hslot]; exact h.owned,fun j hj => ?_,fun j hj bn hbn => ?_⟩
  · rw [htype] at hj
    by_cases hji : j = i
    · rw [hji,update_self]
      exact hn
    · rw [update_of_ne hji]
      exact h.sizes j hj
  · rw [htype] at hj
    unfold blockAt
    rw [haddr]
    by_cases hji : j = i
    · rw [hji,update_self] at hbn
      rw [hji]
      exact hfull bn hbn
    · rw [update_of_ne hji] at hbn
      exact h.holeFree j hj bn hbn

end Consistency

end Xv6.Fs
