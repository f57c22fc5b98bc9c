import Xv6.Fs.Directory

/-! # Adding and removing directory entries

A name that is present is left alone. A new name goes into the first vacant slot, or behind the last one
as long as the directory may grow.
-/
namespace Xv6.Fs
open Program Overwrite SlotTable Function
variable {s s' : Sys} {dp inum k : ℕ} {name : Name}

section References

def Sys.grab (s : Sys) (i : ℕ) : Sys := { s with
  cache := Function.update s.cache i { s.cache i with
    ref := (s.cache i).ref+1, valid := (s.cache i).valid && decide (0 < (s.cache i).ref) }
  incore := if 0 < (s.cache i).ref then s.incore else s.incore+1 }

def Sys.drop (s : Sys) (i : ℕ) : Sys := { s with
  cache := Function.update s.cache i { s.cache i with ref := (s.cache i).ref-1 }
  incore := if (s.cache i).ref = 1 then s.incore-1 else s.incore }

/-- `iget` finds the inode in the cache or a free entry for it. -/
def Sys.Holdable (s : Sys) (i : ℕ) : Prop := 0 < (s.cache i).ref ∨ s.incore < NINODE

theorem Sys.grab_self (s : Sys) (i : ℕ) : (s.grab i).cache i = { s.cache i with
    ref := (s.cache i).ref+1, valid := (s.cache i).valid && decide (0 < (s.cache i).ref) } := update_self ..

theorem Sys.drop_self (s : Sys) (i : ℕ) : (s.drop i).cache i = { s.cache i with ref := (s.cache i).ref-1 } :=
  update_self ..

theorem iget_ok (h : s.Holdable k) : iget k s = .ok () (s.grab k) := by
  unfold iget Sys.grab
  rw [bind_of_ok (get_apply s)]
  by_cases hpos : 0 < (s.cache k).ref
  · rw [if_pos hpos,if_pos hpos,decide_eq_true hpos,Bool.and_true]
    rfl
  · have hroom : ¬ NINODE ≤ s.incore := Nat.not_le.mpr (h.resolve_left hpos)
    have hzero : (s.cache k).ref = 0 := Nat.eq_zero_of_not_pos hpos
    rw [if_neg hpos,if_neg hpos,if_neg hroom,decide_eq_false hpos,Bool.and_false,hzero]
    rfl

theorem iget_full (h : ¬ s.Holdable k) : iget k s = .error .igetNoInodes s := by
  unfold iget
  rw [bind_of_ok (get_apply s),if_neg fun hc => h (.inl hc),if_pos (Nat.not_lt.mp fun hc => h (.inr hc))]
  rfl

theorem igetFound_ok (h : s.Holdable k) (off : ℕ) : igetFound (some (k,off)) s = .ok (some (k,off)) (s.grab k) := by
  rw [igetFound,bind_of_ok (iget_ok h)]
  rfl

theorem igetFound_full (h : ¬ s.Holdable k) (off : ℕ) : igetFound (some (k,off)) s = .error .igetNoInodes s := by
  rw [igetFound,bind_of_error (iget_full h)]

theorem iput_ok (hunlocked : (s.cache k).locked = false)
    (hkeep : ¬ ((s.cache k).valid = true ∧ (s.cache k).copy.nlink = 0 ∧ (s.cache k).ref = 1)) :
    iput k s = .ok () (s.drop k) := by
  unfold iput onlyIf
  rw [bind_of_ok (get_apply s),hunlocked,if_neg Bool.false_ne_true,if_neg hkeep]
  rfl

theorem iput_locked (hlocked : (s.cache k).locked = true) : iput k s = .error .deadlock s := by
  unfold iput
  rw [bind_of_ok (get_apply s),if_pos hlocked]
  rfl

/-- The same file system and references; copies of inodes may have been read in. -/
structure Alike (s s' : Sys) : Prop where
  used : s'.used = s.used
  block : s'.block = s.block
  dinode : s'.dinode = s.dinode
  inode : s'.inode = s.inode
  ref : ∀ i, (s'.cache i).ref = (s.cache i).ref
  locked : ∀ i, (s'.cache i).locked = (s.cache i).locked
  incore : s'.incore = s.incore
  file : s'.file = s.file
  ofile : s'.ofile = s.ofile
  cwd : s'.cwd = s.cwd

theorem Sys.drop_grab_self (s : Sys) (k : ℕ) : ((s.grab k).drop k).cache = Function.update s.cache k
    { s.cache k with valid := (s.cache k).valid && decide (0 < (s.cache k).ref) } := by
  unfold Sys.drop
  rw [s.grab_self]
  exact update_idem ..

theorem alike_drop_grab (s : Sys) (k : ℕ) : Alike s ((s.grab k).drop k) := by
  have hcache := s.drop_grab_self k
  have hother : ∀ i, i ≠ k → ((s.grab k).drop k).cache i = s.cache i := by
    intro i hi
    rw [hcache,update_of_ne hi]
  refine ⟨rfl,rfl,rfl,?_,fun i => ?_,fun i => ?_,?_,rfl,rfl,rfl⟩
  · funext i
    by_cases hi : i = k
    · subst hi
      unfold Sys.inode
      rw [hcache,update_self]
      by_cases hpos : 0 < (s.cache i).ref
      · rw [decide_eq_true hpos,Bool.and_true]
        rfl
      · rw [if_neg fun hc => hpos hc.1,if_neg fun hc => hpos hc.1]
        rfl
    · unfold Sys.inode
      rw [hother i hi]
      rfl
  · by_cases hi : i = k
    · rw [hi,hcache,update_self]
    · rw [hother i hi]
  · by_cases hi : i = k
    · rw [hi,hcache,update_self]
    · rw [hother i hi]
  · change (if ((s.grab k).cache k).ref = 1 then (s.grab k).incore-1 else (s.grab k).incore) = _
    rw [s.grab_self]
    change (if (s.cache k).ref+1 = 1 then (if 0 < (s.cache k).ref then s.incore else s.incore+1)-1
      else if 0 < (s.cache k).ref then s.incore else s.incore+1) = _
    split <;> split <;> omega

end References

section Linking

def Sys.freeOffset (s : Sys) (dp : ℕ) : ℕ := DIRENT*vacancy vacant (s.slots dp)

def Sys.HasRoom (s : Sys) (dp : ℕ) : Prop := s.freeOffset dp+DIRENT ≤ MAXFILE*BSIZE

def Sys.entryCost (s : Sys) (dp : ℕ) : ℕ := cost s.block (s.inode dp) (s.freeOffset dp/BSIZE)

variable [sb : Superblock] (h : s.Directory dp)
include h

theorem dirlink_found {off : ℕ} (hl : lookup name (s.slots dp) = some (k,off)) : dirlink dp name inum s = (do
    iget k
    iput k
    pure false : FsM Bool) s := by
  unfold dirlink
  rw [bind_apply,dirlookup_eq h,hl,igetFound,bind_apply]
  cases hget : iget k s with
  | error e t => rw [bind_of_error hget]
  | ok a t => rw [bind_of_ok hget]; rfl

theorem dirlink_new (hl : lookup name (s.slots dp) = none) : dirlink dp name inum s = (do
    let r ← writei dp (Dirent.toBytes ⟨inum,name⟩) (s.freeOffset dp)
    if r ≠ some DIRENT then throw .dirlink else pure true : FsM Bool) s := by
  have hlook : dirlookup dp name s = .ok none s := by rw [dirlookup_eq h,hl]; rfl
  have hscan : dirscan dp .dirlinkRead (fun de => de.inum = 0) (s.slots dp).length 0 s =
      .ok (scan vacant 0 (s.slots dp)) s := dirscan_ok h .dirlinkRead vacant (k := 0) (by omega)
  unfold dirlink
  rw [bind_of_ok hlook]
  dsimp only
  rw [bind_of_ok (get_apply s),← h.cached.inode,h.rounds_size,bind_of_ok hscan,scan_eq]
  unfold Sys.freeOffset vacancy
  cases hfind : (s.slots dp).findIdx? vacant with
  | none => rfl
  | some i =>
    obtain ⟨hi,-⟩ := List.findIdx?_eq_some_iff_getElem.mp hfind
    rw [Option.bind_some,List.getElem?_eq_getElem hi,Nat.zero_add]
    rfl

theorem Sys.Directory.freeOffset_le : s.freeOffset dp ≤ (s.inode dp).size := by
  rw [← h.length_slots]
  exact Nat.mul_le_mul_left 16 (vacancy_le _ _)

theorem Sys.Directory.wrote {src : List UInt8} (hw : Wrote dp (DIRENT*k) src s s') (hsrc : src.length = DIRENT)
    (hk : k ≤ (s.slots dp).length) : s'.Directory dp ∧ s'.slots dp = put (s.slots dp) k (Dirent.ofBytes src) := by
  obtain ⟨a,ha⟩ := hw.self
  refine ⟨⟨hw.consistent,hw.cached,?_,?_⟩,?_⟩
  · rw [ha,update_self]
    exact h.type
  · rw [ha,update_self,hsrc]
    rcases max_choice (s.inode dp).size (DIRENT*k+DIRENT) with hmax | hmax
    · rw [hmax]
      exact h.aligned
    · rw [hmax]
      exact ⟨k+1,(Nat.mul_succ _ _).symm⟩
  · rw [Sys.slots,hw.contents]
    refine slots_overwrite hsrc ?_ hk
    rw [length_contents]
    exact h.aligned

end Linking

section Blocks
variable {blk : ℕ → Block} {d : Dinode}

theorem need_entry (blk : ℕ → Block) (d : Dinode) (k : ℕ) : need blk d (DIRENT*k) DIRENT = cost blk d (DIRENT*k/BSIZE) := by
  have hk : DIRENT*k = 16*k := rfl
  have hlast : (DIRENT*k+DIRENT+BSIZE-1)/BSIZE = DIRENT*k/BSIZE+1 := by
    change (16*k+16+512-1)/512 = 16*k/512+1
    omega
  have hindirect : NDIRECT*BSIZE < DIRENT*k+DIRENT ↔ NDIRECT ≤ DIRENT*k/BSIZE := by
    change 12*512 < 16*k+16 ↔ 12 ≤ 16*k/512
    omega
  unfold need cost
  rw [hlast,Nat.Ico_succ_singleton,Finset.sum_singleton,if_congr (and_congr_left' hindirect) rfl rfl]

variable [sb : Superblock]

theorem cost_le_of_writei {src : List UInt8} {off : ℕ} {r : Option ℕ} (h : s.Consistent) (hcached : s.Cached dp)
    (htype : (s.inode dp).type = .dir) (hne : src ≠ []) (hoff : off ≤ (s.inode dp).size)
    (hmax : off+src.length ≤ MAXFILE*BSIZE) (hrun : writei dp src off s = .ok r s') :
    cost s.block (s.inode dp) (off/BSIZE) ≤ free s.used := by
  have hlen := List.length_pos_iff.mpr hne
  have hbound : MAXFILE*BSIZE < 2^32 := by decide
  have hbn : off/BSIZE < MAXFILE := by
    rw [Nat.div_lt_iff_lt_mul (by decide)]
    omega
  rcases bmap_cases h (by rw [htype]; nofun) hcached hbn with ⟨b,s₁,-,hmapped⟩ | ⟨s₁,hmap,-⟩
  · have := hmapped.left
    omega
  · obtain ⟨fuel,hfuel⟩ : ∃ fuel, src.length = fuel+1 := ⟨src.length-1,by omega⟩
    unfold writei at hrun
    rw [bind_of_ok (get_apply s),← hcached.inode,if_neg (by rw [htype]; nofun)] at hrun
    rw [if_neg (by rw [Nat.mod_eq_of_lt (by omega)]; omega),if_neg (by omega)] at hrun
    have hfail : writeBlocks dp src.length off src s = .error .ballocOutOfBlocks s₁ := by
      rw [hfuel,writeBlocks,if_neg hne,bind_of_error hmap]
    rw [bind_of_error hfail] at hrun
    cases hrun

/-- A new name is entered, or there is no room for it in the directory, or no block on the disk. -/
theorem dirlink_new_cases (h : s.Directory dp) (hl : lookup name (s.slots dp) = none) (inum : ℕ) :
    (∃ s', dirlink dp name inum s = .ok true s' ∧ s.HasRoom dp ∧ s.entryCost dp ≤ free s.used ∧
      writei dp (Dirent.toBytes ⟨inum,name⟩) (s.freeOffset dp) s = .ok (some DIRENT) s' ∧
      Wrote dp (s.freeOffset dp) (Dirent.toBytes ⟨inum,name⟩) s s') ∨
    (∃ s', dirlink dp name inum s = .error .ballocOutOfBlocks s' ∧ s.HasRoom dp ∧ free s.used < s.entryCost dp) ∨
    dirlink dp name inum s = .error .dirlink s ∧ ¬ s.HasRoom dp := by
  have hlen := Dirent.length_toBytes ⟨inum,name⟩
  have hoff := h.freeOffset_le
  rw [dirlink_new h hl]
  by_cases hroom : s.HasRoom dp
  · have hmax : s.freeOffset dp+(Dirent.toBytes ⟨inum,name⟩).length ≤ MAXFILE*BSIZE := by
      rw [hlen]
      exact hroom
    rcases writei_cases h.consistent (by rw [h.type]; nofun) h.cached (by rw [h.type]; nofun) hoff hmax with
      ⟨s',hrun,hwrote⟩ | ⟨s',hrun,hfull⟩
    · refine .inl ⟨s',?_,hroom,?_,by rw [← hlen]; exact hrun,hwrote⟩
      · rw [bind_of_ok hrun,hlen]
        rfl
      · have hne : Dirent.toBytes ⟨inum,name⟩ ≠ [] := nofun
        exact cost_le_of_writei h.consistent h.cached h.type hne hoff (by rw [hlen]; exact hroom) hrun
    · refine .inr (.inl ⟨s',?_,hroom,?_⟩)
      · rw [bind_of_error hrun]
      · rw [hlen,Sys.freeOffset,need_entry] at hfull
        exact hfull
  · refine .inr (.inr ⟨?_,hroom⟩)
    rw [bind_of_ok (writei_refused h.cached (by rw [h.type]; nofun) fun hc => hroom (by rw [hlen] at hc; exact hc.2))]
    rfl

end Blocks

end Xv6.Fs
