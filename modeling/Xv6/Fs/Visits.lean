import Xv6.Fs.Entries

/-! # Visiting an inode

A path walk takes a reference to an inode, locks it, reads it and gives both back. The files stay what they are, and the
count of the references says which inode is being visited.
-/
namespace Xv6.Fs
open Program Function
variable {s t u : Sys} {i j : ℕ}

theorem Alike.refl (s : Sys) : Alike s s := ⟨rfl,rfl,rfl,rfl,fun _ => rfl,fun _ => rfl,rfl,rfl,rfl,rfl⟩

theorem Alike.trans (h : Alike s t) (h' : Alike t u) : Alike s u where
  used := h'.used.trans h.used
  block := h'.block.trans h.block
  dinode := h'.dinode.trans h.dinode
  inode := h'.inode.trans h.inode
  ref i := (h'.ref i).trans (h.ref i)
  locked i := (h'.locked i).trans (h.locked i)
  incore := h'.incore.trans h.incore
  file := h'.file.trans h.file
  ofile := h'.ofile.trans h.ofile
  cwd := h'.cwd.trans h.cwd

section Counts

theorem ref_grab (s : Sys) (i j : ℕ) : ((s.grab i).cache j).ref = (s.cache j).ref+if j = i then 1 else 0 := by
  by_cases hj : j = i
  · rw [hj,s.grab_self,if_pos rfl]
  · rw [if_neg hj]
    exact congrArg Inode.ref (update_of_ne hj ..)

theorem ref_drop (s : Sys) (i j : ℕ) : ((s.drop i).cache j).ref = (s.cache j).ref-if j = i then 1 else 0 := by
  by_cases hj : j = i
  · rw [hj,s.drop_self,if_pos rfl]
  · rw [if_neg hj]
    exact congrArg Inode.ref (update_of_ne hj ..)

theorem locked_grab (s : Sys) (i j : ℕ) : ((s.grab i).cache j).locked = (s.cache j).locked := by
  by_cases hj : j = i
  · rw [hj,s.grab_self]
  · exact congrArg Inode.locked (update_of_ne hj ..)

theorem locked_drop (s : Sys) (i j : ℕ) : ((s.drop i).cache j).locked = (s.cache j).locked := by
  by_cases hj : j = i
  · rw [hj,s.drop_self]
  · exact congrArg Inode.locked (update_of_ne hj ..)

theorem ref_lock (s : Sys) (i j : ℕ) : ((s.lock i).cache j).ref = (s.cache j).ref := by
  by_cases hj : j = i
  · rw [hj,s.lock_self]
  · exact congrArg Inode.ref (update_of_ne hj ..)

theorem ref_unlock (s : Sys) (i j : ℕ) : ((s.unlock i).cache j).ref = (s.cache j).ref := by
  by_cases hj : j = i
  · rw [hj,s.unlock_self]
  · exact congrArg Inode.ref (update_of_ne hj ..)

theorem locked_lock (s : Sys) (i j : ℕ) : ((s.lock i).cache j).locked = if j = i then true else (s.cache j).locked := by
  by_cases hj : j = i
  · rw [hj,s.lock_self,if_pos rfl]
  · rw [if_neg hj]
    exact congrArg Inode.locked (update_of_ne hj ..)

theorem locked_unlock (s : Sys) (i j : ℕ) : ((s.unlock i).cache j).locked = if j = i then false else (s.cache j).locked := by
  by_cases hj : j = i
  · rw [hj,s.unlock_self,if_pos rfl]
  · rw [if_neg hj]
    exact congrArg Inode.locked (update_of_ne hj ..)

theorem incore_grab (s : Sys) (i : ℕ) : (s.grab i).incore = s.incore+if (s.cache i).ref = 0 then 1 else 0 := by
  change (if 0 < (s.cache i).ref then s.incore else s.incore+1) = _
  split <;> split <;> omega

theorem incore_drop (s : Sys) (i : ℕ) : (s.drop i).incore = s.incore-if (s.cache i).ref = 1 then 1 else 0 := by
  change (if (s.cache i).ref = 1 then s.incore-1 else s.incore) = _
  split <;> omega

theorem inode_of_ref_zero (h : (s.cache i).ref = 0) : s.inode i = s.dinode i := if_neg fun hc => by omega

theorem inode_grab (s : Sys) (i : ℕ) : (s.grab i).inode = s.inode := by
  funext j
  by_cases hj : j = i
  · subst hj
    unfold Sys.inode
    rw [s.grab_self]
    by_cases hpos : 0 < (s.cache j).ref
    · simp only [hpos,decide_true,Bool.and_true,true_and,Nat.succ_pos]
      rfl
    · rw [if_neg fun hc => hpos (of_decide_eq_true (Bool.and_eq_true_iff.mp hc.2).2),if_neg fun hc => hpos hc.1]
      rfl
  · have hsame : (s.grab i).cache j = s.cache j := update_of_ne hj ..
    exact Sys.inode_congr (by rw [hsame]) (by rw [hsame]) (by rw [hsame]) rfl

theorem inode_drop (h : (s.cache i).ref = 1 → s.inode i = s.dinode i) : (s.drop i).inode = s.inode := by
  funext j
  by_cases hj : j = i
  · subst hj
    by_cases hone : (s.cache j).ref = 1
    · rw [h hone,inode_of_ref_zero (by rw [ref_drop,if_pos rfl,hone])]
      rfl
    · by_cases hzero : (s.cache j).ref = 0
      · rw [inode_of_ref_zero hzero,inode_of_ref_zero (by rw [ref_drop,hzero,Nat.zero_sub])]
        rfl
      · unfold Sys.inode
        rw [s.drop_self]
        have hpos : 0 < (s.cache j).ref-1 ↔ 0 < (s.cache j).ref := by omega
        simp only [hpos]
        rfl
  · have hsame : (s.drop i).cache j = s.cache j := update_of_ne hj ..
    exact Sys.inode_congr (by rw [hsame]) (by rw [hsame]) (by rw [hsame]) rfl

end Counts

section Visits

theorem alike_grab_comm (s : Sys) (i j : ℕ) : Alike ((s.grab i).grab j) ((s.grab j).grab i) where
  used := rfl
  block := rfl
  dinode := rfl
  inode := by rw [inode_grab,inode_grab,inode_grab,inode_grab]
  ref k := by
    rw [ref_grab,ref_grab,ref_grab,ref_grab]
    omega
  locked k := by rw [locked_grab,locked_grab,locked_grab,locked_grab]
  incore := by
    rw [incore_grab,incore_grab,incore_grab,incore_grab,ref_grab,ref_grab]
    by_cases hij : i = j
    · rw [hij]
    · rw [if_neg hij,if_neg (Ne.symm hij),Nat.add_zero,Nat.add_zero]
      omega
  file := rfl
  ofile := rfl
  cwd := rfl

theorem Alike.locked_grab (h : Alike s t) (hpos : 0 < (s.cache i).ref) (hunlocked : (s.cache i).locked = false) (j : ℕ) :
    Alike (s.grab j) (((t.lock i).grab j).unlock i) where
  used := h.used
  block := h.block
  dinode := h.dinode
  inode := by rw [Sys.inode_unlock,inode_grab,Sys.inode_lock (by rwa [h.ref]),inode_grab,h.inode]
  ref k := by rw [ref_unlock,ref_grab,ref_lock,ref_grab,h.ref]
  locked k := by
    rw [locked_unlock,Fs.locked_grab,locked_lock,Fs.locked_grab,h.locked]
    by_cases hk : k = i
    · rw [if_pos hk,hk,hunlocked]
    · rw [if_neg hk,if_neg hk]
  incore := by
    change ((t.lock i).grab j).incore = _
    rw [incore_grab,ref_lock,incore_grab,h.ref]
    exact congrArg (·+_) h.incore
  file := h.file
  ofile := h.ofile
  cwd := h.cwd

theorem Alike.locked_unlock (h : Alike s t) (hpos : 0 < (s.cache i).ref) (hunlocked : (s.cache i).locked = false) :
    Alike s ((t.lock i).unlock i) where
  used := h.used
  block := h.block
  dinode := h.dinode
  inode := by rw [Sys.inode_unlock,Sys.inode_lock (by rwa [h.ref]),h.inode]
  ref k := by rw [ref_unlock,ref_lock,h.ref]
  locked k := by
    rw [Fs.locked_unlock,locked_lock,h.locked]
    by_cases hk : k = i
    · rw [if_pos hk,hk,hunlocked]
    · rw [if_neg hk,if_neg hk]
  incore := h.incore
  file := h.file
  ofile := h.ofile
  cwd := h.cwd

theorem Alike.drop (h : Alike (s.grab i) t) : Alike s (t.drop i) where
  used := h.used
  block := h.block
  dinode := h.dinode
  inode := by
    have href := h.ref i
    rw [ref_grab,if_pos rfl] at href
    rw [inode_drop,h.inode,inode_grab]
    intro hone
    rw [h.inode,inode_grab,h.dinode,inode_of_ref_zero (by omega)]
    rfl
  ref k := by
    rw [ref_drop,h.ref,ref_grab]
    omega
  locked k := by rw [locked_drop,h.locked,Fs.locked_grab]
  incore := by
    rw [incore_drop,h.incore,h.ref,incore_grab,ref_grab,if_pos rfl]
    split <;> split <;> omega
  file := h.file
  ofile := h.ofile
  cwd := h.cwd

end Visits

end Xv6.Fs
