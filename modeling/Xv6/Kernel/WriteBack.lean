import Xv6.Kernel.PageFaults

/-! # Writing a mapping back

The bytes of a shared file mapping go back to the file before the mapping is removed. If
all its pages can be read and the disk has room, this changes the file and nothing else.
-/
namespace Xv6.Kernel
open Wmap Program Function
variable {s s' : Ctx} {a : Word} {n : ℕ} {f : Fin NFILE} {ip : ℕ}

section Reading

def Readable (s : Ctx) (a : Word) (n : ℕ) : Prop := ∀ k < n, a+BitVec.ofNat 32 k < KERNBASE ∧
  (translate s.cur.pgdir .kernelRead (a+BitVec.ofNat 32 k)).isSome

end Reading

section Writing

/-- Only the contents and the offset of one file have changed. -/
structure Wrote (s s' : Ctx) (f : Fin NFILE) (ip : ℕ) : Prop where
  rest : s' = { s with files := s'.files }
  others : ∀ k, k ≠ f → s'.files.file k = s.files.file k
  opened : s'.files.file f = { s.files.file f with off := (s'.files.file f).off }
  inodes : ∀ j, j ≠ ip → s'.files.inode j = s.files.inode j
  inode : s'.files.inode ip = { s.files.inode ip with contents := (s'.files.inode ip).contents }
  pipe : s'.files.pipe = s.files.pipe

theorem Wrote.refl (s : Ctx) (f : Fin NFILE) (ip : ℕ) : Wrote s s f ip :=
  ⟨rfl,fun _ _ => rfl,rfl,fun _ _ => rfl,rfl,rfl⟩

theorem Wrote.trans {s'' : Ctx} (h : Wrote s s' f ip) (h' : Wrote s' s'' f ip) : Wrote s s'' f ip where
  rest := by
    rw [h'.rest,h.rest]
  others k hk := (h'.others k hk).trans (h.others k hk)
  opened := by
    rw [h'.opened,h.opened]
  inodes j hj := (h'.inodes j hj).trans (h.inodes j hj)
  inode := by
    rw [h'.inode,h.inode]
  pipe := h'.pipe.trans h.pipe

theorem blocksOf_mono {m k : ℕ} (h : m ≤ k) : blocksOf m ≤ blocksOf k := by
  have hblocks : (m+BSIZE-1)/BSIZE ≤ (k+BSIZE-1)/BSIZE := Nat.div_le_div_right (by omega)
  unfold blocksOf
  dsimp only
  split <;> split <;> omega

theorem length_splice {contents : List Byte} (bytes : List Byte) {off : ℕ} (h : off ≤ contents.length) :
    (splice contents off bytes).length = max contents.length (off+bytes.length) := by
  unfold splice
  rw [List.length_append,List.length_append,List.length_take,List.length_drop]
  omega

/-- The file can be written, and the disk has room for what is left. -/
structure HasRoom (s : Ctx) (f : Fin NFILE) (ip left : ℕ) : Prop where
  device : (s.files.inode ip).device = false
  unlocked : (s.files.inode ip).locked = false
  room : blocksOf (max (s.files.inode ip).contents.length ((s.files.file f).off.toNat+left)) ≤
    blocksOf (s.files.inode ip).contents.length+s.files.freeBlocks

def Ctx.written (s : Ctx) (f : Fin NFILE) (ip : ℕ) (bytes : List Byte) : Ctx :=
  let i := s.files.inode ip
  let v := s.files.file f
  let contents := splice i.contents v.off.toNat bytes
  { s with files := { s.files with
    inode := Function.update s.files.inode ip { i with contents }
    file := Function.update s.files.file f { v with off := v.off+BitVec.ofNat 32 bytes.length }
    freeBlocks := s.files.freeBlocks-(blocksOf contents.length-blocksOf i.contents.length) } }

theorem file_written (s : Ctx) (f : Fin NFILE) (ip : ℕ) (bytes : List Byte) : (s.written f ip bytes).files.file f =
    { s.files.file f with off := (s.files.file f).off+BitVec.ofNat 32 bytes.length } := update_self ..

theorem inode_written (s : Ctx) (f : Fin NFILE) (ip : ℕ) (bytes : List Byte) : (s.written f ip bytes).files.inode ip =
    { s.files.inode ip with contents := splice (s.files.inode ip).contents (s.files.file f).off.toNat bytes } :=
  update_self ..

theorem ilock_ok (h : (s.files.inode ip).locked = false) : ilock ip s = .ok () { s with files := { s.files with
    inode := Function.update s.files.inode ip { s.files.inode ip with locked := true } } } := by
  unfold ilock
  rw [get_bind_apply,h]
  rfl

theorem writable_iff {contents : List Byte} {off m : Word} : writable contents off m = true ↔
    off.toNat ≤ contents.length ∧ off ≤ off+m ∧ off.toNat+m.toNat ≤ MAXFILE*BSIZE := by
  unfold writable
  rw [Bool.and_eq_true,Bool.and_eq_true,decide_eq_true_eq,decide_eq_true_eq,decide_eq_true_eq,and_assoc]

theorem HasRoom.next {left : ℕ} (h : HasRoom s f ip left) (bytes : List Byte) (hn : bytes.length ≤ left)
    (hsmall : bytes.length < 2^32)
    (hw : writable (s.files.inode ip).contents (s.files.file f).off (BitVec.ofNat 32 bytes.length) = true) :
    HasRoom (s.written f ip bytes) f ip (left-bytes.length) := by
  obtain ⟨hoff,hle,-⟩ := writable_iff.mp hw
  have hnat : ((s.files.file f).off+BitVec.ofNat 32 bytes.length).toNat = (s.files.file f).off.toNat+bytes.length := by
    rw [BitVec.le_def,BitVec.toNat_add,BitVec.toNat_ofNat,Nat.mod_eq_of_lt hsmall] at hle
    rw [BitVec.toNat_add,BitVec.toNat_ofNat,Nat.mod_eq_of_lt hsmall]
    omega
  have hlen := length_splice bytes hoff
  refine ⟨?_,?_,?_⟩
  · rw [inode_written]
    exact h.device
  · rw [inode_written]
    exact h.unlocked
  · have hroom := h.room
    have hmono : blocksOf (s.files.inode ip).contents.length ≤
        blocksOf (splice (s.files.inode ip).contents (s.files.file f).off.toNat bytes).length :=
      blocksOf_mono (by omega)
    rw [inode_written,file_written]
    dsimp only
    rw [hnat]
    change _ ≤ _+(s.files.freeBlocks-_)
    have hmax : max (splice (s.files.inode ip).contents (s.files.file f).off.toNat bytes).length
        ((s.files.file f).off.toNat+bytes.length+(left-bytes.length)) =
        max (s.files.inode ip).contents.length ((s.files.file f).off.toNat+left) := by omega
    rw [hmax]
    omega

end Writing

section Back

def WritesBack (s : Ctx) (e : Entry) : Prop := sharedFile e.flags = true →
  ∃ f, ofile e.fd s = .ok (some f) s ∧ ((s.files.file f).writable = true →
    ∃ ip, (s.files.file f).kind = .inode ip ∧ Readable s e.startAddress e.length.toInt.toNat ∧
      HasRoom (s.rewound f) f ip e.length.toInt.toNat)

def WroteFile (s s' : Ctx) (e : Entry) : Prop := s' = s ∨ sharedFile e.flags = true ∧
  ∃ f ip, ofile e.fd s = .ok (some f) s ∧ (s.files.file f).kind = .inode ip ∧ Wrote s s' f ip

theorem WroteFile.rest {e : Entry} (h : WroteFile s s' e) : s' = { s with files := s'.files } := by
  rcases h with rfl | ⟨-,f,ip,-,-,h⟩
  · rfl
  · exact h.rest

end Back
end Xv6.Kernel
