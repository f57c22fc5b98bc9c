import Mathlib

/-! # Compile-time constants of the kernel -/
namespace Xv6

abbrev NOFILE : ℕ := 16
abbrev NFILE : ℕ := 100
abbrev ROOTDEV : ℕ := 1
abbrev MAXOPBLOCKS : ℕ := 10
abbrev LOGSIZE : ℕ := MAXOPBLOCKS*3
abbrev NBUF : ℕ := MAXOPBLOCKS*3
abbrev FSSIZE : ℕ := 1000
abbrev BSIZE : ℕ := 512
abbrev NDIRECT : ℕ := 12
abbrev NINDIRECT : ℕ := BSIZE/4
abbrev MAXFILE : ℕ := NDIRECT+NINDIRECT
abbrev PGSIZE : ℕ := 4096
abbrev MAX_WMMAP_INFO : ℕ := 16
abbrev MEM_HASH_SIZE : ℕ := 19

-- Named, so that numerals of these index types carry no proofs of their own.
instance neZero_two : NeZero 2 := ⟨by decide⟩
instance neZero_nproc : NeZero 64 := ⟨by decide⟩
instance : NeZero NFILE := ⟨by decide⟩
instance : NeZero NBUF := ⟨by decide⟩
instance : NeZero BSIZE := ⟨by decide⟩
instance : NeZero PGSIZE := ⟨by decide⟩
instance : NeZero MEM_HASH_SIZE := ⟨by decide⟩

theorem LOGSIZE_eq : LOGSIZE = 30 := rfl
theorem BSIZE_eq : BSIZE = 512 := rfl
theorem FSSIZE_eq : FSSIZE = 1000 := rfl

end Xv6
