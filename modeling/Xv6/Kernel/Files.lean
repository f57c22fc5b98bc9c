import Xv6.Kernel.State

/-! # Open files

The operations of the file layer that the calls on mappings use. An inode that its
caller has locked already cannot be locked again; the caller would wait for itself.
-/
namespace Xv6.Kernel
open Wmap

def setFile (f : Fin NFILE) (v : File) : KernelM Unit := modify fun s =>
  { s with files := { s.files with file := Function.update s.files.file f v } }

def setInode (ip : ℕ) (v : Inode) : KernelM Unit := modify fun s =>
  { s with files := { s.files with inode := Function.update s.files.inode ip v } }

def ilock (ip : ℕ) : KernelM Unit := do
  let i := (← get).files.inode ip
  if i.locked then throw .hang else setInode ip { i with locked := true }

def iunlock (ip : ℕ) : KernelM Unit := do
  let i := (← get).files.inode ip
  setInode ip { i with locked := false }

def blocksOf (size : ℕ) : ℕ :=
  let blocks := (size+BSIZE-1)/BSIZE
  if NDIRECT < blocks then blocks+1 else blocks

def iput (ip : ℕ) : KernelM Unit := do
  let i := (← get).files.inode ip
  if i.locked then throw .hang
  else if i.ref = 1 ∧ i.nlink = 0 then
    modify fun s => { s with files := { s.files with
      inode := Function.update s.files.inode ip { i with ref := 0, contents := [] }
      freeBlocks := s.files.freeBlocks+blocksOf i.contents.length } }
  else setInode ip { i with ref := i.ref-1 }

def idup (ip : ℕ) : KernelM Unit := do
  let i := (← get).files.inode ip
  setInode ip { i with ref := i.ref+1 }

def filedup (f : Fin NFILE) : KernelM Unit := do
  let v := (← get).files.file f
  if v.ref < 1 then throw .panic else setFile f { v with ref := v.ref+1 }

def Pipe.close (v : Pipe) (writable : Bool) : Pipe :=
  if writable then { v with writeopen := false } else { v with readopen := false }

def pipeclose (p : ℕ) (writable : Bool) : KernelM Unit := do
  let v := ((← get).files.pipe p).close writable
  modify fun s => { s with files := { s.files with pipe := Function.update s.files.pipe p v } }
  if v.readopen = false ∧ v.writeopen = false then kfree v.frame else pure ()

def fileclose (f : Fin NFILE) : KernelM Unit := do
  let v := (← get).files.file f
  if v.ref < 1 then throw .panic
  else if 1 < v.ref then setFile f { v with ref := v.ref-1 }
  else
    setFile f { v with ref := 0, kind := .none }
    match v.kind with
    | .none => pure ()
    | .pipe p => pipeclose p v.writable
    | .inode ip => iput ip

def readi (contents : List Byte) (off n : Word) : Option (List Byte) :=
  if contents.length < off.toNat ∨ off+n < off then none
  else some ((contents.drop off.toNat).take n.toNat)

def advance (f : Fin NFILE) (bytes : Option (List Byte)) : KernelM Unit := do
  match bytes with
  | none => pure ()
  | some bytes =>
    let v := (← get).files.file f
    setFile f { v with off := v.off+BitVec.ofNat 32 bytes.length }

def fileread (f : Fin NFILE) (n : Word) : KernelM (Option (List Byte)) := do
  let v := (← get).files.file f
  if v.readable = false then pure none
  else match v.kind with
    | .pipe _ => throw .external
    | .inode ip => do
      ilock ip
      let i := (← get).files.inode ip
      if i.device then throw .external
      else
        let r := readi i.contents v.off n
        advance f r
        iunlock ip
        pure r
    | .none => throw .panic

def writable (contents : List Byte) (off n : Word) : Bool :=
  decide (off.toNat ≤ contents.length) && decide (off ≤ off+n) &&
    decide (off.toNat+n.toNat ≤ MAXFILE*BSIZE)

def splice (contents : List Byte) (off : ℕ) (bytes : List Byte) : List Byte :=
  contents.take off ++ bytes ++ contents.drop (off+bytes.length)

def storei (ip : ℕ) (off : ℕ) (bytes : List Byte) : KernelM Unit := do
  let i := (← get).files.inode ip
  let contents := splice i.contents off bytes
  let new := blocksOf contents.length-blocksOf i.contents.length
  if (← get).files.freeBlocks < new then throw .panic
  else modify fun s => { s with files := { s.files with
    inode := Function.update s.files.inode ip { i with contents }
    freeBlocks := s.files.freeBlocks-new } }

end Xv6.Kernel
