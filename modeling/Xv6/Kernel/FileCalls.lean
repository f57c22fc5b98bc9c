import Xv6.Kernel.Calls

/-! # Calls on open files

`read`, `write`, `open` and `close` as far as they touch open files, inodes and the
memory of the process. How a path leads to an inode is not visible here: `open` is given
the inode that it has found.
-/
namespace Xv6.Kernel
open Wmap

def O_WRONLY : Word := 1
def O_RDWR : Word := 2

def argfd (fd : Word) : KernelM (Option (Fin NFILE)) := do
  if h : fd.toNat < NOFILE then pure ((← get).cur.ofile ⟨fd.toNat,h⟩) else pure none

def argptr (p size : Word) : KernelM Bool := do
  let sz := (← get).cur.sz
  pure (decide (0 ≤ size.toInt) && decide (p < sz) && decide (p+size ≤ sz))

def store (va : Word) : List Byte → KernelM Unit
  | [] => pure ()
  | b :: bytes => do
    kwrite va b
    store (va+1) bytes

section Read

def filereadUser (f : Fin NFILE) (addr n : Word) : KernelM Word := do
  let v := (← get).files.file f
  if v.readable = false then pure (-1)
  else match v.kind with
    | .pipe _ => throw .external
    | .inode ip => do
      ilock ip
      let i := (← get).files.inode ip
      if i.device then throw .external
      else
        match readi i.contents v.off n with
        | none =>
          iunlock ip
          pure (-1)
        | some bytes =>
          store addr bytes
          advance f (some bytes)
          iunlock ip
          pure (BitVec.ofNat 32 bytes.length)
    | .none => throw .panic

def sysRead (fd p n : Word) : KernelM Word := do
  match ← argfd fd with
  | none => pure (-1)
  | some f => if ← argptr p n then filereadUser f p n else pure (-1)

end Read

section Write

def filewriteLoop (f : Fin NFILE) (ip : ℕ) : ℕ → Word → ℕ → KernelM Bool
  | 0, _, _ => pure true
  | fuel+1, addr, left => do
    if left = 0 then pure true
    else
      let n := min left maxChunk
      if ← overwriteChunk f ip addr n then filewriteLoop f ip fuel (addr+BitVec.ofNat 32 n) (left-n)
      else pure false

def filewrite (f : Fin NFILE) (addr n : Word) : KernelM Word := do
  let v := (← get).files.file f
  if v.writable = false then pure (-1)
  else match v.kind with
    | .pipe _ => throw .external
    | .inode ip => do
      if ← filewriteLoop f ip n.toNat addr n.toInt.toNat then pure n else pure (-1)
    | .none => throw .panic

def sysWrite (fd p n : Word) : KernelM Word := do
  match ← argfd fd with
  | none => pure (-1)
  | some f => if ← argptr p n then filewrite f p n else pure (-1)

end Write

section Open

def filealloc : KernelM (Option (Fin NFILE)) := do
  let file := (← get).files.file
  match (List.finRange NFILE).find? fun f => (file f).ref = 0 with
  | none => pure none
  | some f =>
    setFile f { file f with ref := 1 }
    pure (some f)

def fdalloc (f : Fin NFILE) : KernelM (Option (Fin NOFILE)) := do
  let files := (← get).cur.ofile
  match (List.finRange NOFILE).find? fun fd => files fd = none with
  | none => pure none
  | some fd =>
    modify fun s => { s with cur := { s.cur with ofile := Function.update s.cur.ofile fd (some f) } }
    pure (some fd)

def sysOpen (found : Option ℕ) (omode : Word) : KernelM Word := do
  match found with
  | none => pure (-1)
  | some ip => do
    idup ip
    ilock ip
    match ← filealloc with
    | none =>
      iunlock ip
      iput ip
      pure (-1)
    | some f =>
      match ← fdalloc f with
      | none =>
        fileclose f
        iunlock ip
        iput ip
        pure (-1)
      | some fd =>
        iunlock ip
        setFile f { (← get).files.file f with
          kind := .inode ip, off := 0, readable := decide (omode &&& O_WRONLY = 0),
          writable := decide (omode &&& O_WRONLY ≠ 0) || decide (omode &&& O_RDWR ≠ 0) }
        pure (BitVec.ofNat 32 fd.val)

def sysClose (fd : Word) : KernelM Word := do
  match ← argfd fd with
  | none => pure (-1)
  | some f =>
    modify fun s => { s with cur := { s.cur with
      ofile := fun k => if k.val = fd.toNat then none else s.cur.ofile k } }
    fileclose f
    pure 0

end Open
end Xv6.Kernel
