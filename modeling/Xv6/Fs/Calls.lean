import Xv6.Fs.Paths

/-! # Writes to open files

`filewrite` splits what it has to write into pieces that fit a transaction. The offset of the
open file moves with every piece.
-/
namespace Xv6.Fs
open ByteField

section Files

def setFile (f : FileNo) (v : File) : FsM Unit := modify fun s =>
  { s with file := Function.update s.file f v }

def advance (f : FileNo) (n : ℕ) : FsM Unit := do
  let v := (← get).file f
  setFile f { v with off := v.off+n }

end Files

variable [sb : Superblock]

section Transfers

def maxWrite : ℕ := (MAXOPBLOCKS-1-1-2)/2*512

def writeChunks (f : FileNo) (ip : ℕ) : ℕ → List UInt8 → FsM Bool
  | 0, _ => pure true
  | fuel + 1, src =>
    if src = [] then pure true
    else do
      let n := min src.length maxWrite
      ilock ip
      let r ← writei ip (src.take n) ((← get).file f).off
      advance f (r.getD 0)
      iunlock ip
      match r with
      | none => pure false
      | some r => if r ≠ n then throw .shortFilewrite else writeChunks f ip fuel (src.drop n)

def filewrite (f : FileNo) (src : List UInt8) : FsM Bool := do
  let v := (← get).file f
  if v.writable = false then pure false
  else match v.kind with
    | .pipe _ => do
      let r ← external
      pure r.isSome
    | .inode ip => writeChunks f ip src.length src
    | .none => throw .filewrite

end Transfers

end Xv6.Fs
