import Xv6.Fs.State

/-! # Blocks and inodes

The allocator of disk blocks, the inode cache, and reading and writing the contents of
an inode. A sleep lock that the running call already holds is never given up, so taking
it once more stops the call.
-/
namespace Xv6.Fs
open ByteField

def onlyIf (c : Prop) [Decidable c] (x : FsM Unit) : FsM Unit := if c then x else pure ()

def bread (b : ℕ) : FsM Block := do
  if FSSIZE ≤ b then throw .incorrectBlockno else pure ((← get).block b)

def bwrite (b : ℕ) (f : Block → Block) : FsM Unit := do
  if FSSIZE ≤ b then throw .incorrectBlockno
  else modify fun s => { s with block := Function.update s.block b (f (s.block b)) }

def bzero (b : ℕ) : FsM Unit := bwrite b fun _ => zeros

def bfree (b : ℕ) : FsM Unit := do
  let s ← get
  if s.used b = false then throw .freeingFreeBlock
  else set { s with used := Function.update s.used b false }

def setInode (ip : ℕ) (v : Inode) : FsM Unit := modify fun s =>
  { s with cache := Function.update s.cache ip v }

def assign (ip : ℕ) (f : Dinode → Dinode) : FsM Unit := do
  let v := (← get).cache ip
  setInode ip { v with copy := f v.copy }

def iupdate (ip : ℕ) : FsM Unit := modify fun s =>
  { s with dinode := Function.update s.dinode ip (s.cache ip).copy }

def store (ip : ℕ) (f : Dinode → Dinode) : FsM Unit := do
  assign ip f
  iupdate ip

def iget (inum : ℕ) : FsM Unit := do
  let s ← get
  let v := s.cache inum
  if 0 < v.ref then setInode inum { v with ref := v.ref+1 }
  else if NINODE ≤ s.incore then throw .igetNoInodes
  else set { s with
    cache := Function.update s.cache inum { v with ref := 1, valid := false }
    incore := s.incore+1 }

def idup (ip : ℕ) : FsM Unit := do
  let v := (← get).cache ip
  setInode ip { v with ref := v.ref+1 }

def ilock (ip : ℕ) : FsM Unit := do
  let s ← get
  let v := s.cache ip
  if v.ref < 1 then throw .ilock
  else if v.locked then throw .deadlock
  else if v.valid then setInode ip { v with locked := true }
  else if (s.dinode ip).type = .free then throw .ilockNoType
  else setInode ip { v with locked := true, valid := true, copy := s.dinode ip }

def iunlock (ip : ℕ) : FsM Unit := do
  let v := (← get).cache ip
  if v.locked = false ∨ v.ref < 1 then throw .iunlock
  else setInode ip { v with locked := false }

def setAddr (k : Fin (NDIRECT+1)) (b : ℕ) (d : Dinode) : Dinode :=
  { d with addrs := Function.update d.addrs k b }

def truncAddr (ip : ℕ) (k : Fin (NDIRECT+1)) : FsM Unit := do
  let addr := ((← get).cache ip).copy.addrs k
  onlyIf (addr ≠ 0) do
    bfree addr
    assign ip (setAddr k 0)

def truncWords (a : Block) : FsM Unit :=
  (List.range NINDIRECT).forM fun j => onlyIf (word a j ≠ 0) (bfree (word a j))

def itrunc (ip : ℕ) : FsM Unit := do
  (List.finRange NDIRECT).forM fun k => truncAddr ip k.castSucc
  let addr := ((← get).cache ip).copy.addrs (Fin.last NDIRECT)
  onlyIf (addr ≠ 0) do
    let a ← bread addr
    truncWords a
    truncAddr ip (Fin.last NDIRECT)
  store ip fun d => { d with size := 0 }

def ifree (ip : ℕ) : FsM Unit := do
  itrunc ip
  store ip fun d => { d with type := .free }
  let v := (← get).cache ip
  setInode ip { v with valid := false }

/-- Gives a reference back. The last one to an inode without links frees it. -/
def iput (ip : ℕ) : FsM Unit := do
  let v := (← get).cache ip
  if v.locked then throw .deadlock
  else
    onlyIf (v.valid = true ∧ v.copy.nlink = 0 ∧ v.ref = 1) (ifree ip)
    modify fun s =>
      let v := s.cache ip
      { s with
        cache := Function.update s.cache ip { v with ref := v.ref-1 }
        incore := if v.ref = 1 then s.incore-1 else s.incore }

def iunlockput (ip : ℕ) : FsM Unit := do
  iunlock ip
  iput ip

def external : FsM (Option (List UInt8)) := do
  match (← get).answers with
  | [] => throw .waiting
  | a :: rest =>
    modify fun s => { s with answers := rest }
    pure a

def hasDriver (d : Dinode) : Bool :=
  decide (0 ≤ d.major.toInt) && decide (d.major.toInt < NDEV) && decide (d.major.toInt = CONSOLE)

variable [sb : Superblock]

def balloc : FsM ℕ := do
  let s ← get
  match (List.range sb.size).find? fun b => !s.used b with
  | some b =>
    set { s with used := Function.update s.used b true }
    bzero b
    pure b
  | none => throw .ballocOutOfBlocks

def mapAddr (ip : ℕ) (k : Fin (NDIRECT+1)) : FsM ℕ := do
  let addr := ((← get).cache ip).copy.addrs k
  if addr = 0 then
    let b ← balloc
    assign ip (setAddr k b)
    pure b
  else pure addr

def mapWord (addr j : ℕ) : FsM ℕ := do
  let a ← bread addr
  if word a j = 0 then
    let b ← balloc
    bwrite addr fun a => setWord a j b
    pure b
  else pure (word a j)

/-- The address of a block of the file, which is allocated if there is none. -/
def bmap (ip : ℕ) (bn : ℕ) : FsM ℕ := do
  if h : bn < NDIRECT then mapAddr ip ⟨bn,Nat.lt_succ_of_lt h⟩
  else if bn-NDIRECT < NINDIRECT then
    let addr ← mapAddr ip (Fin.last NDIRECT)
    mapWord addr (bn-NDIRECT)
  else throw .bmapOutOfRange

def readBlocks (ip : ℕ) : ℕ → ℕ → ℕ → FsM (List UInt8)
  | 0, _, _ => pure []
  | fuel + 1, off, n =>
    if n = 0 then pure []
    else do
      let a ← bread (← bmap ip (off/BSIZE))
      let m := min n (BSIZE-off%BSIZE)
      let rest ← readBlocks ip fuel (off+m) (n-m)
      pure (slice a (off%BSIZE) m ++ rest)

def readi (ip : ℕ) (off n : ℕ) : FsM (Option (List UInt8)) := do
  let d := ((← get).cache ip).copy
  if d.type = .dev then
    if hasDriver d then
      let r ← external
      pure (r.map (·.take n))
    else pure none
  else if d.size < off ∨ (off+n)%2^32 < off then pure none
  else
    let n := if d.size < off+n then d.size-off else n
    let bytes ← readBlocks ip n off n
    pure (some bytes)

def writeBlocks (ip : ℕ) : ℕ → ℕ → List UInt8 → FsM Unit
  | 0, _, _ => pure ()
  | fuel + 1, off, src =>
    if src = [] then pure ()
    else do
      let b ← bmap ip (off/BSIZE)
      let m := min src.length (BSIZE-off%BSIZE)
      bwrite b fun a => blit a (off%BSIZE) (src.take m)
      writeBlocks ip fuel (off+m) (src.drop m)

def writei (ip : ℕ) (src : List UInt8) (off : ℕ) : FsM (Option ℕ) := do
  let d := ((← get).cache ip).copy
  let n := src.length
  if d.type = .dev then
    if hasDriver d then pure (some n) else pure none
  else if d.size < off ∨ (off+n)%2^32 < off then pure none
  else if MAXFILE*BSIZE < off+n then pure none
  else
    writeBlocks ip n off src
    onlyIf (0 < n ∧ d.size < off+n) (store ip fun d => { d with size := off+n })
    pure (some n)

end Xv6.Fs
