import Xv6.Kernel.Trap

/-! # The calls on mappings

`wmap`, `wunmap` and `wremap` with the helpers they share, and the calls of the
process that touch the mappings on the way, `fork` and `exit`.
-/
namespace Xv6.Kernel
open Wmap

def fetch (va : Word) : ℕ → KernelM (List Byte)
  | 0 => pure []
  | n+1 => do
    let b ← kread va
    let bs ← fetch (va+1) n
    pure (b :: bs)

def maxChunk : ℕ := ((MAXOPBLOCKS-1-1-2)/2)*512

def overwriteChunk (f : Fin NFILE) (ip : ℕ) (addr : Word) (n : ℕ) : KernelM Bool := do
  ilock ip
  let i := (← get).files.inode ip
  let off := ((← get).files.file f).off
  if i.device then throw .external
  else if writable i.contents off (BitVec.ofNat 32 n) then
    let bytes ← fetch addr n
    storei ip off.toNat bytes
    advance f (some bytes)
    iunlock ip
    pure true
  else
    iunlock ip
    pure false

def overwriteLoop (f : Fin NFILE) (ip : ℕ) : ℕ → Word → ℕ → KernelM Unit
  | 0, _, _ => pure ()
  | fuel+1, addr, left => do
    if left = 0 then pure ()
    else
      let n := min left maxChunk
      if ← overwriteChunk f ip addr n then overwriteLoop f ip fuel (addr+BitVec.ofNat 32 n) (left-n)
      else pure ()

def overwriteFile (f : Fin NFILE) (addr n : Word) : KernelM Unit := do
  let v := (← get).files.file f
  if v.writable = false then pure ()
  else match v.kind with
    | .none => throw .panic
    | .pipe _ => throw .external
    | .inode ip => do
      setFile f { v with off := 0 }
      overwriteLoop f ip n.toNat addr n.toInt.toNat

def sharedFile (flags : Word) : Bool :=
  decide (flags &&& MAP_ANONYMOUS = 0) && decide (flags &&& MAP_SHARED ≠ 0)

def writeBack (e : Entry) : KernelM Unit := do
  if sharedFile e.flags then
    match ← ofile e.fd with
    | none => throw .undefined
    | some f => overwriteFile f e.startAddress e.length
  else pure ()

section Placement

def roundLength (length : Word) : Word :=
  if length.srem 4096 ≠ 0 then length+(4096-length.srem 4096) else length

def scan (t : Table) : ℕ → Word → Except Stop (Option Ptr)
  | 0, _ => .ok none
  | n+1, a => do
    match ← pageInMappings t a with
    | some p => .ok (some p)
    | none => scan t n (a+4096)

def nodeEnd (t : Table) (p : Ptr) : Word := (t.deref p).startAddress+(t.deref p).extent

/-- The next address that the search of `wmap` tries, or `none` for a free range. A rounded
length that has overflowed is negative and skips the scan. -/
def nextPlace (t : Table) (round addr : Word) : Except Stop (Option Word) := do
  if 0 < round.toInt then
    match ← scan t (round.toNat/PGSIZE) addr with
    | none => .ok none
    | some p => .ok (some (nodeEnd t p))
  else
    match ← pageInMappings t addr with
    | none => .ok (some (addr+0x1000))
    | some p => .ok (some (nodeEnd t p))

def placeLoop (t : Table) (round base : Word) : ℕ → Word → Except Stop Word
  | 0, _ => .error .hang
  | fuel+1, addr => do
    match ← nextPlace t round addr with
    | none => .ok addr
    | some addr => if base = addr then .ok addr else placeLoop t round base fuel addr

/-- The end of the mapping that was made last. Without an earlier mapping the source reads
through a null pointer, and finds the words at the user addresses 0 and 4. -/
def afterRecent : KernelM Word := do
  match (← get).tab.mostRecent with
  | some p => pure (nodeEnd (← get).tab p)
  | none => do
    let start ← kreadWord 0
    let pages ← kreadWord 4
    pure (start+pages*4096)

def afterMapping (addr : Word) : KernelM Word := do
  match ← onTable (pageInMappings · addr) with
  | some p => pure (nodeEnd (← get).tab p)
  | none => afterRecent

def searchBase (addr : Word) : KernelM Word := do
  let after ← afterMapping addr
  pure (if after < 0x60000000 ∨ 0x80000000 ≤ after then MMAPBASE else after)

def place (addr length flags : Word) : KernelM (Option Word) := do
  if flags &&& MAP_FIXED ≠ 0 then
    if addr < 0x60000000 ∨ 0x80000000 ≤ addr then pure none
    else match ← onTable (pageInMappings · addr) with
      | some _ => pure none
      | none => pure (some addr)
  else
    let base ← searchBase addr
    let addr ← onTable (placeLoop · (roundLength length) base (2^32) base)
    pure (some addr)

def initTable : KernelM Unit := modify fun s =>
  if s.tab.hashInit = -1 then { s with tab := { initHashTable s.tab with hashInit := 1 } } else s

def wmap (addr length flags fd : Word) : KernelM Word := do
  initTable
  if length.toInt ≤ 0 then pure (-1)
  else match ← place (PGROUNDDOWN addr) length flags with
    | none => pure (-1)
    | some addr => do
      setTable (← onTable (hashInsert · addr length ((roundLength length).sdiv 4096) fd flags))
      pure addr

end Placement

section Unmap

def freeLoop (limit : Word) : ℕ → Word → KernelM Unit
  | 0, _ => throw .hang
  | fuel+1, a => do
    if a < limit then
      match walkpgdir (← get).cur.pgdir a with
      | none => pure ()
      | some pte =>
        if pte.frame = 0 then pure ()
        else
          kfree pte.frame
          freeLoop limit fuel (a+4096)
    else pure ()

def clearPte (a : Word) : KernelM Unit := do
  match walkpgdir (← get).cur.pgdir a with
  | none => kclearWord 0
  | some _ => setPgdir ((← get).cur.pgdir.setPte a .zero)

def clearLoop (limit : Word) : ℕ → Word → KernelM Unit
  | 0, _ => throw .hang
  | fuel+1, a => do
    if a < limit then
      clearPte a
      clearLoop limit fuel (a+4096)
    else pure ()

def wunmap (addr : Word) : KernelM Word := do
  match ← onTable (pageInMappings · addr) with
  | none => pure (-1)
  | some p => do
    writeBack ((← get).tab.deref p).toEntry
    setTable (← onTable (removeValue · addr)).2
    let limit := addr+((← get).tab.deref p).length
    freeLoop limit allPages addr
    clearLoop limit allPages addr
    pure 0

end Unmap

section Remap

def dropPte (a : Word) : KernelM Unit := do
  match walkpgdir (← get).cur.pgdir a with
  | none => pure ()
  | some _ => setPgdir ((← get).cur.pgdir.setPte a .zero)

def partialLoop (limit : Word) : ℕ → Word → KernelM Unit
  | 0, _ => throw .hang
  | fuel+1, a => do
    if a < limit then
      dropPte a
      partialLoop limit fuel (a+4096)
    else pure ()

def wunmapPartial (addr length : Word) : KernelM Unit := partialLoop (addr+length) allPages addr

def growLoop (t : Table) (limit : Word) : ℕ → Word → Except Stop Bool
  | 0, _ => .error .hang
  | fuel+1, a => do
    if a < limit then
      match ← pageInMappings t a with
      | some _ => .ok false
      | none => growLoop t limit fuel (a+4096)
    else .ok true

def canGrowInPlace (t : Table) (oldaddr oldsize newsize : Word) : Except Stop Bool :=
  growLoop t (oldaddr+newsize) allPages (oldaddr+oldsize)

def copyByte (dst src : Word) (i : ℕ) : KernelM Unit := do
  let b ← kread (src+BitVec.ofNat 32 i)
  kwrite (dst+BitVec.ofNat 32 i) b

def memmove (dst src n : Word) : KernelM Unit :=
  if src < dst ∧ dst < src+n then (List.range n.toNat).reverse.forM (copyByte dst src)
  else (List.range n.toNat).forM (copyByte dst src)

def setLength (p : Ptr) (length : Word) : KernelM Unit := modify fun s =>
  { s with tab := s.tab.setNode p { s.tab.deref p with length } }

def wremap (oldaddr oldsize newsize flags : Word) : KernelM Word := do
  match ← onTable (pageInMappings · oldaddr) with
  | none => pure (-1)
  | some p => do
    let node := (← get).tab.deref p
    if node.length ≠ oldsize then pure (-1)
    else if newsize.toInt < oldsize.toInt then
      wunmapPartial (oldaddr+newsize) (oldsize-newsize)
      setLength p newsize
      pure oldaddr
    else if oldsize.toInt < newsize.toInt then
      if ← onTable (canGrowInPlace · oldaddr oldsize newsize) then
        setLength p newsize
        pure oldaddr
      else if flags &&& MREMAP_MAYMOVE ≠ 0 then
        let newaddr ← wmap MMAPBASE newsize (node.flags-MAP_FIXED) node.fd
        if newaddr ≠ -1 then
          memmove newaddr oldaddr oldsize
          let _ ← wunmap oldaddr
          pure newaddr
        else pure (-1)
      else pure (-1)
    else pure (-1)

end Remap

def sysGetwmapinfo : KernelM (List Info) := do
  let (infos,t) ← onTable getwmapinfo
  setTable t
  pure infos

section Process

/-- The loop of `sys_exit` along the list of the first slot. -/
def unmapLoop : ℕ → Option Ptr → KernelM Unit
  | _, none => pure ()
  | 0, some _ => throw .hang
  | fuel+1, some p => do
    let node := (← get).tab.deref p
    let _ ← wunmap node.startAddress
    unmapLoop fuel (node.next.map .pool)

def unmapAll : KernelM Unit := unmapLoop (2*MAX_WMMAP_INFO+3) (some (.slot 0))

def sysExit : KernelM Unit := do
  unmapAll
  exit

def allocproc : KernelM (Option (ℕ × Frame)) := do
  let pid := (← get).nextpid
  if (← get).unused = 0 then pure none
  else
    modify fun s => { s with nextpid := pid+1 }
    match ← kalloc with
    | none => pure none
    | some kstack =>
      modify fun s => { s with unused := s.unused-1 }
      pure (some (pid,kstack))

def dupFd (fd : Fin NOFILE) : KernelM Unit := do
  match (← get).cur.ofile fd with
  | none => pure ()
  | some f => filedup f

def fork : KernelM (Option Proc) := do
  match ← allocproc with
  | none => pure none
  | some (pid,kstack) =>
    let parent := (← get).cur
    match ← copyuvm parent.pgdir parent.sz with
    | none =>
      kfree kstack
      modify fun s => { s with unused := s.unused+1 }
      pure none
    | some d =>
      (List.finRange NOFILE).forM dupFd
      idup parent.cwd
      setTable (← onTable forkHelper)
      pure (some { parent with pid, initproc := false, pgdir := d, kstack })

end Process

/-- The calls of a process, besides `fork`, that use the table. -/
inductive Call
  | wmap (addr length flags fd : Word)
  | wunmap (addr : Word)
  | wremap (oldaddr oldsize newsize flags : Word)
  | getwmapinfo
  | fault (va : Word)
  | exit

inductive Answer
  | value (v : Word)
  | infos (l : List Info)
  | resumed
  deriving DecidableEq

def Call.run : Call → KernelM Answer
  | .wmap addr length flags fd => do pure (.value (← Kernel.wmap addr length flags fd))
  | .wunmap addr => do pure (.value (← Kernel.wunmap addr))
  | .wremap oldaddr oldsize newsize flags => do
    pure (.value (← Kernel.wremap oldaddr oldsize newsize flags))
  | .getwmapinfo => do pure (.infos (← sysGetwmapinfo))
  | .fault va => do
    pageFault va
    pure .resumed
  | .exit => do
    sysExit
    pure .resumed

end Xv6.Kernel
