import Xv6.Param

/-! # The table of memory mappings

Nineteen slots hold their first entry inline; further entries hang off the slot in
a chain of nodes that are taken from a fixed pool and never given back. Addresses,
lengths and flags are 32-bit words. An index outside an array is reported as
`undefined`, a loop that does not end as `hang`.
-/
namespace Xv6.Wmap

abbrev Word := BitVec 32

/-- Why a kernel function does not return: undefined behaviour, an endless wait or
loop, a panic, the exit of the process, or a wait for a pipe or a device. -/
inductive Stop
  | undefined
  | hang
  | panic
  | exited
  | external
  deriving DecidableEq

structure Entry where
  startAddress : Word
  numPages : Word
  length : Word
  fd : Word
  flags : Word
  loadedPages : Word
  deriving DecidableEq

def Entry.payload (e : Entry) : Entry := { e with startAddress := 0 }

structure Node extends Entry where
  next : Option (Fin MAX_WMMAP_INFO)
  deriving DecidableEq

/-- A pointer to a node: to a slot of the table or into the pool. -/
inductive Ptr
  | slot (i : Fin MEM_HASH_SIZE)
  | pool (j : Fin MAX_WMMAP_INFO)
  deriving DecidableEq

/-- The variables of the hash table, which all processes share. -/
structure Table where
  table : Fin MEM_HASH_SIZE → Node
  nodePool : Fin MAX_WMMAP_INFO → Node
  mostRecent : Option Ptr
  hashInit : ℤ
  poolCounter : ℕ

def EMPTY : Word := -1

def MMAPBASE : Word := 0x60000000
def KERNBASE : Word := 0x80000000
def MAP_SHARED : Word := 2
def MAP_ANONYMOUS : Word := 4
def MAP_FIXED : Word := 8
def MREMAP_MAYMOVE : Word := 1

def Node.zero : Node := ⟨⟨0,0,0,0,0,0⟩,none⟩

def Table.boot : Table := ⟨fun _ => .zero,fun _ => .zero,none,-1,0⟩

namespace Table

def deref (t : Table) : Ptr → Node
  | .slot i => t.table i
  | .pool j => t.nodePool j

def setSlot (t : Table) (i : Fin MEM_HASH_SIZE) (n : Node) : Table :=
  { t with table := Function.update t.table i n }

def setPool (t : Table) (j : Fin MAX_WMMAP_INFO) (n : Node) : Table :=
  { t with nodePool := Function.update t.nodePool j n }

def setNode (t : Table) : Ptr → Node → Table
  | .slot i, n => t.setSlot i n
  | .pool j, n => t.setPool j n

end Table

def hash (key : Word) : ℤ := key.toInt.tmod MEM_HASH_SIZE

def slotOf (key : Word) : Except Stop (Fin MEM_HASH_SIZE) :=
  if 0 ≤ hash key then .ok (Fin.ofNat MEM_HASH_SIZE (hash key).toNat) else .error .undefined

def initHashTable (t : Table) : Table :=
  { t with table := fun i => { t.table i with startAddress := EMPTY, next := none } }

def hashInsert (t : Table) (startAddress length numPages fd flags : Word) : Except Stop Table := do
  let i ← slotOf startAddress
  if (t.table i).startAddress = EMPTY then
    .ok { t.setSlot i ⟨⟨startAddress,numPages,length,fd,flags,0⟩,(t.table i).next⟩ with
      mostRecent := some (.slot i) }
  else if h : t.poolCounter < MAX_WMMAP_INFO then
    let j : Fin MAX_WMMAP_INFO := ⟨t.poolCounter,h⟩
    let t' := t.setPool j ⟨⟨startAddress,numPages,length,fd,flags,0⟩,(t.table i).next⟩
    .ok { t'.setSlot i { t.table i with next := some j } with
      mostRecent := some (.pool j), poolCounter := t.poolCounter+1 }
  else .error .undefined

def searchChain (t : Table) (test : Entry → Bool) :
    ℕ → Option (Fin MAX_WMMAP_INFO) → Except Stop (Option (Fin MAX_WMMAP_INFO))
  | _, none => .ok none
  | 0, some _ => .error .hang
  | fuel+1, some j =>
    if test (t.nodePool j).toEntry then .ok (some j) else searchChain t test fuel (t.nodePool j).next

def searchSlot (t : Table) (test : Entry → Bool) (i : Fin MEM_HASH_SIZE) : Except Stop (Option Ptr) :=
  if test (t.table i).toEntry then .ok (some (.slot i))
  else (searchChain t test MAX_WMMAP_INFO (t.table i).next).map (Option.map .pool)

def hashSearch (t : Table) (value : Word) : Except Stop (Option Ptr) := do
  let i ← slotOf value
  searchSlot t (fun e => e.startAddress = value) i

def unlink (t : Table) (startAddress : Word) :
    ℕ → Ptr → Option (Fin MAX_WMMAP_INFO) → Except Stop (ℤ × Table)
  | _, _, none => .ok (-1,t)
  | 0, _, some _ => .error .hang
  | fuel+1, prev, some j =>
    if (t.nodePool j).startAddress = startAddress then
      let t' := t.setNode prev { t.deref prev with next := (t.nodePool j).next }
      .ok (1,t'.setPool j { t'.nodePool j with startAddress := EMPTY, next := none })
    else unlink t startAddress fuel (.pool j) (t.nodePool j).next

def removeValue (t : Table) (startAddress : Word) : Except Stop (ℤ × Table) := do
  let i ← slotOf startAddress
  let node := t.table i
  if node.startAddress = startAddress then
    match node.next with
    | some j =>
      let temp := t.nodePool j
      .ok (1,t.setSlot i { node with startAddress := temp.startAddress, next := temp.next })
    | none => .ok (1,t.setSlot i { node with startAddress := EMPTY, next := none })
  else unlink t startAddress MAX_WMMAP_INFO (.slot i) node.next

def Entry.extent (e : Entry) : Word := e.numPages*4096

/-- The test of `pageInMappings`, by the number of pages. -/
def Entry.covers (e : Entry) (address : Word) : Bool :=
  decide (e.startAddress ≤ address) && decide (address < e.startAddress + e.extent)

def coverIn (t : Table) (address : Word) : List (Fin MEM_HASH_SIZE) → Except Stop (Option Ptr)
  | [] => .ok none
  | i :: is => do
    match ← searchSlot t (fun e => e.covers address) i with
    | some p => .ok (some p)
    | none => coverIn t address is

def pageInMappings (t : Table) (address : Word) : Except Stop (Option Ptr) := do
  match ← hashSearch t address with
  | some p => .ok (some p)
  | none => coverIn t address (List.finRange MEM_HASH_SIZE)

structure Info where
  addr : Word
  length : Word
  nLoadedPages : Word
  deriving DecidableEq

def Entry.info (e : Entry) : Info := ⟨e.startAddress,e.length,e.loadedPages⟩

def readChain (t : Table) : ℕ → Option (Fin MAX_WMMAP_INFO) → Except Stop (List Info)
  | _, none => .ok []
  | 0, some _ => .error .hang
  | fuel+1, some j => do
    let rest ← readChain t fuel (t.nodePool j).next
    .ok ((t.nodePool j).info :: rest)

def readSlots (t : Table) : List (Fin MEM_HASH_SIZE) → Except Stop (List Info)
  | [] => .ok []
  | i :: is => do
    let here ← if (t.table i).startAddress = EMPTY then .ok [] else do
      let rest ← readChain t MAX_WMMAP_INFO (t.table i).next
      .ok ((t.table i).info :: rest)
    let more ← readSlots t is
    .ok (here ++ more)

/-- The report has room for `MAX_WMMAP_INFO` mappings; the first call only initialises. -/
def getwmapinfo (t : Table) : Except Stop (List Info × Table) :=
  if t.hashInit = -1 then .ok ([],{ initHashTable t with hashInit := 0 })
  else do
    let infos ← readSlots t (List.finRange MEM_HASH_SIZE)
    if infos.length ≤ MAX_WMMAP_INFO then .ok (infos,t) else .error .undefined

def forkChain : ℕ → Table → Option Ptr → Except Stop Table
  | _, t, none => .ok t
  | 0, _, some _ => .error .hang
  | fuel+1, t, some p =>
    let n := t.deref p
    if n.startAddress = EMPTY then .ok t
    else do
      let t' ← hashInsert t n.startAddress n.length n.numPages n.fd n.flags
      forkChain fuel t' ((t'.deref p).next.map .pool)

def forkHelper (t : Table) : Except Stop Table :=
  (List.finRange MEM_HASH_SIZE).foldlM (fun t i => forkChain (2*MAX_WMMAP_INFO+3) t (some (.slot i))) t

def exitChain : ℕ → Table → Option Ptr → Except Stop Table
  | _, t, none => .ok t
  | 0, _, some _ => .error .hang
  | fuel+1, t, some p =>
    let n := t.deref p
    if n.startAddress = EMPTY then .ok t
    else do
      let (_,t') ← removeValue t n.startAddress
      exitChain fuel t' ((t'.deref p).next.map .pool)

def exitHelper (t : Table) : Except Stop Table :=
  (List.finRange MEM_HASH_SIZE).foldlM (fun t i => exitChain (2*MAX_WMMAP_INFO+3) t (some (.slot i))) t

end Xv6.Wmap
