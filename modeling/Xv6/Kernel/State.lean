import Xv6.Library.Program
import Xv6.Wmap.Table

/-! # The kernel state around the mappings

Physical pages, page tables, open files and the running process, as far as the calls
on mappings reach them. A page table page is kept as an array of entries next to the
number of the physical page that holds it. Files appear with their contents; how the
contents are laid out in disk blocks is not visible here.
-/
namespace Xv6.Kernel
open Wmap

abbrev Byte := BitVec 8

abbrev Frame := ℕ

abbrev Page := Fin PGSIZE → Byte

structure Pte where
  frame : Frame
  p : Bool
  w : Bool
  u : Bool
  deriving DecidableEq

def Pte.zero : Pte := ⟨0,false,false,false⟩

abbrev NPDENTRIES : ℕ := 1024
abbrev NPTENTRIES : ℕ := 1024

instance : NeZero NPDENTRIES := ⟨by decide⟩

abbrev PageTable := Fin NPTENTRIES → Pte

structure PageDir where
  frame : Frame
  pde : Fin NPDENTRIES → Option (Frame × PageTable)

def PHYSTOP : Frame := 0xE000

/-- Where the kernel lies: its data segment starts at the page `data`, and the allocator owns
the pages from `lo` on, behind the image, up to `PHYSTOP`. -/
structure Image where
  data : Frame
  lo : Frame
  text : 0x100 < data
  data_le : data ≤ lo
  lo_lt : lo < PHYSTOP

/-- Physical memory: the frames, the free list and the image of the kernel. -/
structure Mem where
  page : Frame → Page
  freelist : List Frame
  image : Image

structure Inode where
  device : Bool
  locked : Bool
  ref : ℕ
  nlink : ℕ
  contents : List Byte

structure Pipe where
  frame : Frame
  readopen : Bool
  writeopen : Bool

inductive FileKind
  | none
  | pipe (p : ℕ)
  | inode (ip : ℕ)
  deriving DecidableEq

structure File where
  kind : FileKind
  ref : ℕ
  readable : Bool
  writable : Bool
  off : Word

structure Files where
  file : Fin NFILE → File
  inode : ℕ → Inode
  pipe : ℕ → Pipe
  freeBlocks : ℕ

structure Proc where
  pid : ℕ
  initproc : Bool
  pgdir : PageDir
  sz : Word
  kstack : Frame
  ofile : Fin NOFILE → Option (Fin NFILE)
  cwd : ℕ

/-- What the kernel works on: the table, memory, files and the current process. -/
structure Ctx where
  tab : Table
  mem : Mem
  files : Files
  unused : ℕ
  nextpid : ℕ
  cur : Proc

abbrev KernelM := EStateM Stop Ctx

def onTable {α : Type} (f : Table → Except Stop α) : KernelM α := do
  match f (← get).tab with
  | .ok a => pure a
  | .error e => throw e

def setTable (t : Table) : KernelM Unit := modify fun s => { s with tab := t }

def setPgdir (pd : PageDir) : KernelM Unit := modify fun s => { s with cur := { s.cur with pgdir := pd } }

def kfree (f : Frame) : KernelM Unit := do
  if f < (← get).mem.image.lo ∨ PHYSTOP ≤ f then throw .panic
  else modify fun s => { s with mem := { s.mem with
    page := Function.update s.mem.page f (fun _ => 1)
    freelist := f :: s.mem.freelist } }

def kalloc : KernelM (Option Frame) := do
  match (← get).mem.freelist with
  | [] => pure none
  | f :: fs => do
    modify fun s => { s with mem := { s.mem with freelist := fs } }
    pure (some f)

def setPage (f : Frame) (pg : Page) : KernelM Unit := modify fun s =>
  { s with mem := { s.mem with page := Function.update s.mem.page f pg } }

end Xv6.Kernel
