import Xv6.Vm.UserMemory
import Xv6.Kernel.Files

/-! # Running a program

`exec` reads an ELF file into a new address space, puts the argument strings on the stack and
then replaces the address space of the calling process. Every way out before that frees what
has been built. The lookup of pages that `copyout` uses is a parameter, so that the code can be
compared with itself under a lookup that checks every page.
-/
namespace Xv6.Vm
open Wmap Kernel

abbrev MAXARG : ℕ := 32
def ELF_MAGIC : Word := 0x464C457F
def ELF_PROG_LOAD : Word := 1

structure Arg where
  bytes : List Byte
  noNul : 0 ∉ bytes
  short : bytes.length < 2^31

def Arg.terminated (a : Arg) : List Byte := a.bytes ++ [0]

section Files

def littleEndian (bytes : List Byte) : ℕ := bytes.foldr (fun b n => b.toNat+256*n) 0

def field (bytes : List Byte) (off width : ℕ) : Word := BitVec.ofNat 32 (littleEndian ((bytes.drop off).take width))

structure Elfhdr where
  magic : Word
  entry : Word
  phoff : Word
  phnum : Word

structure Proghdr where
  type : Word
  off : Word
  vaddr : Word
  filesz : Word
  memsz : Word

def readRecord (contents : List Byte) (off size : Word) : Option (List Byte) :=
  match readi contents off size with
  | none => none
  | some bytes => if bytes.length = size.toNat then some bytes else none

def readElfhdr (contents : List Byte) : Option Elfhdr :=
  (readRecord contents 0 52).map fun b => ⟨field b 0 4,field b 24 4,field b 28 4,field b 44 2⟩

def readProghdr (contents : List Byte) (off : Word) : Option Proghdr :=
  (readRecord contents off 32).map fun b => ⟨field b 0 4,field b 4 4,field b 8 4,field b 16 4,field b 20 4⟩

end Files

section Loading

def loadLoop (pd : PageDir) (addr : Word) (contents : List Byte) (offset sz : Word) : ℕ → Word → KernelM Bool
  | 0, _ => throw .hang
  | fuel+1, i => do
    if i < sz then
      match walkpgdir pd (addr+i) with
      | none => throw .panic
      | some pte =>
        let n := if sz-i < 4096 then sz-i else 4096
        match readi contents (offset+i) n with
        | none => pure false
        | some bytes =>
          setPage pte.frame (blit ((← get).mem.page pte.frame) 0 bytes)
          if bytes.length = n.toNat then loadLoop pd addr contents offset sz fuel (i+4096) else pure false
    else pure true

def loaduvm (pd : PageDir) (addr : Word) (contents : List Byte) (offset sz : Word) : KernelM Bool :=
  if addr.toNat % PGSIZE ≠ 0 then throw .panic else loadLoop pd addr contents offset sz allPages 0

/-- The loop of `exec` over so many program headers; the directory is returned in any case. -/
def loadSegments (contents : List Byte) : ℕ → Word → PageDir → Word → KernelM (Option Word × PageDir)
  | 0, _, pd, sz => pure (some sz,pd)
  | k+1, off, pd, sz =>
    match readProghdr contents off with
    | none => pure (none,pd)
    | some ph =>
      if ph.type ≠ ELF_PROG_LOAD then loadSegments contents k (off+32) pd sz
      else if ph.memsz < ph.filesz then pure (none,pd)
      else if ph.vaddr+ph.memsz < ph.vaddr then pure (none,pd)
      else do
        let (sz,pd) ← allocuvm pd sz (ph.vaddr+ph.memsz)
        if sz = 0 then pure (none,pd)
        else if ph.vaddr.toNat % PGSIZE ≠ 0 then pure (none,pd)
        else if ← loaduvm pd ph.vaddr contents ph.off ph.filesz then loadSegments contents k (off+32) pd sz
        else pure (none,pd)

end Loading

section Stack
variable (look : PageDir → Word → KernelM (Option Frame))

def pushArgs (pd : PageDir) : List Arg → ℕ → Word → List Word → KernelM (Option (Word × List Word))
  | [], _, sp, ustack => pure (some (sp,ustack))
  | a :: argv, argc, sp, ustack => do
    if MAXARG ≤ argc then pure none
    else
      let sp := (sp-BitVec.ofNat 32 (a.bytes.length+1)) &&& ~~~3
      let r ← copyoutLoop look pd (a.terminated.length+1) sp a.terminated
      if r.toInt < 0 then pure none else pushArgs pd argv (argc+1) sp (ustack ++ [sp])

def wordBytes (w : Word) : List Byte := [w.setWidth 8,(w >>> 8).setWidth 8,(w >>> 16).setWidth 8,(w >>> 24).setWidth 8]

def buildStack (pd : PageDir) (sz : Word) (argv : List Arg) : KernelM (Option (Word × Word) × PageDir) := do
  let sz := PGROUNDUP sz
  let (sz,pd) ← allocuvm pd sz (sz+2*4096)
  if sz = 0 then pure (none,pd)
  else
    let pd ← clearpteu pd (sz-2*4096)
    match ← pushArgs look pd argv 0 sz [] with
    | none => pure (none,pd)
    | some (sp,ptrs) =>
      let argc := BitVec.ofNat 32 argv.length
      let ustack := [0xffffffff,argc,sp-(argc+1)*4] ++ ptrs ++ [0]
      let sp := sp-(3+argc+1)*4
      let buf := ustack.flatMap wordBytes
      let r ← copyoutLoop look pd (buf.length+1) sp buf
      if r.toInt < 0 then pure (none,pd) else pure (some (sz,sp),pd)

end Stack

section Exec

structure Task where
  ctx : Ctx
  eip : Word
  esp : Word
  name : List Byte

abbrev TaskM := EStateM Stop Task

def onCtx {α : Type} (m : KernelM α) : TaskM α := fun t =>
  match m t.ctx with
  | .ok a s => .ok a { t with ctx := s }
  | .error e s => .error e { t with ctx := s }

def lastName (last : List Byte) : List Byte → List Byte
  | [] => last
  | c :: cs => if c = 0x2F then lastName cs cs else lastName last cs

def safestrcpy (t : List Byte) (n : ℕ) : List Byte := t.take (n-1)

def iunlockput (ip : ℕ) : KernelM Unit := do
  iunlock ip
  iput ip

def commit (pd : PageDir) (sz eip esp : Word) (name : List Byte) : TaskM Unit := modify fun t =>
  ⟨{ t.ctx with cur := { t.ctx.cur with pgdir := pd, sz := sz } },eip,esp,name⟩

def exec (look : PageDir → Word → KernelM (Option Frame)) (found : Option ℕ) (path : List Byte) (argv : List Arg) :
    TaskM Word := do
  match found with
  | none => pure (-1)
  | some ip =>
    onCtx (idup ip)
    onCtx (ilock ip)
    let inode := (← get).ctx.files.inode ip
    if inode.device then throw .external
    else
      match readElfhdr inode.contents with
      | none =>
        onCtx (iunlockput ip)
        pure (-1)
      | some elf =>
        if elf.magic ≠ ELF_MAGIC then
          onCtx (iunlockput ip)
          pure (-1)
        else
          match ← onCtx setupkvm with
          | none =>
            onCtx (iunlockput ip)
            pure (-1)
          | some pd =>
            match ← onCtx (loadSegments inode.contents elf.phnum.toNat elf.phoff pd 0) with
            | (none,pd) =>
              onCtx (freevm pd)
              onCtx (iunlockput ip)
              pure (-1)
            | (some sz,pd) =>
              onCtx (iunlockput ip)
              match ← onCtx (buildStack look pd sz argv) with
              | (none,pd) =>
                onCtx (freevm pd)
                pure (-1)
              | (some (sz,sp),pd) =>
                let oldpgdir := (← get).ctx.cur.pgdir
                commit pd sz elf.entry sp (safestrcpy (lastName path path) 16)
                onCtx (freevm oldpgdir)
                pure 0

end Exec
end Xv6.Vm
