import Xv6.Kernel.Files
import Xv6.Kernel.PageTables

/-! # Exit, page faults and accesses to user memory

The page fault handler fills a missing page of a mapping or ends the process. The
kernel itself runs into it when it follows a user address, and then tries the access
again.
-/
namespace Xv6.Kernel
open Wmap

def closeFd (fd : Fin NOFILE) : KernelM Unit := do
  match (← get).cur.ofile fd with
  | none => pure ()
  | some f =>
    fileclose f
    modify fun s => { s with cur := { s.cur with ofile := Function.update s.cur.ofile fd none } }

def exit {α : Type} : KernelM α := do
  if (← get).cur.initproc then throw .panic
  else
    (List.finRange NOFILE).forM closeFd
    setTable (← onTable exitHelper)
    iput (← get).cur.cwd
    throw .exited

def ofile (fd : Word) : KernelM (Option (Fin NFILE)) := do
  if h : fd.toNat < NOFILE then pure ((← get).cur.ofile ⟨fd.toNat,h⟩) else throw .undefined

def bump (p : Ptr) : KernelM Unit := modify fun s =>
  let n := s.tab.deref p
  { s with tab := s.tab.setNode p { n with loadedPages := n.loadedPages+1 } }

def fillPage (bytes : List Byte) : Page := fun k => bytes.getD k.val 0

def faultPage (startAddress address : Word) : Word :=
  let offset := address-startAddress
  startAddress+(offset-offset.srem 4096)

def pageFault (address : Word) : KernelM Unit := do
  match ← onTable (pageInMappings · address) with
  | none => exit
  | some p =>
    let node := (← get).tab.deref p
    let pageAddr := faultPage node.startAddress address
    match walkpgdir (← get).cur.pgdir pageAddr with
    | some _ => pure ()
    | none =>
      match ← kalloc with
      | none => exit
      | some mem =>
        setPage mem (fun _ => 0)
        if node.flags &&& MAP_ANONYMOUS ≠ 0 then
          let (_,pd) ← mappages (← get).cur.pgdir pageAddr 4096 mem true true
          setPgdir pd
          bump p
        else
          match ← kalloc with
          | none => exit
          | some mem =>
            match ← ofile node.fd with
            | none => exit
            | some f =>
              match ← fileread f 4096 with
              | none => throw .undefined
              | some bytes =>
                setPage mem (fillPage bytes)
                let (_,pd) ← mappages (← get).cur.pgdir pageAddr 4096 mem true true
                setPgdir pd
                bump p

inductive Access
  | kernelRead
  | kernelWrite
  | userRead
  | userWrite
  deriving DecidableEq

def Access.allowed (m : Access) (pte : Pte) : Bool :=
  match m with
  | .kernelRead => pte.p
  | .kernelWrite => pte.p && pte.w
  | .userRead => pte.p && pte.u
  | .userWrite => pte.p && pte.w && pte.u

def translate (pd : PageDir) (m : Access) (va : Word) : Option Frame :=
  match walkpgdir pd va with
  | none => none
  | some pte => if m.allowed pte then some pte.frame else none

/-- Access an address, taking page faults. A handler that returns without the page being
accessible has either used up the memory, and the next fault ends the process, or found a
page table, and then no further fault changes anything. -/
def access (m : Access) (va : Word) : ℕ → KernelM Frame
  | 0 => throw .hang
  | fuel+1 => do
    match translate (← get).cur.pgdir m va with
    | some f => pure f
    | none =>
      pageFault va
      access m va fuel

def faults : ℕ := 4

def offsetIn (va : Word) : Fin PGSIZE := Fin.ofNat PGSIZE va.toNat

def kread (va : Word) : KernelM Byte := do
  if KERNBASE ≤ va then throw .undefined
  else
    let f ← access .kernelRead va faults
    pure ((← get).mem.page f (offsetIn va))

def kwrite (va : Word) (b : Byte) : KernelM Unit := do
  if KERNBASE ≤ va then throw .undefined
  else
    let f ← access .kernelWrite va faults
    setPage f (Function.update ((← get).mem.page f) (offsetIn va) b)

def kreadWord (va : Word) : KernelM Word := do
  let b0 ← kread va
  let b1 ← kread (va+1)
  let b2 ← kread (va+2)
  let b3 ← kread (va+3)
  pure (b3 ++ b2 ++ b1 ++ b0)

def kclearWord (va : Word) : KernelM Unit := do
  kwrite va 0
  kwrite (va+1) 0
  kwrite (va+2) 0
  kwrite (va+3) 0

end Xv6.Kernel
