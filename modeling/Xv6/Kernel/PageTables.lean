import Xv6.Kernel.State

/-! # Page tables

The walk through a page directory, the loops that map, copy and free pages, and the
kernel part that every page directory shares.
-/
namespace Xv6.Kernel
open Wmap

def PDX (va : Word) : Fin NPDENTRIES := Fin.ofNat NPDENTRIES (va.toNat/2^22)
def PTX (va : Word) : Fin NPTENTRIES := Fin.ofNat NPTENTRIES (va.toNat/2^12)

def PGADDR (d : ℕ) : Word := BitVec.ofNat 32 (d*2^22)

def PGROUNDDOWN (a : Word) : Word := a &&& ~~~4095
def PGROUNDUP (a : Word) : Word := (a+4095) &&& ~~~4095

def walkpgdir (pd : PageDir) (va : Word) : Option Pte := (pd.pde (PDX va)).map fun t => t.2 (PTX va)

def PageDir.setPte (pd : PageDir) (va : Word) (pte : Pte) : PageDir :=
  match pd.pde (PDX va) with
  | none => pd
  | some t => { pd with pde := Function.update pd.pde (PDX va) (some (t.1,Function.update t.2 (PTX va) pte)) }

def walkpgdirAlloc (pd : PageDir) (va : Word) : KernelM (Option PageDir) := do
  match pd.pde (PDX va) with
  | some _ => pure (some pd)
  | none =>
    match ← kalloc with
    | none => pure none
    | some f => pure (some { pd with pde := Function.update pd.pde (PDX va) (some (f,fun _ => .zero)) })

def mapLoop (w u : Bool) : ℕ → PageDir → Word → Frame → KernelM (Bool × PageDir)
  | 0, pd, _, _ => pure (true,pd)
  | n+1, pd, a, f => do
    match ← walkpgdirAlloc pd a with
    | none => pure (false,pd)
    | some pd =>
      match walkpgdir pd a with
      | none => pure (false,pd)
      | some pte =>
        if pte.p then pure (false,pd)
        else mapLoop w u n (pd.setPte a ⟨f,true,w,u⟩) (a+4096) (f+1)

def mappages (pd : PageDir) (va size : Word) (f : Frame) (w u : Bool) : KernelM (Bool × PageDir) :=
  let a := PGROUNDDOWN va
  let last := PGROUNDDOWN (va+size-1)
  mapLoop w u ((last-a).toNat/PGSIZE+1) pd a f

structure Kmap where
  virt : Word
  size : Word
  phys : Frame
  w : Bool

def kmap (data : Frame) : List Kmap :=
  [⟨0x80000000,0x100000,0,true⟩,
   ⟨0x80100000,BitVec.ofNat 32 (data*PGSIZE)-0x100000,0x100,false⟩,
   ⟨0x80000000+BitVec.ofNat 32 (data*PGSIZE),0xE000000-BitVec.ofNat 32 (data*PGSIZE),data,true⟩,
   ⟨0xFE000000,0x2000000,0xFE000,true⟩]

def deallocLoop (oldsz : Word) : ℕ → PageDir → Word → KernelM PageDir
  | 0, _, _ => throw .hang
  | fuel+1, pd, a => do
    if a < oldsz then
      match walkpgdir pd a with
      | none => deallocLoop oldsz fuel pd (PGADDR ((PDX a).val+1))
      | some pte =>
        if pte.p then
          if pte.frame = 0 then throw .panic
          else
            kfree pte.frame
            deallocLoop oldsz fuel (pd.setPte a .zero) (a+4096)
        else deallocLoop oldsz fuel pd (a+4096)
    else pure pd

@[irreducible] def allPages : ℕ := 2^20+1

def deallocuvm (pd : PageDir) (oldsz newsz : Word) : KernelM (Word × PageDir) := do
  if oldsz ≤ newsz then pure (oldsz,pd)
  else
    let pd ← deallocLoop oldsz allPages pd (PGROUNDUP newsz)
    pure (newsz,pd)

def freevm (pd : PageDir) : KernelM Unit := do
  let (_,pd) ← deallocuvm pd KERNBASE 0
  (List.finRange NPDENTRIES).forM fun d =>
    match pd.pde d with
    | none => pure ()
    | some t => kfree t.1
  kfree pd.frame

def mapRanges : List Kmap → PageDir → KernelM (Bool × PageDir)
  | [], pd => pure (true,pd)
  | k :: ks, pd => do
    let (done,pd) ← mappages pd k.virt k.size k.phys k.w false
    if done then mapRanges ks pd else pure (false,pd)

def setupkvm : KernelM (Option PageDir) := do
  match ← kalloc with
  | none => pure none
  | some f =>
    let (done,pd) ← mapRanges (kmap (← get).mem.image.data) ⟨f,fun _ => none⟩
    if done then pure (some pd)
    else
      freevm pd
      pure none

def copyLoop (pd : PageDir) (sz : Word) : ℕ → PageDir → Word → KernelM (Option PageDir)
  | 0, _, _ => throw .hang
  | fuel+1, d, i => do
    if i < sz then
      match walkpgdir pd i with
      | none => throw .panic
      | some pte =>
        if pte.p then
          match ← kalloc with
          | none =>
            freevm d
            pure none
          | some f =>
            setPage f ((← get).mem.page pte.frame)
            let (done,d) ← mappages d i 4096 f pte.w pte.u
            if done then copyLoop pd sz fuel d (i+4096)
            else
              kfree f
              freevm d
              pure none
        else throw .panic
    else pure (some d)

def copyuvm (pd : PageDir) (sz : Word) : KernelM (Option PageDir) := do
  match ← setupkvm with
  | none => pure none
  | some d => copyLoop pd sz allPages d 0

end Xv6.Kernel
