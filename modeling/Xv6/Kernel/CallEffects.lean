import Xv6.Kernel.Effects

/-! # Effects of page faults and calls

A page fault that returns has counted a loaded page; whatever a call does to the
table is a sequence of atomic changes.
-/
namespace Xv6.Kernel
open Wmap Program Relation
variable {α β : Type}

section Helpers
variable {t t' : Table}

theorem foldlM_steps {r : Table → Table → Prop} {l : List α} {g : Table → α → Except Stop Table}
    (hg : ∀ t a t', g t a = .ok t' → ReflTransGen r t t') (h : l.foldlM g t = .ok t') :
    ReflTransGen r t t' := by
  induction l generalizing t with
  | nil =>
    cases h
    exact .refl
  | cons a l ih =>
    rw [List.foldlM_cons] at h
    obtain ⟨u,hu,h⟩ := bind_ok h
    exact (hg t a u hu).trans (ih h)

theorem exitChain_steps {fuel : ℕ} {p : Option Ptr} (h : exitChain fuel t p = .ok t') :
    ReflTransGen Drop t t' := by
  fun_induction exitChain fuel t p with
  | case1 =>
    cases h
    exact .refl
  | case2 => cases h
  | case3 =>
    cases h
    exact .refl
  | case4 fuel t p n hlive ih =>
    obtain ⟨⟨r,u⟩,hu,h⟩ := bind_ok h
    exact (ReflTransGen.single (.remove hu)).trans (ih _ h)

theorem exitHelper_steps (h : exitHelper t = .ok t') : ReflTransGen Drop t t' :=
  foldlM_steps (fun _ _ _ => exitChain_steps) h

theorem forkChain_steps {fuel : ℕ} {p : Option Ptr} (h : forkChain fuel t p = .ok t') :
    ReflTransGen TableStep t t' := by
  fun_induction forkChain fuel t p with
  | case1 =>
    cases h
    exact .refl
  | case2 => cases h
  | case3 =>
    cases h
    exact .refl
  | case4 fuel t p n hlive ih =>
    obtain ⟨u,hu,h⟩ := bind_ok h
    exact (ReflTransGen.single (.insert hu)).trans (ih _ h)

theorem forkHelper_steps (h : forkHelper t = .ok t') : ReflTransGen TableStep t t' :=
  foldlM_steps (fun _ _ _ => forkChain_steps) h

theorem setTable_apply (t : Table) (s : Ctx) : setTable t s = .ok () { s with tab := t } := rfl

theorem along_update {r : Table → Table → Prop} {g : Table → Except Stop α} {π : α → Table}
    {f : α → Unit → KernelM β} (hg : ∀ t a, g t = .ok a → ReflTransGen r t (π a)) (hf : ∀ a u, Along r (f a u)) :
    Along r (onTable g >>= fun a => setTable (π a) >>= f a) := by
  intro s
  rw [bind_apply,onTable_apply]
  cases ha : g s.tab with
  | error e => exact ReflTransGen.refl
  | ok a =>
    dsimp only
    have hstep : Via r s { s with tab := π a } := hg s.tab a ha
    have hrest := hf a () { s with tab := π a }
    rw [bind_apply,setTable_apply]
    dsimp only
    cases hfs : f a () { s with tab := π a } with
    | ok b u =>
      rw [hfs] at hrest
      exact hstep.trans hrest
    | error e u =>
      rw [hfs] at hrest
      exact hstep.trans hrest

end Helpers

section Exit

def NeverReturns (x : KernelM α) : Prop := ∀ s a t, x s ≠ .ok a t

theorem NeverReturns.bind {x : KernelM α} {f : α → KernelM β} (h : ∀ a, NeverReturns (f a)) :
    NeverReturns (x >>= f) := by
  intro s b t hx
  obtain ⟨a,u,-,hf⟩ := bind_eq_ok.mp hx
  exact h a u b t hf

theorem neverReturns_throw (e : Stop) : NeverReturns (throw e : KernelM α) := by
  intro s a t h
  cases h

theorem along_exit : Along Drop (exit : KernelM α) := by
  refine Along.bind quiet_get.dropping.along fun s => ?_
  split
  · exact (quiet_throw _).dropping.along
  · generalize List.finRange NOFILE = fds
    refine Along.bind (quiet_forM quiet_closeFd).dropping.along fun _ => ?_
    refine along_update (fun _ _ => exitHelper_steps) fun _ _ => ?_
    refine Along.bind quiet_get.dropping.along fun s => ?_
    exact Along.bind (gentle_iput _).quiet.dropping.along fun _ => (quiet_throw _).dropping.along

theorem neverReturns_exit : NeverReturns (exit : KernelM α) := by
  refine NeverReturns.bind fun s => ?_
  split
  · exact neverReturns_throw _
  · exact NeverReturns.bind fun _ => NeverReturns.bind fun _ => NeverReturns.bind fun _ =>
      NeverReturns.bind fun _ => NeverReturns.bind fun _ => neverReturns_throw _

theorem dropping_exit : Dropping (exit : KernelM α) := by
  intro s
  cases h : (exit : KernelM α) s with
  | ok a t => exact absurd h (neverReturns_exit s a t)
  | error e t => exact along_exit.error h

end Exit

section Quiet

theorem quiet_dropPte (a : Word) : Quiet (dropPte a) := by
  refine quiet_get_bind fun s => ?_
  split
  · exact quiet_pure _
  · exact quiet_get_bind fun _ => (gentle_setPgdir _).quiet

theorem quiet_partialLoop (limit : Word) (fuel : ℕ) (a : Word) : Quiet (partialLoop limit fuel a) := by
  induction fuel generalizing a with
  | zero => exact quiet_throw _
  | succ fuel ih =>
    rw [partialLoop]
    split
    · exact (quiet_dropPte a).bind fun _ => ih _
    · exact quiet_pure _

theorem quiet_wunmapPartial (addr length : Word) : Quiet (wunmapPartial addr length) := quiet_partialLoop _ _ _

end Quiet

section Faults
variable {R E : Ctx → Ctx → Prop} {x : KernelM α} {f : α → KernelM β}

/-- What a program that touches user memory and files may do, page faults included: `R` holds
between the start and a return, `E` between the start and a failure. -/
structure Faulting (R E : Ctx → Ctx → Prop) : Prop where
  soft {s s' : Ctx} : Soft s s' → R s s'
  bump (s : Ctx) (p : Ptr) :
    R s { s with tab := s.tab.setNode p { s.tab.deref p with loadedPages := (s.tab.deref p).loadedPages+1 } }
  trans {s t u : Ctx} : R s t → R t u → R s u
  fails {s t : Ctx} : Soft s t → E s t
  after {s t u : Ctx} : R s t → E t u → E s u
  exit : Moves R E (exit : KernelM Unit)

variable (F : Faulting R E)
include F

theorem Faulting.bind (hx : Moves R E x) (hf : ∀ a, Moves R E (f a)) : Moves R E (x >>= f) :=
  Moves.bind (fun _ _ _ => F.trans) (fun _ _ _ => F.after) hx hf

theorem Faulting.gentle (hx : Gentle x) : Moves R E x := Moves.mono hx (fun _ _ => F.soft) (fun _ _ => F.fails)
theorem Faulting.get : Moves R E (get : KernelM Ctx) := F.gentle gentle_get
theorem Faulting.pure (a : α) : Moves R E (pure a : KernelM α) := F.gentle (gentle_pure a)
theorem Faulting.throw (e : Stop) : Moves R E (throw e : KernelM α) := F.gentle (gentle_throw e)

theorem Faulting.forM {l : List α} {f : α → KernelM Unit} (h : ∀ a, Moves R E (f a)) : Moves R E (l.forM f) := by
  induction l with
  | nil => exact F.pure _
  | cons a l ih => exact F.bind (h a) fun _ => ih

theorem Faulting.load (pageAddr : Word) (mem : Frame) (p : Ptr) : Moves R E (do
    let (_,pd) ← mappages (← MonadState.get).cur.pgdir pageAddr 4096 mem true true
    setPgdir pd
    Kernel.bump p) :=
  F.bind F.get fun _ => F.bind (F.gentle (paging_mappages _ _ _ _ _ _).gentle) fun _ =>
    F.bind (F.gentle (gentle_setPgdir _)) fun _ s => F.bump s p

theorem Faulting.pageFault (address : Word) : Moves R E (pageFault address) := by
  refine F.bind (F.gentle (gentle_onTable _)) fun p => ?_
  cases p with
  | none => exact F.exit
  | some p =>
    refine F.bind F.get fun s => F.bind F.get fun s' => ?_
    dsimp only
    split
    · exact F.pure _
    · refine F.bind (F.gentle paging_kalloc.gentle) fun mem => ?_
      cases mem with
      | none => exact F.exit
      | some mem =>
        refine F.bind (F.gentle (paging_setPage _ _).gentle) fun _ => ?_
        split
        · exact F.load _ _ _
        · refine F.bind (F.gentle paging_kalloc.gentle) fun mem => ?_
          cases mem with
          | none => exact F.exit
          | some mem =>
            refine F.bind (F.gentle (gentle_ofile _)) fun f => ?_
            cases f with
            | none => exact F.exit
            | some f =>
              refine F.bind (F.gentle (gentle_fileread _ _)) fun bytes => ?_
              cases bytes with
              | none => exact F.throw _
              | some bytes => exact F.bind (F.gentle (paging_setPage _ _).gentle) fun _ => F.load _ _ _

theorem Faulting.access (m : Access) (va : Word) (fuel : ℕ) : Moves R E (access m va fuel) := by
  induction fuel with
  | zero => exact F.throw _
  | succ fuel ih =>
    refine F.bind F.get fun s => ?_
    split
    · exact F.pure _
    · exact F.bind (F.pageFault va) fun _ => ih

theorem Faulting.kread (va : Word) : Moves R E (kread va) := by
  unfold Kernel.kread
  split
  · exact F.throw _
  · exact F.bind (F.access _ _ _) fun _ => F.bind F.get fun _ => F.pure _

theorem Faulting.kwrite (va : Word) (b : Byte) : Moves R E (kwrite va b) := by
  unfold Kernel.kwrite
  split
  · exact F.throw _
  · exact F.bind (F.access _ _ _) fun _ => F.bind F.get fun _ => F.gentle (paging_setPage _ _).gentle

theorem Faulting.kreadWord (va : Word) : Moves R E (kreadWord va) :=
  F.bind (F.kread _) fun _ => F.bind (F.kread _) fun _ => F.bind (F.kread _) fun _ => F.bind (F.kread _) fun _ =>
    F.pure _

theorem Faulting.kclearWord (va : Word) : Moves R E (kclearWord va) :=
  F.bind (F.kwrite _ _) fun _ => F.bind (F.kwrite _ _) fun _ => F.bind (F.kwrite _ _) fun _ => F.kwrite _ _

theorem Faulting.fetch (va : Word) (n : ℕ) : Moves R E (fetch va n) := by
  induction n generalizing va with
  | zero => exact F.pure _
  | succ n ih => exact F.bind (F.kread _) fun _ => F.bind (ih _) fun _ => F.pure _

theorem Faulting.overwriteChunk (f : Fin NFILE) (ip : ℕ) (addr : Word) (n : ℕ) :
    Moves R E (overwriteChunk f ip addr n) := by
  refine F.bind (F.gentle (gentle_ilock _)) fun _ => F.bind F.get fun s => F.bind F.get fun s' => ?_
  dsimp only
  split
  · exact F.throw _
  · split
    · exact F.bind (F.fetch _ _) fun _ => F.bind (F.gentle (gentle_storei _ _ _)) fun _ =>
        F.bind (F.gentle (gentle_advance _ _)) fun _ => F.bind (F.gentle (gentle_iunlock _)) fun _ => F.pure _
    · exact F.bind (F.gentle (gentle_iunlock _)) fun _ => F.pure _

theorem Faulting.overwriteLoop (f : Fin NFILE) (ip : ℕ) (fuel : ℕ) (addr : Word) (left : ℕ) :
    Moves R E (overwriteLoop f ip fuel addr left) := by
  induction fuel generalizing addr left with
  | zero => exact F.pure _
  | succ fuel ih =>
    rw [Kernel.overwriteLoop]
    split
    · exact F.pure _
    · refine F.bind (F.overwriteChunk _ _ _ _) fun r => ?_
      split
      · exact ih _ _
      · exact F.pure _

def Ctx.rewound (s : Ctx) (f : Fin NFILE) : Ctx :=
  { s with files := { s.files with file := Function.update s.files.file f { s.files.file f with off := 0 } } }

omit F in
theorem overwriteFile_apply (f : Fin NFILE) (addr n : Word) (s : Ctx) : overwriteFile f addr n s =
    if (s.files.file f).writable = false then .ok () s
    else match (s.files.file f).kind with
      | .none => .error .panic s
      | .pipe _ => .error .external s
      | .inode ip => overwriteLoop f ip n.toNat addr n.toInt.toNat (s.rewound f) := by
  unfold overwriteFile
  rw [bind_apply,get_apply]
  dsimp only
  by_cases hw : (s.files.file f).writable = false
  · rw [if_pos hw,if_pos hw]
    rfl
  · rw [if_neg hw,if_neg hw]
    unfold Ctx.rewound
    generalize ({ s.files.file f with off := 0 } : File) = v
    cases (s.files.file f).kind <;> rfl

theorem Faulting.overwriteFile (f : Fin NFILE) (addr n : Word) : Moves R E (overwriteFile f addr n) := by
  intro s
  rw [overwriteFile_apply]
  by_cases hw : (s.files.file f).writable = false
  · rw [if_pos hw]
    exact F.pure () s
  · rw [if_neg hw]
    cases (s.files.file f).kind with
    | none => exact F.throw (α := Unit) .panic s
    | pipe q => exact F.throw (α := Unit) .external s
    | inode ip =>
      have hsoft : Soft s (s.rewound f) := soft_setFile s f rfl
      have hloop := F.overwriteLoop f ip n.toNat addr n.toInt.toNat
      dsimp only
      cases hrun : Kernel.overwriteLoop f ip n.toNat addr n.toInt.toNat (s.rewound f) with
      | ok a t => exact F.trans (F.soft hsoft) (hloop.ok hrun)
      | error e t => exact F.after (F.soft hsoft) (hloop.error hrun)

theorem Faulting.writeBack (e : Entry) : Moves R E (writeBack e) := by
  unfold Kernel.writeBack
  split
  · refine F.bind (F.gentle (gentle_ofile _)) fun f => ?_
    cases f with
    | none => exact F.throw _
    | some f => exact F.overwriteFile _ _ _
  · exact F.pure _

theorem Faulting.freeLoop (limit : Word) (fuel : ℕ) (a : Word) : Moves R E (freeLoop limit fuel a) := by
  induction fuel generalizing a with
  | zero => exact F.throw _
  | succ fuel ih =>
    rw [Kernel.freeLoop]
    split
    · refine F.bind F.get fun s => ?_
      split
      · exact F.pure _
      · split
        · exact F.pure _
        · exact F.bind (F.gentle (paging_kfree _).gentle) fun _ => ih _
    · exact F.pure _

theorem Faulting.clearPte (a : Word) : Moves R E (clearPte a) := by
  refine F.bind F.get fun s => ?_
  split
  · exact F.kclearWord _
  · exact F.bind F.get fun _ => F.gentle (gentle_setPgdir _)

theorem Faulting.clearLoop (limit : Word) (fuel : ℕ) (a : Word) : Moves R E (clearLoop limit fuel a) := by
  induction fuel generalizing a with
  | zero => exact F.throw _
  | succ fuel ih =>
    rw [Kernel.clearLoop]
    split
    · exact F.bind (F.clearPte a) fun _ => ih _
    · exact F.pure _

theorem Faulting.copyByte (dst src : Word) (i : ℕ) : Moves R E (copyByte dst src i) :=
  F.bind (F.kread _) fun _ => F.kwrite _ _

theorem Faulting.memmove (dst src n : Word) : Moves R E (memmove dst src n) := by
  unfold Kernel.memmove
  split
  · exact F.forM (F.copyByte dst src)
  · exact F.forM (F.copyByte dst src)

theorem Faulting.afterRecent : Moves R E afterRecent := by
  refine F.bind F.get fun s => ?_
  split
  · exact F.bind F.get fun _ => F.pure _
  · exact F.bind (F.kreadWord _) fun _ => F.bind (F.kreadWord _) fun _ => F.pure _

theorem Faulting.searchBase (addr : Word) : Moves R E (searchBase addr) := by
  refine F.bind ?_ fun _ => F.pure _
  refine F.bind (F.gentle (gentle_onTable _)) fun p => ?_
  cases p with
  | none => exact F.afterRecent
  | some p => exact F.bind F.get fun _ => F.pure _

theorem Faulting.place (addr length flags : Word) : Moves R E (place addr length flags) := by
  unfold Kernel.place
  split
  · split
    · exact F.pure _
    · refine F.bind (F.gentle (gentle_onTable _)) fun p => ?_
      cases p <;> exact F.pure _
  · exact F.bind (F.searchBase _) fun _ => F.bind (F.gentle (gentle_onTable _)) fun _ => F.pure _

end Faults

section Dropping

theorem faulting_dropping : Faulting (Via Bump) (Via Drop) where
  soft h := Via.of_eq h.tab
  bump s p := ReflTransGen.single (.mk s.tab p)
  trans h h' := h.trans h'
  fails h := Via.of_eq h.tab
  after h h' := h.of_bump.trans h'
  exit := dropping_exit

theorem dropping_pageFault (address : Word) : Dropping (pageFault address) := faulting_dropping.pageFault address
theorem dropping_writeBack (e : Entry) : Dropping (writeBack e) := faulting_dropping.writeBack e

theorem dropping_freeLoop (limit : Word) (fuel : ℕ) (a : Word) : Dropping (freeLoop limit fuel a) :=
  faulting_dropping.freeLoop limit fuel a

theorem dropping_clearLoop (limit : Word) (fuel : ℕ) (a : Word) : Dropping (clearLoop limit fuel a) :=
  faulting_dropping.clearLoop limit fuel a

theorem dropping_memmove (dst src n : Word) : Dropping (memmove dst src n) := faulting_dropping.memmove dst src n
theorem dropping_searchBase (addr : Word) : Dropping (searchBase addr) := faulting_dropping.searchBase addr

theorem dropping_place (addr length flags : Word) : Dropping (place addr length flags) :=
  faulting_dropping.place addr length flags

end Dropping
end Xv6.Kernel
