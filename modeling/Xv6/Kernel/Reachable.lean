import Xv6.Kernel.Returns
import Xv6.Wmap.Ranges

/-! # Reachable tables

Every call, `fork` and `exit` change the table by atomic steps, whatever their outcome.
A table is reachable when the calls of some processes, one after the other, lead to it.
-/
namespace Xv6.Kernel
open Wmap Program Relation
variable {α β : Type}

section Bumps

theorem Bump.retouched {t t' : Table} (h : Bump t t') : Retouched t t' := by
  obtain ⟨p⟩ := h
  exact retouched_setNode t p _ rfl rfl rfl

theorem Bump.sameLength {t t' : Table} (h : Bump t t') (q : Ptr) : (t'.entry q).length = (t.entry q).length := by
  obtain ⟨p⟩ := h
  rw [Table.entry,deref_setNode]
  split
  · rename_i hq
    rw [hq]
    rfl
  · rfl

theorem bumps_retouched {t t' : Table} (h : Bumps t t') :
    Retouched t t' ∧ ∀ q, (t'.entry q).length = (t.entry q).length := by
  induction h with
  | refl => exact ⟨.refl t,fun _ => rfl⟩
  | tail _ hstep ih => exact ⟨ih.1.trans hstep.retouched,fun q => (hstep.sameLength q).trans (ih.2 q)⟩

end Bumps

section Calls

theorem stepping_get : Stepping (get : KernelM Ctx) := quiet_get.stepping
theorem stepping_pure (a : α) : Stepping (pure a : KernelM α) := (quiet_pure a).stepping

theorem stepping_initTable : Stepping initTable := by
  intro s
  rw [initTable_apply]
  change ReflTransGen TableStep s.tab (initialised s.tab)
  unfold initialised
  split
  · rename_i h
    exact .single (.init 1 h (by decide))
  · exact .refl

theorem stepping_wmap (addr length flags fd : Word) : Stepping (wmap addr length flags fd) := by
  refine stepping_initTable.bind fun _ => ?_
  split
  · exact stepping_pure _
  · refine (dropping_place _ _ _).stepping.bind fun a => ?_
    cases a with
    | none => exact stepping_pure _
    | some a => exact along_update (fun _ _ h => .single (.insert h)) fun _ _ => stepping_pure _

theorem along_wunmap (addr : Word) : Along Drop (wunmap addr) := by
  refine (quiet_onTable _).dropping.along.bind fun p => ?_
  cases p with
  | none => exact (quiet_pure _).dropping.along
  | some p =>
    refine quiet_get.dropping.along.bind fun s => (dropping_writeBack _).along.bind fun _ => ?_
    refine along_update (π := Prod.snd) (fun _ _ h => .single (.remove h)) fun _ _ => ?_
    refine quiet_get.dropping.along.bind fun _ => (dropping_freeLoop _ _ _).along.bind fun _ => ?_
    exact (dropping_clearLoop _ _ _).along.bind fun _ => (quiet_pure _).dropping.along

theorem stepping_setLength (p : Ptr) (length : Word) : Stepping (setLength p length) :=
  fun s => ReflTransGen.single (.length s.tab p length)

theorem stepping_wremap (oldaddr oldsize newsize flags : Word) :
    Stepping (wremap oldaddr oldsize newsize flags) := by
  refine (quiet_onTable _).stepping.bind fun p => ?_
  cases p with
  | none => exact stepping_pure _
  | some p =>
    refine stepping_get.bind fun s => ?_
    dsimp only
    split
    · exact stepping_pure _
    · split
      · exact (quiet_wunmapPartial _ _).stepping.bind fun _ => (stepping_setLength _ _).bind fun _ => stepping_pure _
      · split
        · refine (quiet_onTable _).stepping.bind fun grows => ?_
          split
          · exact (stepping_setLength _ _).bind fun _ => stepping_pure _
          · split
            · refine (stepping_wmap _ _ _ _).bind fun newaddr => ?_
              split
              · exact (dropping_memmove _ _ _).stepping.bind fun _ => (along_wunmap _).stepping.bind fun _ =>
                  stepping_pure _
              · exact stepping_pure _
            · exact stepping_pure _
        · exact stepping_pure _

theorem getwmapinfo_steps {t : Table} {r : List Info × Table} (h : getwmapinfo t = .ok r) :
    ReflTransGen TableStep t r.2 := by
  unfold getwmapinfo at h
  split at h
  · rename_i hinit
    cases h
    exact .single (.init 0 hinit (by decide))
  · obtain ⟨infos,-,h⟩ := bind_ok h
    split at h
    · cases h
      exact .refl
    · cases h

theorem stepping_sysGetwmapinfo : Stepping sysGetwmapinfo :=
  along_update (π := Prod.snd) (fun _ _ => getwmapinfo_steps) fun r _ => stepping_pure r.1

theorem along_unmapLoop (fuel : ℕ) (p : Option Ptr) : Along Drop (unmapLoop fuel p) := by
  induction fuel generalizing p with
  | zero =>
    cases p with
    | none => exact (quiet_pure _).dropping.along
    | some p => exact (quiet_throw _).dropping.along
  | succ fuel ih =>
    cases p with
    | none => exact (quiet_pure _).dropping.along
    | some p => exact quiet_get.dropping.along.bind fun _ => (along_wunmap _).bind fun _ => ih _

theorem along_sysExit : Along Drop sysExit := (along_unmapLoop _ _).bind fun _ => along_exit

theorem stepping_call (c : Call) : Stepping c.run := by
  cases c with
  | wmap addr length flags fd => exact (stepping_wmap _ _ _ _).bind fun _ => stepping_pure _
  | wunmap addr => exact (along_wunmap _).stepping.bind fun _ => stepping_pure _
  | wremap oldaddr oldsize newsize flags => exact (stepping_wremap _ _ _ _).bind fun _ => stepping_pure _
  | getwmapinfo => exact stepping_sysGetwmapinfo.bind fun _ => stepping_pure _
  | fault va => exact (dropping_pageFault va).stepping.bind fun _ => stepping_pure _
  | exit => exact along_sysExit.stepping.bind fun _ => stepping_pure _

theorem quiet_allocproc : Quiet allocproc := by
  refine quiet_get_bind fun s => quiet_get_bind fun s' => ?_
  split
  · exact quiet_pure _
  · refine Quiet.bind (quiet_modify fun _ => rfl) fun _ => quiet_kalloc.bind fun kstack => ?_
    cases kstack with
    | none => exact quiet_pure _
    | some kstack => exact Quiet.bind (quiet_modify fun _ => rfl) fun _ => quiet_pure _

theorem quiet_dupFd (fd : Fin NOFILE) : Quiet (dupFd fd) := by
  refine quiet_get_bind fun s => ?_
  split
  · exact quiet_pure _
  · exact quiet_filedup _

theorem stepping_fork : Stepping fork := by
  refine quiet_allocproc.stepping.bind fun r => ?_
  cases r with
  | none => exact stepping_pure _
  | some r =>
    refine stepping_get.bind fun s => (quiet_copyuvm _ _).stepping.bind fun d => ?_
    cases d with
    | none =>
      exact (quiet_kfree _).stepping.bind fun _ => Stepping.bind (quiet_modify fun _ => rfl).stepping fun _ =>
        stepping_pure _
    | some d =>
      dsimp only
      generalize List.finRange NOFILE = fds
      refine Stepping.bind (quiet_forM quiet_dupFd).stepping fun _ => (quiet_idup _).stepping.bind fun _ => ?_
      exact along_update (fun _ _ => forkHelper_steps) fun _ _ => stepping_pure _

end Calls

section Tables

/-- The tables that calls lead to, from boot on and across processes. -/
inductive Reachable : Table → Prop
  | boot : Reachable .boot
  | call {s s' : Ctx} {c : Call} {r : Answer} : Reachable s.tab → c.run s = .ok r s' → Reachable s'.tab
  | exited {s s' : Ctx} {c : Call} : Reachable s.tab → c.run s = .error .exited s' → Reachable s'.tab
  | fork {s s' : Ctx} {r : Option Proc} : Reachable s.tab → fork s = .ok r s' → Reachable s'.tab

theorem Reachable.steps {t : Table} (h : Reachable t) : ReflTransGen TableStep .boot t := by
  induction h with
  | boot => exact .refl
  | call _ hrun ih => exact ih.trans ((stepping_call _).ok hrun)
  | exited _ hrun ih => exact ih.trans ((stepping_call _).error hrun)
  | fork _ hrun ih => exact ih.trans (stepping_fork.ok hrun)

theorem wf_step {t t' : Table} (hw : WF t) (h : TableStep t t') : WF t' := by
  cases h with
  | init v _ _ => exact wf_of_unlinked fun _ => rfl
  | insert h =>
    obtain ⟨_,_,hw',_⟩ := hashInsert_ok hw h
    exact hw'
  | remove h =>
    obtain ⟨i,hi,-⟩ := bind_ok h
    obtain ⟨r,u,hrem,hspec⟩ := removeValue_spec hw hi
    rw [hrem] at h
    cases h
    exact hspec.wf
  | length p len =>
    exact Retouched.wf (retouched_setNode t p { t.deref p with length := len } rfl rfl rfl) hw
  | bump h => exact h.retouched.wf hw

theorem Reachable.wf {t : Table} (h : Reachable t) : WF t := by
  have hsteps := h.steps
  clear h
  induction hsteps with
  | refl => exact wf_of_unlinked fun _ => rfl
  | tail _ hstep ih => exact wf_step ih hstep

def runCalls : List Call → Ctx → Option Ctx
  | [], s => some s
  | c :: cs, s =>
    match c.run s with
    | .ok _ s' => runCalls cs s'
    | .error _ _ => none

theorem Reachable.runCalls {cs : List Call} {s s' : Ctx} (h : Reachable s.tab)
    (hrun : Kernel.runCalls cs s = some s') : Reachable s'.tab := by
  induction cs generalizing s with
  | nil =>
    cases hrun
    exact h
  | cons c cs ih =>
    rw [Kernel.runCalls] at hrun
    cases hc : c.run s with
    | error e u =>
      rw [hc] at hrun
      cases hrun
    | ok r u =>
      rw [hc] at hrun
      exact ih (h.call hc) hrun

end Tables
end Xv6.Kernel
