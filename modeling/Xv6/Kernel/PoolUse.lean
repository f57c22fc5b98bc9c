import Xv6.Kernel.Queries
import Xv6.Wmap.PoolUse

/-! # The node pool in runs of calls

The pool counter is the number of insertions that met an occupied slot since the kernel
was loaded, whatever has been unmapped in between.
-/
namespace Xv6.Kernel
open Wmap Program Relation Runs
variable {s s' : Ctx} {t t' : Table} {a : Word}

def forkProc : KernelM (Option Proc) := do
  match ← allocproc with
  | none => pure none
  | some (pid,kstack) =>
    let parent := (← get).cur
    match ← copyuvm parent.pgdir parent.sz with
    | none =>
      kfree kstack
      modify fun s => { s with unused := s.unused+1 }
      pure none
    | some d =>
      (List.finRange NOFILE).forM dupFd
      idup parent.cwd
      pure (some { parent with pid, initproc := false, pgdir := d, kstack })

theorem fork_eq : fork = forkProc >>= fun r => (match r with
    | none => pure none
    | some child => do
      setTable (← onTable forkHelper)
      pure (some child)) := by
  unfold fork forkProc
  rw [bind_assoc]
  refine bind_congr fun r => ?_
  cases r with
  | none => simp only [pure_bind]
  | some r =>
    dsimp only
    rw [bind_assoc]
    refine bind_congr fun s => ?_
    rw [bind_assoc]
    refine bind_congr fun d => ?_
    cases d with
    | none => simp only [bind_assoc,pure_bind]
    | some d => simp only [bind_assoc,pure_bind]

inductive MapCall
  | wmap (addr length flags fd : Word)
  | wunmap (addr : Word)
  | fork
  deriving DecidableEq

def MapCall.run : MapCall → KernelM Unit
  | .wmap addr length flags fd => do let _ ← Kernel.wmap addr length flags fd
  | .wunmap addr => do let _ ← Kernel.wunmap addr
  | .fork => do let _ ← Kernel.fork

def insertions (s : Ctx) : MapCall → List Insertion
  | .wmap addr length flags _ =>
    if length.toInt ≤ 0 then []
    else match place (PGROUNDDOWN addr) length flags s.initialised with
      | .ok (some a) u => [(u.tab,a)]
      | _ => []
  | .wunmap _ => []
  | .fork =>
    match forkProc s with
    | .ok (some _) u => slotInsertions (List.finRange MEM_HASH_SIZE) u.tab
    | _ => []

def history (calls : List (Ctx × MapCall)) : List Insertion := calls.flatMap fun c => insertions c.1 c.2

def collisions (calls : List (Ctx × MapCall)) : ℕ := (history calls).countP occupied

def MapCall.Finishes (c : MapCall) (s s' : Ctx) : Prop := c.run s = .ok () s' ∨ c.run s = .error .exited s'

inductive MapStep : Table → Ctx × MapCall → Table → Prop
  | mk {s s' : Ctx} {c : MapCall} : c.Finishes s s' → MapStep s.tab (s,c) s'.tab

section Calls

theorem Drop.counter (h : Drop t t') : t'.poolCounter = t.poolCounter := by
  cases h with
  | bump h => exact h.retouched.poolCounter
  | remove h => exact removeValue_counter h

theorem drops_counter (h : ReflTransGen Drop t t') : t'.poolCounter = t.poolCounter := by
  induction h with
  | refl => rfl
  | tail _ hstep ih => exact hstep.counter.trans ih

theorem quiet_forkProc : Quiet forkProc := by
  refine quiet_allocproc.bind fun r => ?_
  cases r with
  | none => exact quiet_pure _
  | some r =>
    refine quiet_get_bind fun s => (quiet_copyuvm _ _).bind fun d => ?_
    cases d with
    | none =>
      exact (quiet_kfree _).bind fun _ => Quiet.bind (quiet_modify fun _ => rfl) fun _ => quiet_pure _
    | some d =>
      dsimp only
      generalize List.finRange NOFILE = fds
      exact (quiet_forM quiet_dupFd).bind fun _ => (quiet_idup _).bind fun _ => quiet_pure _

theorem fork_apply (s : Ctx) : fork s = match forkProc s with
    | .error e u => .error e u
    | .ok none u => .ok none u
    | .ok (some child) u =>
      match forkHelper u.tab with
      | .error e => .error e u
      | .ok t => .ok (some child) { u with tab := t } := by
  rw [fork_eq,bind_apply]
  cases forkProc s with
  | error e u => rfl
  | ok r u =>
    cases r with
    | none => rfl
    | some child =>
      dsimp only
      rw [bind_apply,onTable_apply]
      cases forkHelper u.tab <;> rfl

def CountsTo {α : Type} (n : ℕ) : EStateM.Result Stop Ctx α → Prop
  | .ok _ u => u.tab.poolCounter = n
  | .error e u => e = .exited → u.tab.poolCounter = n

theorem CountsTo.ignore {α : Type} {x : KernelM α} {n : ℕ} (h : CountsTo n (x s)) :
    CountsTo n ((do let _ ← x : KernelM Unit) s) := by
  rw [bind_apply]
  cases hx : x s with
  | ok r u =>
    rw [hx] at h
    exact h
  | error e u =>
    rw [hx] at h
    exact h

structure CallCounts (s : Ctx) (c : MapCall) : Prop where
  numbered : Numbered s.tab.poolCounter (insertions s c)
  counter : CountsTo (s.tab.poolCounter+(insertions s c).countP occupied) (c.run s)

theorem CallCounts.finishes {c : MapCall} (h : CallCounts s c) (hs : c.Finishes s s') :
    s'.tab.poolCounter = s.tab.poolCounter+(insertions s c).countP occupied := by
  have hc := h.counter
  rcases hs with hs | hs
  · rw [hs] at hc
    exact hc
  · rw [hs] at hc
    exact hc rfl

theorem countsTo_store {α : Type} {l : List Insertion} {r : Except Stop Table} {u : Ctx} {b : α}
    (h : Counts u.tab l r) : CountsTo (u.tab.poolCounter+l.countP occupied) (match r with
      | .error e => (.error e u : EStateM.Result Stop Ctx α)
      | .ok t => .ok b { u with tab := t }) := by
  cases r with
  | error e => exact fun he => absurd (congrArg _ he) h.stops
  | ok t => exact h.counter t rfl

theorem initialised_counter (s : Ctx) : s.initialised.tab.poolCounter = s.tab.poolCounter := by
  change (initialised s.tab).poolCounter = _
  unfold initialised
  split <;> rfl

theorem callCounts_wmap (s : Ctx) (addr length flags fd : Word) : CallCounts s (.wmap addr length flags fd) := by
  suffices h : Numbered s.tab.poolCounter (insertions s (.wmap addr length flags fd)) ∧
      CountsTo (s.tab.poolCounter+(insertions s (.wmap addr length flags fd)).countP occupied)
        (wmap addr length flags fd s) from ⟨h.1,h.2.ignore⟩
  have hplace := dropping_place (PGROUNDDOWN addr) length flags s.initialised
  rw [wmap_apply,insertions,← initialised_counter s]
  split
  · exact ⟨.nil _,rfl⟩
  · cases hr : place (PGROUNDDOWN addr) length flags s.initialised with
    | error e u =>
      rw [hr] at hplace
      exact ⟨.nil _,fun _ => drops_counter hplace⟩
    | ok r u =>
      rw [hr] at hplace
      have hu := drops_counter hplace.of_bump
      cases r with
      | none => exact ⟨.nil _,hu⟩
      | some a =>
        have hins := counts_insert u.tab a length ((roundLength length).sdiv 4096) fd flags
        rw [← hu]
        exact ⟨hins.numbered,countsTo_store hins⟩

theorem callCounts_wunmap (s : Ctx) (addr : Word) : CallCounts s (.wunmap addr) := by
  refine ⟨.nil _,CountsTo.ignore ?_⟩
  have hdrop := along_wunmap addr s
  cases hr : wunmap addr s with
  | ok r u =>
    rw [hr] at hdrop
    exact drops_counter hdrop
  | error e u =>
    rw [hr] at hdrop
    exact fun _ => drops_counter hdrop

theorem callCounts_fork (s : Ctx) : CallCounts s .fork := by
  suffices h : Numbered s.tab.poolCounter (insertions s .fork) ∧
      CountsTo (s.tab.poolCounter+(insertions s .fork).countP occupied) (fork s) from ⟨h.1,h.2.ignore⟩
  have hquiet := quiet_forkProc s
  rw [fork_apply,insertions]
  cases hr : forkProc s with
  | error e u =>
    rw [hr] at hquiet
    exact ⟨.nil _,fun _ => congrArg _ hquiet⟩
  | ok r u =>
    rw [hr] at hquiet
    cases r with
    | none => exact ⟨.nil _,congrArg _ hquiet⟩
    | some child =>
      have hcounts := counts_forkHelper u.tab
      rw [← show u.tab = s.tab from hquiet]
      exact ⟨hcounts.numbered,countsTo_store hcounts⟩

theorem callCounts (s : Ctx) (c : MapCall) : CallCounts s c := by
  cases c with
  | wmap addr length flags fd => exact callCounts_wmap s addr length flags fd
  | wunmap addr => exact callCounts_wunmap s addr
  | fork => exact callCounts_fork s

end Calls

section Runs

theorem history_snoc (calls : List (Ctx × MapCall)) (c : Ctx × MapCall) :
    history (calls ++ [c]) = history calls ++ insertions c.1 c.2 := by
  simp [history]

/-- In a run the counter is the number of insertions that met an occupied slot. -/
theorem run_counter {calls : List (Ctx × MapCall)} (h : Run MapStep .boot calls t) :
    Numbered 0 (history calls) ∧ t.poolCounter = collisions calls := by
  refine h.invariant (I := fun calls t => Numbered 0 (history calls) ∧ t.poolCounter = collisions calls)
    ⟨.nil _,rfl⟩ fun calls t c t' _ hI hstep => ?_
  obtain ⟨hnum,hcount⟩ := hI
  obtain @⟨s,s',c,hfin⟩ := hstep
  have hc := callCounts s c
  rw [collisions,history_snoc,List.countP_append]
  constructor
  · refine hnum.append ?_
    rw [Nat.zero_add,← collisions,← hcount]
    exact hc.numbered
  · rw [hc.finishes hfin,hcount,collisions]

/-- A call at the end of a run stays inside the pool, like all calls before it, if and only if
no more than sixteen insertions met an occupied slot. -/
theorem pool_never_exhausted {calls : List (Ctx × MapCall)} (s : Ctx) (c : MapCall)
    (h : Run MapStep .boot calls s.tab) :
    (∀ x ∈ history (calls ++ [(s,c)]), ∀ j, poolIndex x = some j → j < MAX_WMMAP_INFO) ↔
      collisions (calls ++ [(s,c)]) ≤ MAX_WMMAP_INFO := by
  obtain ⟨hnum,hcount⟩ := run_counter h
  refine Numbered.lt_iff ?_ _
  rw [history_snoc]
  refine hnum.append ?_
  rw [Nat.zero_add,← collisions,← hcount]
  exact (callCounts s c).numbered

def runMaps : List MapCall → Ctx → Option (List (Ctx × MapCall) × Ctx)
  | [], s => some ([],s)
  | c :: cs, s =>
    match c.run s with
    | .ok _ s' =>
      if (liveEntries s'.tab).length ≤ MAX_WMMAP_INFO then (runMaps cs s').map fun r => ((s,c) :: r.1,r.2)
      else none
    | .error _ _ => none

def BoundedStep (t : Table) (c : Ctx × MapCall) (t' : Table) : Prop :=
  MapStep t c t' ∧ (liveEntries t').length ≤ MAX_WMMAP_INFO

theorem run_runMaps {cs : List MapCall} {calls : List (Ctx × MapCall)} (h : runMaps cs s = some (calls,s')) :
    Run BoundedStep s.tab calls s'.tab := by
  induction cs generalizing s calls with
  | nil =>
    cases h
    exact .nil
  | cons c cs ih =>
    rw [runMaps] at h
    split at h
    · rename_i r u hu
      split at h
      · rename_i hlen
        obtain ⟨⟨calls',s''⟩,hrest,hr⟩ := Option.map_eq_some_iff.mp h
        cases hr
        exact .cons ⟨.mk (.inl hu),hlen⟩ (ih hrest)
      · cases h
    · cases h

def churn (n : ℕ) : List MapCall :=
  .wmap MMAPBASE 4096 (MAP_SHARED ||| MAP_ANONYMOUS ||| MAP_FIXED) 0 :: (List.replicate n
    [.wmap 0x60013000 4096 (MAP_SHARED ||| MAP_ANONYMOUS ||| MAP_FIXED) 0,.wunmap 0x60013000]).flatten

def oneMore : MapCall := .wmap 0x60013000 4096 (MAP_SHARED ||| MAP_ANONYMOUS ||| MAP_FIXED) 0

theorem run_churn {α : Type} {n : ℕ} {f : List (Ctx × MapCall) × Ctx → α} {b : α}
    (h : (runMaps (churn n) firstCtx).map f = some b) :
    ∃ calls s, Run BoundedStep .boot calls s.tab ∧ f (calls,s) = b := by
  obtain ⟨⟨calls,s⟩,hrun,hb⟩ := Option.map_eq_some_iff.mp h
  exact ⟨calls,s,run_runMaps hrun,hb⟩

theorem pool_never_exhausted_four : ∃ calls s, Run MapStep .boot calls s.tab ∧
    collisions (calls ++ [(s,oneMore)]) = 4 ∧
      ∀ x ∈ history (calls ++ [(s,oneMore)]), ∀ j, poolIndex x = some j → j < MAX_WMMAP_INFO := by
  obtain ⟨calls,s,hrun,hc⟩ := run_churn (n := 3) (b := 4) (f := fun r => collisions (r.1 ++ [(r.2,oneMore)]))
    (by decide +kernel)
  have hmap := hrun.mono fun _ _ _ h => h.1
  exact ⟨calls,s,hmap,hc,(pool_never_exhausted s oneMore hmap).mpr (hc.le.trans (by decide))⟩

/-- With never more than two mappings alive, the seventeenth node is asked for. -/
theorem pool_exhausted : ∃ calls s, Run BoundedStep .boot calls s.tab ∧
    ∃ x ∈ insertions s oneMore, poolIndex x = some MAX_WMMAP_INFO := by
  obtain ⟨calls,s,hrun,hm⟩ := run_churn (n := 16) (b := [16])
    (f := fun r => (insertions r.2 oneMore).filterMap poolIndex) (by decide +kernel)
  refine ⟨calls,s,hrun,List.mem_filterMap.mp ?_⟩
  rw [hm]
  exact List.mem_singleton.mpr rfl

end Runs
end Xv6.Kernel