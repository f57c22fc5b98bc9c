import Xv6.Ptable.Cpus

/-! # Kill

`kill` marks the first entry with the given pid, whatever its state is. It reaches a
process exactly if that entry is in use; otherwise it marks an entry that `allocproc`
hands out later without clearing the mark.
-/
namespace Xv6.Ptable
open Runs Function
variable {s s' : Procs} {t : Table} {pid : PidNum} {victim : Option PidNum}

section Calls

def target (t : Table) (pid : PidNum) : Option Slot := first fun q => decide ((t q).pid = pid)

def KillsLive (t : Table) (pid : PidNum) : Prop :=
  ((kill t pid).2 = 0 ↔ ∃ q, (t q).state ≠ .unused ∧ (t q).pid = pid) ∧
  ((kill t pid).2 = 0 → ∃ q, (t q).state ≠ .unused ∧ (t q).pid = pid ∧ (kill t pid).1 q = marked (t q) ∧
    ∀ r, r ≠ q → (kill t pid).1 r = t r) ∧
  ((kill t pid).2 ≠ 0 → (kill t pid).1 = t)

def TargetUsed (t : Table) (pid : PidNum) : Prop := ∀ q ∈ target t pid, (t q).state ≠ .unused

instance (t : Table) (pid : PidNum) : Decidable (TargetUsed t pid) := Option.decidableForallMem _

theorem killsLive_of_used (h : TargetUsed t pid) : KillsLive t pid := by
  rcases kill_cases t pid with ⟨hnone,hk⟩ | ⟨q,hfirst,hpid,hk⟩
  · rw [KillsLive,hk]
    refine ⟨⟨nofun,?_⟩,nofun,fun _ => rfl⟩
    rintro ⟨q,-,hq⟩
    exact absurd hq (hnone q)
  · have hq := h q hfirst
    rw [KillsLive,hk]
    refine ⟨⟨fun _ => ⟨q,hq,hpid⟩,fun _ => rfl⟩,fun _ => ⟨q,hq,hpid,update_self ..,?_⟩,fun hne => absurd rfl hne⟩
    exact fun r hr => update_of_ne hr ..

/-- Where unused entries carry no mark, the condition is also necessary. -/
theorem killsLive_iff (hclean : ∀ q, (t q).state = .unused → (t q).killed = false) :
    KillsLive t pid ↔ TargetUsed t pid := by
  refine ⟨fun h q hfirst hunused => ?_,killsLive_of_used⟩
  rcases kill_cases t pid with ⟨hnone,-⟩ | ⟨r,hr,-,hk⟩
  · exact hnone q (of_decide_eq_true (first_some hfirst))
  · cases Option.some.inj (hfirst.symm.trans hr)
    obtain ⟨r,hused,-,-,hsame⟩ := h.2.1 (by rw [hk])
    have hqr : q ≠ r := by
      rintro rfl
      exact hused hunused
    have hq := hsame q hqr
    simp only [hk,update_self] at hq
    have hkilled : (t q).killed = true := (congrArg Proc.killed hq).symm
    rw [hclean q hunused] at hkilled
    cases hkilled

end Calls

section Marks

def ProcState.idle : ProcState → Bool
  | .unused => true
  | .embryo => true
  | _ => false

def Unmarked (s : Procs) : Prop := ∀ q, (s.table q).state.idle = true → (s.table q).killed = false

def Started (t : Table) (pid : PidNum) : Prop := ∀ q ∈ target t pid, (t q).state.idle = false

instance (t : Table) (pid : PidNum) : Decidable (Started t pid) := Option.decidableForallMem _

theorem Stirred.idle {x y : ProcState} (h : Stirred x y) : y.idle = x.idle := by
  rcases h with rfl | ⟨rfl,rfl⟩
  · rfl
  · rfl

def Clean (s s' : Procs) (q : Slot) : Prop :=
  (s.table q).state.idle = true ∨ (s'.table q).state.idle = true → (s'.table q).killed = false

theorem Unmarked.set {q : Slot} {x : Proc} (h : Unmarked s) (htable : s'.table = Function.update s.table q x)
    (hx : (s.table q).state.idle = true ∨ x.state.idle = true → x.killed = false) (r : Slot) : Clean s s' r := by
  rw [Clean,htable]
  by_cases hrq : r = q
  · subst hrq
    rw [update_self]
    exact hx
  · rw [update_of_ne hrq,or_self]
    exact h r

theorem Unmarked.change (h : Unmarked s) (hf : Forks s) (hvictim : ∀ pid, victim = some pid → Started s.table pid)
    (hc : Change s victim s') (q : Slot) : Clean s s' q := by
  have hembryo : ∀ {p np}, (s.stage p).target = some np → (s.table np).killed = false :=
    fun hp => h _ (by rw [hf.embryo _ _ hp]; rfl)
  have hwoken : ∀ {q}, Woken (s.table q) (s'.table q) → Clean s s' q := by
    intro q hw hq
    rw [hw.state.idle,or_self] at hq
    exact hw.killed.trans (h q hq)
  cases hc with
  | same => exact fun hq => h q (or_self_iff.mp hq)
  | dispatch p hp => exact h.set rfl (by simp [hp,ProcState.idle]) q
  | tidy p hp => exact h.set rfl (by simp [hp,ProcState.idle]) q
  | yield p hp => exact h.set rfl (by simp [hp,ProcState.idle]) q
  | sleep p chan hp => exact h.set rfl (by simp [hp,ProcState.idle]) q
  | exit p hp huser hinit =>
    by_cases hq : q = p
    · subst hq
      rw [Clean,exit_self,hp]
      simp [ProcState.idle]
    · exact hwoken (woken_exit hq)
  | wait p hp =>
    rcases wait_cases s p with ⟨r,-,-,hw⟩ | hw | ⟨-,-,-,hw⟩
    · rw [hw]
      exact h.set rfl (fun _ => rfl) q
    · rw [hw]
      exact fun hq => h q (or_self_iff.mp hq)
    · rw [hw]
      exact h.set rfl (by simp [hp,ProcState.idle]) q
  | kill pid hpid =>
    rcases kill_cases s.table pid with ⟨-,hk⟩ | ⟨r,hfirst,-,hk⟩
    · rw [hk]
      exact fun hq => h q (or_self_iff.mp hq)
    · refine h.set (congrArg Prod.fst hk) (fun hi => ?_) q
      rw [(marked_state _).idle,or_self,hvictim pid hpid r hfirst] at hi
      cases hi
  | wakeup chan => exact hwoken (woken_wakeup1 s.table chan q)
  | allocproc p hp huser =>
    rcases allocproc_cases s p with hs | ⟨np,hnp,hs⟩
    · rw [hs]
      exact fun hq => h q (or_self_iff.mp hq)
    · rw [hs]
      refine h.set rfl (fun _ => ?_) q
      exact h np (by rw [hnp]; rfl)
  | allocstack p np ok hp hst =>
    have hnp := hembryo (p := p) (by rw [hst]; rfl)
    cases ok with
    | true =>
      refine h.set rfl (fun _ => ?_) q
      exact hnp
    | false =>
      refine h.set rfl (fun _ => ?_) q
      exact hnp
  | copyproc p np ok hp hst =>
    have hnp := hembryo (p := p) (by rw [hst]; rfl)
    cases ok with
    | true =>
      refine h.set rfl (fun _ => ?_) q
      exact hnp
    | false =>
      refine h.set rfl (fun _ => ?_) q
      exact hnp
  | ready p np hp hst =>
    refine h.set rfl (fun _ => ?_) q
    exact hembryo (p := p) (by rw [hst]; rfl)

end Marks

section Runs

def Mild (s : Sys) (a : Action) : Prop := ∀ pid ∈ s.victim a.cpu, Started s.procs.table pid

instance (s : Sys) (a : Action) : Decidable (Mild s a) := Option.decidableForallMem _

def MildStep (s : Sys) (a : Action) (s' : Sys) : Prop := Mild s a ∧ Step s a s'

variable {s s' : Sys} {a : Action}

theorem Machine.clean (hm : Machine s) (hf : Forks s.procs) (hmild : Mild s a) (hstep : Step s a s')
    (h : Unmarked s.procs) (q : Slot) : Clean s.procs s'.procs q :=
  h.change hf hmild (hm.step hf hstep).change q

theorem unmarked_run {t : List Action} (h : Run MildStep boot t s) : Unmarked s.procs := by
  refine Run.invariant (I := fun _ s => Unmarked s.procs) ?_ ?_ h
  · intro q _
    have hall : ∀ q, (boot.procs.table q).killed = false := by decide
    exact hall q
  · rintro t u a v hrun hu ⟨hmild,hstep⟩ q hq
    obtain ⟨hm,hf⟩ := machine_run (hrun.mono fun _ _ _ hs => hs.2)
    exact hm.clean hf hmild hstep hu q (.inr hq)

/-- In every table a call of `kill` reaches a live process if the first entry with its pid is in use.
Where every call so far met a process that had started, it reaches one exactly then; and a process
that `fork` creates or starts carries no mark. -/
theorem kill_live {t : List Action} (h : Run MildStep boot t s) :
    (∀ t pid, TargetUsed t pid → KillsLive t pid) ∧
    (∀ pid, KillsLive s.procs.table pid ↔ TargetUsed s.procs.table pid) ∧
    ∀ a s', MildStep s a s' → ∀ q, (s.procs.table q).state = .unused ∨ (s.procs.table q).state = .embryo →
      (s'.procs.table q).killed = false := by
  have hu := unmarked_run h
  obtain ⟨hm,hf⟩ := machine_run (h.mono fun _ _ _ hs => hs.2)
  refine ⟨fun _ _ => killsLive_of_used,fun pid => killsLive_iff fun q hq => hu q (by rw [hq]; rfl),?_⟩
  rintro a s' ⟨hmild,hstep⟩ q hq
  refine hm.clean hf hmild hstep hu q (.inl ?_)
  rcases hq with hq | hq
  · rw [hq]
    rfl
  · rw [hq]
    rfl

def killFirst : List Action := [.step 0,.step 0,.step 0,.step 0,.call 0 (.kill 1)]

theorem kill_live_killFirst : ∃ s, Run MildStep boot killFirst s ∧ KillsLive s.procs.table 1 := by
  obtain ⟨s,hs,hused⟩ : ∃ s, killFirst.foldlM (fun s a => if Mild s a then next s a else none) boot = some s ∧
      TargetUsed s.procs.table 1 := ⟨_,rfl,by decide⟩
  have hrun : Run MildStep boot killFirst s := Run.of_foldlM_guard hs
  exact ⟨s,hrun,((kill_live hrun).2.1 1).mpr hused⟩

def killNobody : List Action := [.step 0,.step 0,.step 0,.step 0,.call 0 (.kill 0)]

def forkChild : List Action := [.step 0,.call 0 .allocproc,.step 0,.build 0 true,.build 0 true,.call 0 (.ready 1),.step 0]

/-- The call succeeds although nobody has the pid, and the child is marked when it starts. -/
theorem killNobody_marked : ∃ s s', Run Step boot killNobody s ∧ (kill s.procs.table 0).2 = 0 ∧
    (∀ q, (s.procs.table q).state ≠ .unused → (s.procs.table q).pid ≠ 0) ∧ Run Step s forkChild s' ∧
    (s'.procs.table 1).state = .runnable ∧ (s'.procs.table 1).killed = true := by
  obtain ⟨s,hs,hzero,hnobody,s',hs',hrunnable,hkilled⟩ : ∃ s, killNobody.foldlM next boot = some s ∧
      (kill s.procs.table 0).2 = 0 ∧ (∀ q, (s.procs.table q).state ≠ .unused → (s.procs.table q).pid ≠ 0) ∧
      ∃ s', forkChild.foldlM next s = some s' ∧ (s'.procs.table 1).state = .runnable ∧
        (s'.procs.table 1).killed = true := ⟨_,rfl,rfl,by decide,_,rfl,rfl,rfl⟩
  exact ⟨s,s',Run.of_foldlM hs,hzero,hnobody,Run.of_foldlM hs',hrunnable,hkilled⟩

end Runs

end Xv6.Ptable
