import Xv6.Ptable.Machine

/-! # Processes and the CPUs that run them

The scheduler switches to a runnable process and back, with `ptable.lock` held. In every
run a process that is `RUNNING` belongs to exactly one CPU whenever the lock is free.
-/
namespace Xv6.Ptable
open Mutex Runs Function
variable {s s' : Sys} {c d : Cpu} {p q np : Slot} {a : Action}

section Scheduler

theorem Machine.switch (h : Machine s) {mode : Mode} {o : Option Slot} (hbefore : (s.mode c).holds = true)
    (hafter : mode.holds = true) (hfit : Fits mode (o.map fun p => (s.procs.table p).state))
    (hop : ∀ op, mode ≠ .locked op) (hnew : ∀ p, o = some p → ∀ d, s.proc d ≠ some p)
    (hold : ∀ p, s.proc c = some p → (s.procs.table p).state ≠ .running) :
    Advance s c { s.go c mode s.lock s.procs with proc := Function.update s.proc c o } := by
  refine ⟨⟨?_,?_,?_,?_,?_⟩,.same,fun _ _ => .inl rfl⟩
  · have hlock : s.lock = owner mode.holds (s.mode c).holds c s.lock := by
      rw [owner,if_pos hafter]
      exact (h.held c).mp hbefore
    simp only [Sys.go]
    rw [hlock]
    exact h.held.move fun _ => .inl hbefore
  · intro d
    by_cases hd : d = c
    · subst hd
      simp only [Sys.go,update_self]
      exact hfit
    · simp only [Sys.go,update_of_ne hd]
      exact h.fits d
  · intro d e p hd he
    by_cases hdc : d = c
    · subst hdc
      by_cases hed : e = d
      · exact hed.symm
      · simp only [update_self] at hd
        simp only [update_of_ne hed] at he
        exact absurd he (hnew p hd e)
    · simp only [update_of_ne hdc] at hd
      by_cases hec : e = c
      · subst hec
        simp only [update_self] at he
        exact absurd hd (hnew p he d)
      · simp only [update_of_ne hec] at he
        exact h.unique d e p hd he
  · intro p hp
    obtain ⟨d,hd⟩ := h.runs p hp
    have hdc : d ≠ c := by
      rintro rfl
      exact hold p hd hp
    exact ⟨d,by simp only [update_of_ne hdc]; exact hd⟩
  · intro d p op hd hp
    by_cases hdc : d = c
    · subst hdc
      simp only [Sys.go,update_self] at hd
      exact absurd hd (hop op)
    · simp only [Sys.go,update_of_ne hdc] at hd hp
      exact h.needs d p op hd hp

/-- The holder of the lock alone may have a process in `c->proc` that does not run. -/
theorem Machine.running_of_proc (h : Machine s) (hfree : (s.mode d).holds = false) (hd : s.proc d = some p) :
    (s.procs.table p).state = .running := by
  have hfit := h.fits d
  rw [hd] at hfit
  cases hm : s.mode d with
  | idle =>
    rw [hm] at hfit
    cases hfit
  | running =>
    rw [hm] at hfit
    exact Option.some.inj hfit
  | _ =>
    rw [hm] at hfree
    cases hfree

theorem Machine.schedule (h : Machine s) {k : ℕ} (hm : s.mode c = .scan k) : Advance s c (schedule s c k) := by
  have hbefore : (s.mode c).holds = true := by
    rw [hm]
    rfl
  have hnone : s.proc c = none := by
    have hfit := h.fits c
    rw [hm] at hfit
    exact Option.map_eq_none_iff.mp hfit
  have hsame : Aside s c s.procs := fun _ _ => ⟨.inl rfl,rfl⟩
  unfold Ptable.schedule
  split
  · rename_i hk
    split
    · rename_i hrunnable
      refine h.switch hbefore rfl (congrArg some hrunnable) (by simp) ?_ (by simp [hnone])
      rintro p hp d hd
      cases hp
      have hdc : d ≠ c := by
        rintro rfl
        rw [hnone] at hd
        cases hd
      have hfree := Bool.eq_false_iff.mpr fun hh => hdc (h.held.eq hh hbefore)
      rw [h.running_of_proc hfree hd] at hrunnable
      cases hrunnable
    · exact h.stay hbefore rfl (by rw [hnone]; rfl) (by simp) .same hsame
  · exact h.release hbefore rfl (by rw [hnone]; rfl) .same hsame

theorem Machine.resume (h : Machine s) (hm : s.mode c = .resumed) (hc : s.proc c = some p) :
    Advance s c (resume s c p) := by
  have hbefore : (s.mode c).holds = true := by
    rw [hm]
    rfl
  have hp : (s.procs.table p).state = .running := by
    have hfit := h.fits c
    rw [hm,hc] at hfit
    exact Option.some.inj hfit
  have hsame : Aside s c s.procs := fun _ _ => ⟨.inl rfl,rfl⟩
  have htidy : ((tidy s.procs p).table p).state = .running := (congrArg Proc.state set_self).trans hp
  have haside : Aside s c (tidy s.procs p) := .of_update hc rfl (fun _ _ => rfl) (.inl rfl)
  unfold Ptable.resume
  cases s.procs.resume p with
  | forkret => exact h.release hbefore rfl (by rw [hc]; exact congrArg some hp) .same hsame
  | yield => exact h.release hbefore rfl (by rw [hc]; exact congrArg some hp) .same hsame
  | sleep => exact h.release hbefore rfl (by rw [hc]; exact congrArg some htidy) (.tidy p hp) haside
  | wait =>
    refine h.stay hbefore rfl (.inl (by rw [hc]; exact congrArg some htidy)) ?_ (.tidy p hp) haside
    rintro q op hop -
    cases hop
    trivial

theorem Machine.stepOf (h : Machine s) (hf : Forks s.procs) (hstep : stepOf s c = some s') : Advance s c s' := by
  unfold Ptable.stepOf at hstep
  have hfit := h.fits c
  cases hm : s.mode c with
  | idle =>
    rw [hm] at hfit
    have hnone : s.proc c = none := Option.map_eq_none_iff.mp hfit
    simp only [hm] at hstep
    split at hstep
    · rename_i hfree
      cases hstep
      exact h.acquire hfree rfl (by rw [hnone]; rfl) (by simp)
    · cases hstep
  | scan k =>
    simp only [hm] at hstep
    cases hstep
    exact h.schedule hm
  | chosen =>
    cases hc : s.proc c with
    | none => simp [hm,hc] at hstep
    | some p =>
      rw [hm,hc] at hfit
      simp only [hm,hc] at hstep
      cases hstep
      refine h.stay (by rw [hm]; rfl) rfl ?_ (by simp) (.dispatch p (Option.some.inj hfit))
        (.of_update hc rfl (fun _ _ => rfl) (.inl rfl))
      rw [hc]
      exact congrArg (some ∘ Proc.state) set_self
  | resumed =>
    cases hc : s.proc c with
    | none => simp [hm,hc] at hstep
    | some p =>
      simp only [hm,hc] at hstep
      cases hstep
      exact h.resume hm hc
  | running => simp [hm] at hstep
  | locked op =>
    cases hc : s.proc c with
    | none =>
      rw [hm,hc] at hfit
      obtain ⟨chan,rfl⟩ := (hfit.resolve_left (by simp)).2
      simp only [hm,hc] at hstep
      cases hstep
      refine h.release (by rw [hm]; rfl) rfl (by rw [hc]; rfl) (.wakeup (some chan)) ?_
      exact fun q _ => ⟨(woken_wakeup1 _ _ q).state.calm,rfl⟩
    | some p =>
      simp only [hm,hc] at hstep
      cases hstep
      exact h.perform hf hm hc
  | leaving =>
    cases hc : s.proc c with
    | none => simp [hm,hc] at hstep
    | some p =>
      rw [hm,hc] at hfit
      obtain ⟨x,hx,hne⟩ := hfit
      simp only [hm,hc] at hstep
      cases hstep
      refine h.switch (by rw [hm]; rfl) rfl rfl (by simp) (by simp) ?_
      rintro q hq
      cases hc.symm.trans hq
      cases hx
      exact hne

theorem needs_of_callable {stage : Stage} {op : Op} (h : callable stage p op = true) : op.needs stage p := by
  cases op with
  | exit => simpa [callable,Op.needs] using h
  | allocproc => simpa [callable,Op.needs] using h
  | ready np => simpa [callable,Op.needs] using h
  | _ => trivial

theorem Machine.call (h : Machine s) {op : Op} (hstep : call s c op = some s') : Advance s c s' := by
  unfold Ptable.call at hstep
  have hfit := h.fits c
  cases hm : s.mode c with
  | running =>
    cases hc : s.proc c with
    | none => simp [hm,hc] at hstep
    | some p =>
      rw [hm] at hfit
      simp only [hm,hc] at hstep
      split at hstep
      · rename_i hok
        cases hstep
        refine h.acquire hok.1 rfl (.inl hfit) ?_
        rintro q op' hop hq
        cases hop
        cases hc.symm.trans hq
        exact needs_of_callable hok.2
      · cases hstep
  | _ => simp [hm] at hstep

theorem Machine.step (h : Machine s) (hf : Forks s.procs) (hstep : Step s a s') : Advance s a.cpu s' := by
  cases a with
  | step c => exact h.stepOf hf hstep
  | call c op => exact h.call hstep
  | interrupt c chan =>
    simp only [Step,next] at hstep
    split at hstep
    · rename_i hok
      cases hstep
      have hfit := h.fits c
      rw [hok.1] at hfit
      refine h.acquire hok.2 rfl (.inr ⟨hfit,chan,rfl⟩) ?_
      rintro q op hop -
      cases hop
      trivial
    · cases hstep
  | build c ok => exact h.build hf hstep

end Scheduler

section Runs

theorem machine_boot : Machine boot := by
  refine ⟨?_,?_,?_,?_,?_⟩
  · intro c
    simp [boot,Mode.holds]
  · intro c
    rfl
  · rintro c d p ⟨⟩
  · intro p hp
    have hall : ∀ p, (boot.procs.table p).state ≠ .running := by decide
    exact absurd hp (hall p)
  · rintro c p op ⟨⟩

theorem forks_boot : Forks boot.procs := by
  refine ⟨?_,?_,?_⟩
  · rintro p np ⟨⟩
  · rintro p q np ⟨⟩
  · exact fun p hp => absurd rfl hp

theorem machine_run {t : List Action} (h : Run Step boot t s) : Machine s ∧ Forks s.procs := by
  refine Run.invariant (I := fun _ s => Machine s ∧ Forks s.procs) ⟨machine_boot,forks_boot⟩ ?_ h
  rintro - u a v - ⟨hm,hf⟩ hstep
  have hadv := hm.step hf hstep
  exact ⟨hadv.machine,hf.change hadv.change⟩

/-- When `ptable.lock` is free, the running processes are the current processes of the CPUs, each of
one CPU; and a step of a CPU takes no process of another CPU out of `RUNNING`. -/
theorem running_iff_current {t : List Action} (h : Run Step boot t s) :
    (s.lock = none → ∀ p, (s.procs.table p).state = .running ↔ ∃! c, s.proc c = some p) ∧
    ∀ a s', Step s a s' → ∀ p, (s.procs.table p).state = .running → s.proc a.cpu ≠ some p →
      (s'.procs.table p).state = .running := by
  obtain ⟨hm,hf⟩ := machine_run h
  refine ⟨?_,?_⟩
  · intro hfree p
    constructor
    · intro hp
      obtain ⟨c,hc⟩ := hm.runs p hp
      exact ⟨c,hc,fun d hd => hm.unique d c p hd hc⟩
    · rintro ⟨c,hc,-⟩
      have hheld := hm.held
      rw [hfree] at hheld
      exact hm.running_of_proc (hheld.free c) hc
  · intro a s' hstep p hp hne
    rcases (hm.step hf hstep).calm p hne with hsame | ⟨hnot,-⟩
    · exact hsame.trans hp
    · exact absurd hp hnot

/-- CPU 0 picks the first process. -/
theorem running_iff_current_first : ∃ s, Run Step boot [.step 0,.step 0,.step 0,.step 0] s ∧ s.lock = none ∧
    (s.procs.table initproc).state = .running ∧ ∃! c, s.proc c = some initproc := by
  obtain ⟨s,hs,hlock,hrunning⟩ : ∃ s, List.foldlM next boot [.step 0,.step 0,.step 0,.step 0] = some s ∧
      s.lock = none ∧ (s.procs.table initproc).state = .running := ⟨_,rfl,rfl,rfl⟩
  have hrun := Run.of_foldlM hs
  exact ⟨s,hrun,hlock,hrunning,((running_iff_current hrun).1 hlock initproc).mp hrunning⟩

end Runs

end Xv6.Ptable
