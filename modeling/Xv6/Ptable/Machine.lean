import Xv6.Ptable.Changes
import Xv6.Ptable.System

/-! # CPUs and the processes they run

A CPU that does not hold `ptable.lock` either runs no process or runs one that is
`RUNNING`. With the lock held, `c->proc` may name a process that is not running yet or
not any more. Every step of a CPU is a transition of the table, and does not disturb the
processes that other CPUs run.
-/
namespace Xv6.Ptable
open Mutex Runs Function
variable {s s' : Sys} {c d : Cpu} {p q np : Slot} {a : Action}

section Invariant

def Fits : Mode → Option ProcState → Prop
  | .idle,st => st = none
  | .scan _,st => st = none
  | .chosen,st => st = some .runnable
  | .resumed,st => st = some .running
  | .running,st => st = some .running
  | .locked op,st => st = some .running ∨ st = none ∧ ∃ chan, op = .wakeup chan
  | .leaving,st => ∃ x, st = some x ∧ x ≠ .running

def Calm (x y : ProcState) : Prop := y = x ∨ x ≠ .running ∧ x ≠ .runnable ∧ y ≠ .running

theorem Stirred.calm {x y : ProcState} (h : Stirred x y) : Calm x y := by
  rcases h with rfl | ⟨rfl,rfl⟩
  · exact .inl rfl
  · exact .inr (by decide)

theorem calm_of_inactive {x y : ProcState} (hx : x.active = false) (hy : y ≠ .running) : Calm x y := by
  refine .inr ⟨?_,?_,hy⟩
  · rintro rfl
    cases hx
  · rintro rfl
    cases hx

theorem Fits.calm {mode : Mode} {x y : ProcState} (h : Fits mode (some x)) (hc : Calm x y) : Fits mode (some y) := by
  rcases hc with rfl | ⟨hrunning,hrunnable,hy⟩
  · exact h
  · cases mode with
    | idle => cases h
    | scan k => cases h
    | chosen => exact absurd (Option.some.inj h) hrunnable
    | resumed => exact absurd (Option.some.inj h) hrunning
    | running => exact absurd (Option.some.inj h) hrunning
    | locked op =>
      rcases h with h | ⟨h,-⟩
      · exact absurd (Option.some.inj h) hrunning
      · cases h
    | leaving => exact ⟨y,rfl,hy⟩

def Op.needs (stage : Stage) (p : Slot) : Op → Prop
  | .exit => stage = .user ∧ p ≠ initproc
  | .allocproc => stage = .user
  | .ready np => stage = .copied np
  | _ => True

def Sys.victim (s : Sys) (c : Cpu) : Option PidNum :=
  match s.mode c with
  | .locked (.kill pid) => some pid
  | _ => none

structure Machine (s : Sys) : Prop where
  held : Held Mode.holds s.mode s.lock
  fits : ∀ c, Fits (s.mode c) ((s.proc c).map fun p => (s.procs.table p).state)
  unique : ∀ c d p, s.proc c = some p → s.proc d = some p → c = d
  runs : ∀ p, (s.procs.table p).state = .running → ∃ c, s.proc c = some p
  needs : ∀ c p op, s.mode c = .locked op → s.proc c = some p → op.needs (s.procs.stage p) p

structure Advance (s : Sys) (c : Cpu) (s' : Sys) : Prop where
  machine : Machine s'
  change : Change s.procs (s.victim c) s'.procs
  calm : ∀ q, s.proc c ≠ some q → Calm (s.procs.table q).state (s'.procs.table q).state

def Aside (s : Sys) (c : Cpu) (procs : Procs) : Prop := ∀ q, s.proc c ≠ some q →
  Calm (s.procs.table q).state (procs.table q).state ∧ procs.stage q = s.procs.stage q

theorem Machine.go (h : Machine s) {mode : Mode} {lock : Option Cpu} {procs : Procs}
    (hlock : lock = owner mode.holds (s.mode c).holds c s.lock)
    (hfree : mode.holds = true → (s.mode c).holds = true ∨ s.lock = none)
    (hfit : Fits mode ((s.proc c).map fun p => (procs.table p).state))
    (hneeds : ∀ p op, mode = .locked op → s.proc c = some p → op.needs (procs.stage p) p)
    (hchange : Change s.procs (s.victim c) procs) (haside : Aside s c procs) : Advance s c (s.go c mode lock procs) := by
  refine ⟨⟨?_,?_,h.unique,?_,?_⟩,hchange,fun q hq => (haside q hq).1⟩
  · rw [hlock]
    exact h.held.move hfree
  · intro d
    by_cases hd : d = c
    · subst hd
      simp only [Sys.go,update_self]
      exact hfit
    · simp only [Sys.go,update_of_ne hd]
      have hfits := h.fits d
      cases hp : s.proc d with
      | none =>
        rw [hp] at hfits
        exact hfits
      | some q =>
        rw [hp] at hfits
        exact hfits.calm (haside q fun hc => hd (h.unique d c q hp hc)).1
  · intro p hp
    by_cases hc : s.proc c = some p
    · exact ⟨c,hc⟩
    · rcases (haside p hc).1 with hsame | ⟨-,-,hne⟩
      · exact h.runs p (hsame ▸ hp)
      · exact absurd hp hne
  · intro d p op hd hp
    by_cases hdc : d = c
    · subst hdc
      simp only [Sys.go,update_self] at hd
      exact hneeds p op hd hp
    · simp only [Sys.go,update_of_ne hdc] at hd
      simp only [Sys.go,(haside p fun hc => hdc (h.unique d c p hp hc)).2]
      exact h.needs d p op hd hp

theorem Machine.stay (h : Machine s) {mode : Mode} {procs : Procs} (hbefore : (s.mode c).holds = true)
    (hafter : mode.holds = true) (hfit : Fits mode ((s.proc c).map fun p => (procs.table p).state))
    (hneeds : ∀ p op, mode = .locked op → s.proc c = some p → op.needs (procs.stage p) p)
    (hchange : Change s.procs (s.victim c) procs) (haside : Aside s c procs) : Advance s c (s.go c mode s.lock procs) := by
  refine h.go ?_ (fun _ => .inl hbefore) hfit hneeds hchange haside
  rw [owner,if_pos hafter]
  exact (h.held c).mp hbefore

theorem Machine.release (h : Machine s) {mode : Mode} {procs : Procs} (hbefore : (s.mode c).holds = true)
    (hafter : mode.holds = false) (hfit : Fits mode ((s.proc c).map fun p => (procs.table p).state))
    (hchange : Change s.procs (s.victim c) procs) (haside : Aside s c procs) : Advance s c (s.go c mode none procs) := by
  refine h.go ?_ (by simp [hafter]) hfit ?_ hchange haside
  · rw [owner,hafter,hbefore]
    rfl
  · rintro p op rfl
    cases hafter

theorem Machine.acquire (h : Machine s) {mode : Mode} (hfree : s.lock = none) (hafter : mode.holds = true)
    (hfit : Fits mode ((s.proc c).map fun p => (s.procs.table p).state))
    (hneeds : ∀ p op, mode = .locked op → s.proc c = some p → op.needs (s.procs.stage p) p) :
    Advance s c (s.go c mode (some c) s.procs) := by
  refine h.go ?_ (fun _ => .inr hfree) hfit hneeds .same fun _ _ => ⟨.inl rfl,rfl⟩
  rw [owner,if_pos hafter]

end Invariant

section Sections

/-- One entry changes, that of the process itself or one that the scheduler would not choose. -/
theorem Aside.of_update {x : Proc} {procs : Procs} (hc : s.proc c = some p)
    (htable : procs.table = Function.update s.procs.table q x)
    (hstage : ∀ r, r ≠ p → procs.stage r = s.procs.stage r) (hq : q = p ∨ Calm (s.procs.table q).state x.state) :
    Aside s c procs := by
  intro r hr
  have hrp : r ≠ p := by
    rintro rfl
    exact hr hc
  refine ⟨?_,hstage r hrp⟩
  rw [htable]
  by_cases hrq : r = q
  · subst hrq
    rw [update_self]
    exact hq.resolve_left hrp
  · rw [update_of_ne hrq]
    exact .inl rfl

theorem Aside.of_stirred {procs : Procs} (hc : s.proc c = some p)
    (hstir : ∀ q, q ≠ p → Stirred (s.procs.table q).state (procs.table q).state)
    (hstage : procs.stage = s.procs.stage) : Aside s c procs := by
  intro q hq
  have hqp : q ≠ p := by
    rintro rfl
    exact hq hc
  rw [hstage]
  exact ⟨(hstir q hqp).calm,rfl⟩

theorem running_update {t : Table} {x : Proc} (hp : (t p).state = .running) (hq : (t q).state.active = false) :
    (Function.update t q x p).state = .running := by
  have hpq : p ≠ q := by
    rintro rfl
    rw [hp] at hq
    cases hq
  rw [update_of_ne hpq]
  exact hp

theorem Machine.perform (h : Machine s) (hf : Forks s.procs) {op : Op} (hm : s.mode c = .locked op)
    (hc : s.proc c = some p) : Advance s c (perform s c p op) := by
  have hbefore : (s.mode c).holds = true := by
    rw [hm]
    rfl
  have hp : (s.procs.table p).state = .running := by
    have hfit := h.fits c
    rw [hm,hc] at hfit
    rcases hfit with hfit | ⟨hfit,-⟩
    · exact Option.some.inj hfit
    · cases hfit
  have hneeds := h.needs c p op hm hc
  have hfit : ∀ {mode} {procs : Procs}, Fits mode (some (procs.table p).state) →
      Fits mode ((s.proc c).map fun p => (procs.table p).state) := by
    intro mode procs hfit
    rw [hc]
    exact hfit
  have hkeep : ∀ {q x}, (s.procs.table q).state.active = false →
      (update s.procs.table q x p).state = .running := fun hq => running_update hp hq
  have hreturn : ∀ {procs : Procs}, (procs.table p).state = .running → Change s.procs (s.victim c) procs → Aside s c procs →
      Advance s c (s.go c .running none procs) :=
    fun hrunning => h.release hbefore rfl (hfit (congrArg some hrunning))
  cases op with
  | yield =>
    refine h.stay hbefore rfl (hfit ⟨_,rfl,?_⟩) (by simp) (.yield p hp) (.of_update hc rfl (fun _ _ => rfl) (.inl rfl))
    simp [Ptable.yield]
  | sleep chan =>
    refine h.stay hbefore rfl (hfit ⟨_,rfl,?_⟩) (by simp) (.sleep p chan hp)
      (.of_update hc rfl (fun _ _ => rfl) (.inl rfl))
    simp [Ptable.sleep]
  | exit =>
    refine h.stay hbefore rfl (hfit ⟨_,rfl,?_⟩) (by simp) (.exit p hp hneeds.1 hneeds.2)
      (.of_stirred hc (fun q hq => (woken_exit hq).state) rfl)
    simp [Ptable.exit]
  | wait =>
    have hchange : Change s.procs (s.victim c) _ := .wait p hp
    rcases wait_cases s.procs p with ⟨q,-,hz,hw⟩ | hw | ⟨-,-,-,hw⟩
    · rw [hw] at hchange
      simp only [Ptable.perform,hw]
      have hq : (s.procs.table q).state.active = false := by
        rw [hz]
        rfl
      exact hreturn (hkeep hq) hchange
        (.of_update hc rfl (fun _ _ => rfl) (.inr (calm_of_inactive hq (by simp))))
    · rw [hw] at hchange
      simp only [Ptable.perform,hw]
      exact hreturn hp hchange fun _ _ => ⟨.inl rfl,rfl⟩
    · rw [hw] at hchange
      simp only [Ptable.perform,hw]
      refine h.stay hbefore rfl (hfit ⟨_,rfl,?_⟩) (by simp) hchange (.of_update hc rfl (fun _ _ => rfl) (.inl rfl))
      simp [Ptable.sleep]
  | kill pid =>
    refine hreturn ?_ (.kill pid (by rw [Sys.victim,hm])) (.of_stirred hc (fun q _ => kill_state _ pid q) rfl)
    exact ((kill_state _ pid p).eq_of_ne (by rw [hp]; decide)).trans hp
  | wakeup chan =>
    refine hreturn ?_ (.wakeup (some chan)) (.of_stirred hc (fun q _ => (woken_wakeup1 _ _ q).state) rfl)
    exact ((woken_wakeup1 _ _ p).state.eq_of_ne (by rw [hp]; decide)).trans hp
  | allocproc =>
    have hchange : Change s.procs (s.victim c) _ := .allocproc p hp hneeds
    rcases allocproc_cases s.procs p with hs | ⟨np,hnp,hs⟩
    · rw [hs] at hchange
      simp only [Ptable.perform,hs]
      exact hreturn hp hchange fun _ _ => ⟨.inl rfl,rfl⟩
    · rw [hs] at hchange
      simp only [Ptable.perform,hs]
      have hq : (s.procs.table np).state.active = false := by
        rw [hnp]
        rfl
      exact hreturn (hkeep hq) hchange
        (.of_update hc rfl (fun r hr => update_of_ne hr ..) (.inr (calm_of_inactive hq (by simp))))
  | ready np =>
    have hq : (s.procs.table np).state.active = false := by
      rw [hf.embryo p np (by rw [hneeds]; rfl)]
      rfl
    exact hreturn (hkeep hq) (.ready p np hp hneeds)
      (.of_update hc rfl (fun r hr => update_of_ne hr ..) (.inr (calm_of_inactive hq (by simp))))

theorem Machine.build (h : Machine s) (hf : Forks s.procs) {ok : Bool} (hstep : build s c ok = some s') :
    Advance s c s' := by
  unfold Ptable.build at hstep
  cases hm : s.mode c with
  | running =>
    cases hc : s.proc c with
    | none =>
      simp [hm,hc] at hstep
    | some p =>
      have hp : (s.procs.table p).state = .running := by
        have hfit := h.fits c
        rw [hm,hc] at hfit
        exact Option.some.inj hfit
      have hgo : ∀ {procs : Procs} {np x}, (s.procs.stage p).target = some np →
          procs.table = update s.procs.table np x → x.state ≠ .running →
          (∀ r, r ≠ p → procs.stage r = s.procs.stage r) → Change s.procs (s.victim c) procs →
          Advance s c (s.go c .running s.lock procs) := by
        intro procs np x hnp htable hx hstage hchange
        have hq : (s.procs.table np).state.active = false := by
          rw [hf.embryo p np hnp]
          rfl
        refine h.go (by rw [hm]; rfl) (by simp [Mode.holds]) ?_ (by simp) hchange
          (.of_update hc htable hstage (.inr (calm_of_inactive hq hx)))
        rw [hc,htable]
        exact congrArg some (running_update hp hq)
      cases hst : s.procs.stage p with
      | user => simp [hm,hc,hst] at hstep
      | allocated np =>
        have hnp : (s.procs.stage p).target = some np := by
          rw [hst]
          rfl
        simp only [hm,hc,hst] at hstep
        cases hstep
        have hstage : ∀ r, r ≠ p → (allocstack s.procs p np ok).stage r = s.procs.stage r := by
          intro r hr
          cases ok <;> exact update_of_ne hr ..
        cases ok with
        | true => exact hgo hnp rfl (by simp [hf.embryo p np hnp]) hstage (.allocstack p np true hp hst)
        | false => exact hgo hnp rfl (by simp) hstage (.allocstack p np false hp hst)
      | stacked np =>
        have hnp : (s.procs.stage p).target = some np := by
          rw [hst]
          rfl
        simp only [hm,hc,hst] at hstep
        cases hstep
        have hstage : ∀ r, r ≠ p → (copyproc s.procs p np ok).stage r = s.procs.stage r := by
          intro r hr
          cases ok <;> exact update_of_ne hr ..
        cases ok with
        | true => exact hgo hnp rfl (by simp [hf.embryo p np hnp]) hstage (.copyproc p np true hp hst)
        | false => exact hgo hnp rfl (by simp) hstage (.copyproc p np false hp hst)
      | copied np => simp [hm,hc,hst] at hstep
  | _ => simp [hm] at hstep

end Sections

end Xv6.Ptable
