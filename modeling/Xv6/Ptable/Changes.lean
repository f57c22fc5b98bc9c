import Xv6.Ptable.Sections

/-! # Transitions of the process table

Every critical section, and every unlocked part of `fork`, is one step of the table. A
slot that `fork` is still filling in belongs to exactly one process.
-/
namespace Xv6.Ptable
open Function
variable {s s' : Procs} {p q r np : Slot} {victim : Option PidNum}

inductive Change (s : Procs) (victim : Option PidNum) : Procs → Prop
  | same : Change s victim s
  | dispatch (p : Slot) : (s.table p).state = .runnable → Change s victim (dispatch s p)
  | tidy (p : Slot) : (s.table p).state = .running → Change s victim (tidy s p)
  | yield (p : Slot) : (s.table p).state = .running → Change s victim (yield s p)
  | sleep (p : Slot) (chan : Chan) : (s.table p).state = .running → Change s victim (sleep s p chan .sleep)
  | exit (p : Slot) : (s.table p).state = .running → s.stage p = .user → p ≠ initproc → Change s victim (exit s p)
  | wait (p : Slot) : (s.table p).state = .running → Change s victim (wait s p).1
  | kill (pid : PidNum) : victim = some pid → Change s victim { s with table := (kill s.table pid).1 }
  | wakeup (chan : Option Chan) : Change s victim { s with table := wakeup1 s.table chan }
  | allocproc (p : Slot) : (s.table p).state = .running → s.stage p = .user → Change s victim (allocproc s p)
  | allocstack (p np : Slot) (ok : Bool) : (s.table p).state = .running → s.stage p = .allocated np →
    Change s victim (allocstack s p np ok)
  | copyproc (p np : Slot) (ok : Bool) : (s.table p).state = .running → s.stage p = .stacked np →
    Change s victim (copyproc s p np ok)
  | ready (p np : Slot) : (s.table p).state = .running → s.stage p = .copied np → Change s victim (ready s p np)

def Stage.target : Stage → Option Slot
  | .user => none
  | .allocated np => some np
  | .stacked np => some np
  | .copied np => some np

structure Forks (s : Procs) : Prop where
  embryo : ∀ p np, (s.stage p).target = some np → (s.table np).state = .embryo
  unique : ∀ p q np, (s.stage p).target = some np → (s.stage q).target = some np → p = q
  active : ∀ p, s.stage p ≠ .user → (s.table p).state.active = true

theorem Forks.keep (h : Forks s) (hstage : s'.stage = s.stage)
    (hstate : ∀ q, Stirred (s.table q).state (s'.table q).state ∨
      (s.table q).state ≠ .embryo ∧ (s.stage q ≠ .user → (s'.table q).state.active = true)) : Forks s' := by
  refine ⟨?_,?_,?_⟩
  · intro p np hp
    rw [hstage] at hp
    have he := h.embryo p np hp
    rcases hstate np with hs | ⟨hne,-⟩
    · rw [hs.eq_of_ne (by rw [he]; decide)]
      exact he
    · exact absurd he hne
  · rw [hstage]
    exact h.unique
  · intro p hp
    rw [hstage] at hp
    rcases hstate p with hs | ⟨-,hactive⟩
    · rw [hs.active]
      exact h.active p hp
    · exact hactive hp

theorem Forks.set {x : Proc} (h : Forks s) (hstage : s'.stage = s.stage) (htable : s'.table = Function.update s.table p x)
    (hp : (s.table p).state ≠ .embryo) (hx : s.stage p ≠ .user → x.state.active = true) : Forks s' := by
  refine h.keep hstage fun q => ?_
  rw [htable]
  by_cases hqp : q = p
  · subst hqp
    rw [update_self]
    exact .inr ⟨hp,hx⟩
  · rw [update_of_ne hqp]
    exact .inl (.inl rfl)

/-- A process goes on in `fork`, where only the new slot `np` changes. -/
theorem Forks.restage {st : Stage} (h : Forks s) (hstage : s'.stage = Function.update s.stage p st)
    (htable : ∀ q, q ≠ np → (s'.table q).state = (s.table q).state) (hp : (s.table p).state = .running)
    (hnp : (s.table np).state.active = false) (hst : ∀ r, st.target = some r → r = np ∧ (s'.table np).state = .embryo)
    (hother : ∀ q, q ≠ p → (s.stage q).target ≠ some np) : Forks s' := by
  have hpnp : p ≠ np := by
    rintro rfl
    rw [hp] at hnp
    cases hnp
  refine ⟨?_,?_,?_⟩
  · intro q r hr
    rw [hstage] at hr
    by_cases hqp : q = p
    · subst hqp
      rw [update_self] at hr
      obtain ⟨rfl,he⟩ := hst r hr
      exact he
    · rw [update_of_ne hqp] at hr
      have hrnp : r ≠ np := by
        rintro rfl
        exact hother q hqp hr
      rw [htable r hrnp]
      exact h.embryo q r hr
  · intro q q' r hq hq'
    have hone : ∀ {q}, q ≠ p → (s'.stage p).target = some r → (s'.stage q).target ≠ some r := by
      intro q hqp hr hc
      rw [hstage,update_self] at hr
      rw [hstage,update_of_ne hqp,(hst r hr).1] at hc
      exact hother q hqp hc
    by_cases hqp : q = p
    · subst hqp
      by_contra hne
      exact hone (Ne.symm hne) hq hq'
    · by_cases hqp' : q' = p
      · subst hqp'
        exact absurd hq (hone hqp hq')
      · rw [hstage,update_of_ne hqp] at hq
        rw [hstage,update_of_ne hqp'] at hq'
        exact h.unique q q' r hq hq'
  · intro q hq
    by_cases hqp : q = p
    · subst hqp
      rw [htable q hpnp,hp]
      rfl
    · rw [hstage,update_of_ne hqp] at hq
      have hact := h.active q hq
      have hqnp : q ≠ np := by
        rintro rfl
        rw [hnp] at hact
        cases hact
      rw [htable q hqnp]
      exact hact

/-- A call of `fork` goes on with its slot, or gives it up. -/
theorem Forks.onward {st : Stage} {x : Proc} (h : Forks s) (hp : (s.table p).state = .running)
    (hslot : (s.stage p).target = some np) (hstage : s'.stage = Function.update s.stage p st)
    (htable : s'.table = Function.update s.table np x) (hst : ∀ r, st.target = some r → r = np ∧ x.state = .embryo) :
    Forks s' := by
  refine h.restage hstage (fun q hq => ?_) hp (by rw [h.embryo p np hslot]; rfl) (fun r hr => ?_)
    fun q hq hc => hq (h.unique _ _ _ hc hslot)
  · rw [htable,update_of_ne hq]
  · rw [htable,update_self]
    exact hst r hr

theorem Forks.change (h : Forks s) (hc : Change s victim s') : Forks s' := by
  have hne : ∀ {p st}, (s.table p).state = st → st ≠ .embryo → (s.table p).state ≠ .embryo :=
    fun hp hst he => hst (hp.symm.trans he)
  cases hc with
  | same => exact h
  | dispatch p hp => exact h.set rfl rfl (hne hp (by decide)) fun _ => rfl
  | tidy p hp => exact h.set rfl rfl (hne hp (by decide)) fun _ => by rw [hp]; rfl
  | yield p hp => exact h.set rfl rfl (hne hp (by decide)) fun _ => rfl
  | sleep p chan hp => exact h.set rfl rfl (hne hp (by decide)) fun _ => rfl
  | exit p hp huser hinit =>
    refine h.keep rfl fun q => ?_
    by_cases hq : q = p
    · subst hq
      exact .inr ⟨hne hp (by decide),fun hn => absurd huser hn⟩
    · exact .inl (woken_exit hq).state
  | wait p hp =>
    rcases wait_cases s p with ⟨q,-,hz,hw⟩ | hw | ⟨-,-,-,hw⟩
    · rw [hw]
      refine h.set rfl rfl (hne hz (by decide)) fun hq => ?_
      have := h.active q hq
      rw [hz] at this
      cases this
    · rw [hw]
      exact h
    · rw [hw]
      exact h.set rfl rfl (hne hp (by decide)) fun _ => rfl
  | kill pid hpid => exact h.keep rfl fun q => .inl (kill_state s.table pid q)
  | wakeup chan => exact h.keep rfl fun q => .inl (woken_wakeup1 s.table chan q).state
  | allocproc p hp huser =>
    rcases allocproc_cases s p with hs | ⟨np,hnp,hs⟩
    · rw [hs]
      exact h
    · rw [hs]
      refine h.restage rfl (fun q hq => congrArg Proc.state (set_of_ne hq)) hp (by rw [hnp]; rfl) ?_ ?_
      · rintro r hr
        cases hr
        exact ⟨rfl,congrArg Proc.state set_self⟩
      · intro q _ hq
        rw [h.embryo q np hq] at hnp
        cases hnp
  | allocstack p np ok hp hst =>
    have hslot : (s.stage p).target = some np := by rw [hst]; rfl
    cases ok with
    | true => exact h.onward hp hslot rfl rfl fun r hr => ⟨(Option.some.inj hr).symm,h.embryo p np hslot⟩
    | false => exact h.onward hp hslot rfl rfl nofun
  | copyproc p np ok hp hst =>
    have hslot : (s.stage p).target = some np := by rw [hst]; rfl
    cases ok with
    | true => exact h.onward hp hslot rfl rfl fun r hr => ⟨(Option.some.inj hr).symm,h.embryo p np hslot⟩
    | false => exact h.onward hp hslot rfl rfl nofun
  | ready p np hp hst =>
    exact h.onward hp (by rw [hst]; rfl) rfl rfl nofun

end Xv6.Ptable
