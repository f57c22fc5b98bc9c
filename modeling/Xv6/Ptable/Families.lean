import Xv6.Ptable.Changes

/-! # Parents and children

A parent is a process that has not exited, and a process that sleeps in `wait` has a
child, none of which has exited. `exit` keeps this by waking the parent and by passing
the children on to `initproc`.
-/
namespace Xv6.Ptable
open Function
variable {s s' : Procs} {p q r np : Slot} {victim : Option PidNum}

structure Family (s : Procs) : Prop where
  init : (s.table initproc).state.active = true
  root : (s.table initproc).parent = none
  parent : ∀ p r, (s.table p).parent = some r → (s.table r).state.active = true
  other : ∀ p, (s.table p).parent ≠ some p
  orphan : ∀ p, (s.table p).state = .unused → (s.table p).parent = none
  early : ∀ p np, s.stage p = .allocated np ∨ s.stage p = .stacked np → (s.table np).parent = none
  waits : ∀ p, (s.table p).state = .sleeping → s.resume p = .wait → (s.table p).chan = some (.proc p) ∧
    (s.table p).killed = false ∧ (∃ q, (s.table q).parent = some p) ∧
    ∀ q, (s.table q).parent = some p → (s.table q).state ≠ .zombie

section Steps

/-- Processes wake up, and nothing else changes that matters here. -/
theorem Family.stir (h : Family s) (hstage : s'.stage = s.stage) (hresume : s'.resume = s.resume)
    (hstate : ∀ q, Stirred (s.table q).state (s'.table q).state)
    (hparent : ∀ q, (s'.table q).parent = (s.table q).parent) (hchan : ∀ q, (s'.table q).chan = (s.table q).chan)
    (hkilled : ∀ q, (s'.table q).state = .sleeping → (s'.table q).killed = (s.table q).killed) : Family s' := by
  have hback : ∀ {q x}, (s'.table q).state = x → x ≠ .runnable → (s.table q).state = x := by
    intro q x hq hx
    rcases hstate q with hs | ⟨-,hr⟩
    · rw [← hs]
      exact hq
    · rw [hr] at hq
      exact absurd hq.symm hx
  refine ⟨?_,?_,?_,?_,?_,?_,?_⟩
  · rw [(hstate initproc).active]
    exact h.init
  · rw [hparent]
    exact h.root
  · intro p r hp
    rw [(hstate r).active]
    exact h.parent p r (hparent p ▸ hp)
  · intro p
    rw [hparent]
    exact h.other p
  · intro p hp
    rw [hparent]
    exact h.orphan p (hback hp (by decide))
  · intro p np hp
    rw [hparent]
    exact h.early p np (hstage ▸ hp)
  · intro p hp hw
    obtain ⟨hc,hk,⟨q,hq⟩,hz⟩ := h.waits p (hback hp (by decide)) (hresume ▸ hw)
    refine ⟨(hchan p).trans hc,(hkilled p hp).trans hk,⟨q,(hparent q).trans hq⟩,?_⟩
    intro q hq hzombie
    exact hz q (hparent q ▸ hq) (hback hzombie (by decide))

theorem Family.own {x : Proc} (h : Family s) (htable : s'.table = Function.update s.table p x)
    (hstage : s'.stage = s.stage) (hresume : ∀ q, q ≠ p → s'.resume q = s.resume q)
    (hparent : x.parent = (s.table p).parent) (hp : (s.table p).state.active = true) (hx : x.state.active = true)
    (hself : x.state = .sleeping → s'.resume p = .wait → x.chan = some (.proc p) ∧ x.killed = false ∧
      (∃ q, (s.table q).parent = some p) ∧ ∀ q, (s.table q).parent = some p → (s.table q).state ≠ .zombie) :
    Family s' := by
  have hsame : ∀ q, (s'.table q).parent = (s.table q).parent := by
    intro q
    rw [htable]
    by_cases hq : q = p
    · subst hq
      rw [update_self]
      exact hparent
    · rw [update_of_ne hq]
  have hstate : ∀ q, q ≠ p → s'.table q = s.table q := by
    intro q hq
    rw [htable,update_of_ne hq]
  have hpx : s'.table p = x := by
    rw [htable,update_self]
  have hactive : ∀ q, (s.table q).state.active = true → (s'.table q).state.active = true := by
    intro q hq
    by_cases hqp : q = p
    · rw [hqp,hpx]
      exact hx
    · rw [hstate q hqp]
      exact hq
  have hinactive : ∀ {q y}, (s'.table q).state = y → y.active = false → (s.table q).state = y := by
    intro q y hq hy
    have hqp : q ≠ p := by
      rintro rfl
      rw [← hq,hpx,hx] at hy
      cases hy
    rw [← hstate q hqp]
    exact hq
  refine ⟨hactive _ h.init,?_,?_,?_,?_,?_,?_⟩
  · rw [hsame]
    exact h.root
  · intro q r hq
    exact hactive r (h.parent q r (hsame q ▸ hq))
  · intro q
    rw [hsame]
    exact h.other q
  · intro q hq
    rw [hsame]
    exact h.orphan q (hinactive hq rfl)
  · intro q np hq
    rw [hsame]
    exact h.early q np (hstage ▸ hq)
  · have hkids : ∀ q, ((∃ r, (s.table r).parent = some q) ∧
        ∀ r, (s.table r).parent = some q → (s.table r).state ≠ .zombie) →
        (∃ r, (s'.table r).parent = some q) ∧ ∀ r, (s'.table r).parent = some q → (s'.table r).state ≠ .zombie := by
      rintro q ⟨⟨r,hr⟩,hz⟩
      refine ⟨⟨r,(hsame r).trans hr⟩,?_⟩
      intro r hr hzombie
      exact hz r (hsame r ▸ hr) (hinactive hzombie rfl)
    intro q hq hw
    by_cases hqp : q = p
    · subst hqp
      rw [hpx] at hq ⊢
      obtain ⟨hc,hk,hkid,hz⟩ := hself hq hw
      exact ⟨hc,hk,hkids q ⟨hkid,hz⟩⟩
    · rw [hstate q hqp] at hq ⊢
      obtain ⟨hc,hk,hkid,hz⟩ := h.waits q hq (hresume q hqp ▸ hw)
      exact ⟨hc,hk,hkids q ⟨hkid,hz⟩⟩

/-- A running process goes on in `fork`, where only the new slot `np` changes. -/
theorem Family.fork {x : Proc} {st : Stage} (h : Family s) (hother : ∀ q, q ≠ p → (s.stage q).target ≠ some np)
    (htable : s'.table = Function.update s.table np x) (hstage : s'.stage = Function.update s.stage p st)
    (hresume : ∀ q, q ≠ np → s'.resume q = s.resume q) (hp : (s.table p).state = .running)
    (hnp : (s.table np).state = .unused ∨ (s.table np).state = .embryo)
    (hx : x.state ≠ .sleeping ∧ x.state ≠ .zombie)
    (hparent : x.parent = (s.table np).parent ∨ (s.table np).parent = none ∧ x.parent = some p)
    (horphan : x.state = .unused → x.parent = none)
    (hearly : ∀ r, st = .allocated r ∨ st = .stacked r → r = np ∧ x.parent = none) : Family s' := by
  have hinactive : (s.table np).state.active = false := by
    rcases hnp with hnp | hnp
    · rw [hnp]
      rfl
    · rw [hnp]
      rfl
  have hstate : ∀ q, q ≠ np → s'.table q = s.table q := by
    intro q hq
    rw [htable,update_of_ne hq]
  have hnpx : s'.table np = x := by
    rw [htable,update_self]
  have hne : ∀ {q}, (s.table q).state.active = true → q ≠ np := by
    rintro q hq rfl
    rw [hinactive] at hq
    cases hq
  have hpnp : p ≠ np := hne (by rw [hp]; rfl)
  have hup : ∀ {q r}, (s'.table q).parent = some r → (s.table q).parent = some r ∨ q = np ∧ r = p := by
    intro q r hq
    by_cases hqnp : q = np
    · rw [hqnp,hnpx] at hq
      rcases hparent with ho | ⟨-,hn⟩
      · rw [hqnp]
        exact .inl (ho.symm.trans hq)
      · exact .inr ⟨hqnp,Option.some.inj (hq.symm.trans hn)⟩
    · rw [hstate q hqnp] at hq
      exact .inl hq
  refine ⟨?_,?_,?_,?_,?_,?_,?_⟩
  · rw [hstate _ (hne h.init)]
    exact h.init
  · rw [hstate _ (hne h.init)]
    exact h.root
  · intro q r hq
    rcases hup hq with hq | ⟨-,rfl⟩
    · have hr := h.parent q r hq
      rw [hstate r (hne hr)]
      exact hr
    · rw [hstate r hpnp,hp]
      rfl
  · intro q hq
    rcases hup hq with hq | ⟨rfl,hpq⟩
    · exact h.other q hq
    · exact hpnp hpq.symm
  · intro q hq
    by_cases hqnp : q = np
    · rw [hqnp,hnpx] at hq ⊢
      exact horphan hq
    · rw [hstate q hqnp] at hq ⊢
      exact h.orphan q hq
  · intro q r hq
    by_cases hqp : q = p
    · rw [hqp,hstage,update_self] at hq
      obtain ⟨rfl,hnone⟩ := hearly r hq
      rw [hnpx]
      exact hnone
    · rw [hstage,update_of_ne hqp] at hq
      have hr : r ≠ np := by
        rintro rfl
        refine hother q hqp ?_
        rcases hq with hq | hq
        · rw [hq]
          rfl
        · rw [hq]
          rfl
      rw [hstate r hr]
      exact h.early q r hq
  · intro q hq hw
    have hqnp : q ≠ np := by
      rintro rfl
      rw [hnpx] at hq
      exact hx.1 hq
    rw [hstate q hqnp] at hq ⊢
    obtain ⟨hc,hk,⟨r,hr⟩,hz⟩ := h.waits q hq (hresume q hqnp ▸ hw)
    have hqp : q ≠ p := by
      rintro rfl
      rw [hp] at hq
      cases hq
    refine ⟨hc,hk,⟨r,?_⟩,?_⟩
    · by_cases hrnp : r = np
      · rw [hrnp] at hr ⊢
        rw [hnpx]
        rcases hparent with ho | ⟨hn,-⟩
        · exact ho.trans hr
        · rw [hn] at hr
          cases hr
      · rw [hstate r hrnp]
        exact hr
    · intro r hr hzombie
      rcases hup hr with hr | ⟨-,hqp'⟩
      · by_cases hrnp : r = np
        · rw [hrnp,hnpx] at hzombie
          exact hx.2 hzombie
        · rw [hstate r hrnp] at hzombie
          exact hz r hr hzombie
      · exact hqp hqp'

theorem Family.reap (h : Family s) (hf : Forks s) (hp : (s.table p).state = .running)
    (hparent : (s.table q).parent = some p) (hzombie : (s.table q).state = .zombie) : Family (reap s p q) := by
  have hself : (Ptable.reap s p q).table q = { s.table q with
      kstack := none, pid := 0, parent := none, killed := false, state := .unused } := set_self
  have hstate : ∀ r, r ≠ q → (Ptable.reap s p q).table r = s.table r := fun r hr => set_of_ne hr
  have hne : ∀ {r}, (s.table r).state ≠ .zombie → r ≠ q := by
    rintro r hr rfl
    exact hr hzombie
  have hactive : ∀ {r}, (s.table r).state.active = true → r ≠ q := by
    intro r hr
    refine hne fun hz => ?_
    rw [hz] at hr
    cases hr
  have hup : ∀ {r t}, ((Ptable.reap s p q).table r).parent = some t → r ≠ q ∧ (s.table r).parent = some t := by
    intro r t hr
    have hrq : r ≠ q := by
      rintro rfl
      rw [hself] at hr
      cases hr
    rw [hstate r hrq] at hr
    exact ⟨hrq,hr⟩
  refine ⟨?_,?_,?_,?_,?_,?_,?_⟩
  · rw [hstate _ (hactive h.init)]
    exact h.init
  · rw [hstate _ (hactive h.init)]
    exact h.root
  · intro r t hr
    have ht := h.parent r t (hup hr).2
    rw [hstate t (hactive ht)]
    exact ht
  · exact fun r hr => h.other r (hup hr).2
  · intro r hr
    by_cases hrq : r = q
    · rw [hrq,hself]
    · rw [hstate r hrq] at hr ⊢
      exact h.orphan r hr
  · intro r np hr
    have hnp := hf.embryo r np (by rcases hr with hr | hr <;> rw [show s.stage r = _ from hr] <;> rfl)
    rw [hstate np (hne (by rw [hnp]; decide))]
    exact h.early r np hr
  · intro r hr hw
    have hrq : r ≠ q := by
      rintro rfl
      rw [hself] at hr
      cases hr
    rw [hstate r hrq] at hr ⊢
    obtain ⟨hc,hk,⟨t,ht⟩,hz⟩ := h.waits r hr hw
    refine ⟨hc,hk,⟨t,?_⟩,?_⟩
    · have htq : t ≠ q := by
        rintro rfl
        rw [Option.some.inj (hparent.symm.trans ht),hr] at hp
        cases hp
      rw [hstate t htq]
      exact ht
    · intro t ht
      obtain ⟨htq,ht⟩ := hup ht
      rw [hstate t htq]
      exact hz t ht

theorem exit_parent (hp : p ≠ initproc) (q : Slot) : ((exit s p).table q).parent =
    if (s.table q).parent = some p then some initproc else (s.table q).parent := by
  have hall := reparent_parent hp (wakeup1 s.table (pointer (s.table p).parent)) (List.finRange NPROC) q
  rw [wakeup1_parent] at hall
  simp only [List.mem_finRange,true_and] at hall
  by_cases hq : q = p
  · subst hq
    rw [← hall]
    simp [exit]
  · rw [exit_table hq]
    exact hall

theorem exit_sleeping (hq : q ≠ p) (h : ((exit s p).table q).state = .sleeping) : (s.table q).state = .sleeping ∧
    (s.table q).chan ≠ pointer (s.table p).parent ∧
    ((∃ r, (s.table r).parent = some p ∧ (s.table r).state = .zombie) →
      (s.table q).chan ≠ some (.proc initproc)) := by
  rw [exit_table hq] at h
  have hmid : (wakeup1 s.table (pointer (s.table p).parent) q).state = .sleeping := by
    rcases (woken_reparent _ p _ q).state with hs | ⟨hs,-⟩
    · rw [← hs]
      exact h
    · exact hs
  refine ⟨?_,wakeup1_chan hmid,?_⟩
  · rcases (woken_wakeup1 s.table (pointer (s.table p).parent) q).state with hs | ⟨hs,-⟩
    · rw [← hs]
      exact hmid
    · exact hs
  · rintro ⟨r,hr,hz⟩
    rw [← (woken_wakeup1 s.table (pointer (s.table p).parent) q).chan]
    refine reparent_zombie (List.mem_finRange r) ((wakeup1_parent ..).trans hr) ?_ h
    rw [(woken_wakeup1 _ _ r).state.eq_of_ne (by rw [hz]; decide)]
    exact hz

theorem Family.exit (h : Family s) (hinit : p ≠ initproc) :
    Family (exit s p) := by
  have hactive : ∀ {q}, q ≠ p → (s.table q).state.active = true → ((Ptable.exit s p).table q).state.active = true := by
    intro q hq ha
    rw [(woken_exit hq).state.active]
    exact ha
  have hback : ∀ {q x}, q ≠ p → ((Ptable.exit s p).table q).state = x → x ≠ .runnable → (s.table q).state = x := by
    intro q x hq hx hne
    rcases (woken_exit (s := s) hq).state with hs | ⟨-,hr⟩
    · rw [← hs]
      exact hx
    · rw [hr] at hx
      exact absurd hx.symm hne
  have hnone : ∀ {q}, (s.table q).parent = none → ((Ptable.exit s p).table q).parent = none := by
    intro q hq
    rw [exit_parent hinit,hq]
    rfl
  refine ⟨hactive (Ne.symm hinit) h.init,hnone h.root,?_,?_,?_,?_,?_⟩
  · intro q r hq
    rw [exit_parent hinit] at hq
    split at hq
    · cases hq
      exact hactive (Ne.symm hinit) h.init
    · rename_i hne
      exact hactive (fun hrp => hne (hrp ▸ hq)) (h.parent q r hq)
  · intro q hq
    rw [exit_parent hinit] at hq
    split at hq
    · rename_i hqp
      rw [← Option.some.inj hq,h.root] at hqp
      cases hqp
    · exact h.other q hq
  · intro q hq
    have hqp : q ≠ p := by
      rintro rfl
      rw [exit_self] at hq
      cases hq
    exact hnone (h.orphan q (hback hqp hq (by decide)))
  · exact fun q np hq => hnone (h.early q np hq)
  · intro q hq hw
    have hqp : q ≠ p := by
      rintro rfl
      rw [exit_self] at hq
      cases hq
    obtain ⟨hsleep,hwoken,hpassed⟩ := exit_sleeping hqp hq
    obtain ⟨hc,hk,⟨r,hr⟩,hz⟩ := h.waits q hsleep hw
    have hnot : ∀ {r}, (s.table r).parent = some q → (s.table r).parent ≠ some p :=
      fun hr hrp => hqp (Option.some.inj (hr.symm.trans hrp))
    refine ⟨(woken_exit hqp).chan.trans hc,(woken_exit hqp).killed.trans hk,⟨r,?_⟩,?_⟩
    · rw [exit_parent hinit,if_neg (hnot hr)]
      exact hr
    · intro r hr hzombie
      rw [exit_parent hinit] at hr
      split at hr
      · rename_i hrp
        cases hr
        have hrne : r ≠ p := fun he => h.other p (he ▸ hrp)
        exact hpassed ⟨r,hrp,hback hrne hzombie (by decide)⟩ hc
      · by_cases hrp : r = p
        · subst hrp
          rw [hr] at hwoken
          exact hwoken hc
        · exact hz r hr (hback hrp hzombie (by decide))

theorem Family.change (h : Family s) (hf : Forks s) (hc : Change s victim s') : Family s' := by
  have hone : ∀ {p np}, (s.stage p).target = some np →
      (s.table np).state = .embryo ∧ ∀ q, q ≠ p → (s.stage q).target ≠ some np :=
    fun hp => ⟨hf.embryo _ _ hp,fun q hq hc => hq (hf.unique _ _ _ hc hp)⟩
  cases hc with
  | same => exact h
  | dispatch p hp =>
    exact h.own rfl rfl (fun _ _ => rfl) rfl (by rw [hp]; rfl) rfl (by simp)
  | tidy p hp =>
    refine h.own rfl rfl (fun _ _ => rfl) rfl (by rw [hp]; rfl) (by rw [hp]; rfl) ?_
    rw [hp]
    simp
  | yield p hp =>
    exact h.own rfl rfl (fun q hq => update_of_ne hq ..) rfl (by rw [hp]; rfl) rfl (by simp)
  | sleep p chan hp =>
    refine h.own rfl rfl (fun q hq => update_of_ne hq ..) rfl (by rw [hp]; rfl) rfl ?_
    intro _ hw
    simp [Ptable.sleep] at hw
  | exit p hp huser hinit => exact h.exit hinit
  | wait p hp =>
    rcases wait_cases s p with ⟨q,hq,hz,hw⟩ | hw | ⟨hz,hkid,hk,hw⟩
    · rw [hw]
      exact h.reap hf hp hq hz
    · rw [hw]
      exact h
    · rw [hw]
      exact h.own rfl rfl (fun q hq => update_of_ne hq ..) rfl (by rw [hp]; rfl) rfl
        fun _ _ => ⟨rfl,hk,hkid,hz⟩
  | kill pid hpid =>
    refine h.stir rfl rfl (fun q => kill_state _ pid q) ?_ ?_ ?_
    · intro q
      rcases kill_entry s.table pid q with hq | hq
      · exact congrArg Proc.parent hq
      · exact (congrArg Proc.parent hq).trans rfl
    · intro q
      rcases kill_entry s.table pid q with hq | hq
      · exact congrArg Proc.chan hq
      · exact (congrArg Proc.chan hq).trans rfl
    · intro q hsleep
      rcases kill_entry s.table pid q with hq | hq
      · exact congrArg Proc.killed hq
      · exact absurd ((congrArg Proc.state hq).symm.trans hsleep) (marked_sleeping _)
  | wakeup chan =>
    exact h.stir rfl rfl (fun q => (woken_wakeup1 _ _ q).state) (fun q => wakeup1_parent ..)
      (fun q => (woken_wakeup1 _ _ q).chan) fun q _ => (woken_wakeup1 _ _ q).killed
  | allocproc p hp huser =>
    rcases allocproc_cases s p with hs | ⟨np,hnp,hs⟩
    · rw [hs]
      exact h
    · rw [hs]
      refine h.fork ?_ rfl rfl (fun _ _ => rfl) hp (.inl hnp) (by simp) (.inl rfl) (by simp) ?_
      · intro q _ hq
        rw [hf.embryo q np hq] at hnp
        cases hnp
      · rintro r (hr | hr)
        · cases hr
          exact ⟨rfl,h.orphan np hnp⟩
        · cases hr
  | allocstack p np ok hp hst =>
    obtain ⟨hnp,hother⟩ := hone (p := p) (by rw [hst]; rfl)
    have hnone := h.early p np (.inl hst)
    cases ok with
    | true =>
      refine h.fork hother rfl rfl (fun q hq => update_of_ne hq ..) hp (.inr hnp) (by simp [hnp]) (.inl rfl)
        (by simp [hnp]) ?_
      rintro r (hr | hr)
      · cases hr
      · cases hr
        exact ⟨rfl,hnone⟩
    | false =>
      exact h.fork hother rfl rfl (fun _ _ => rfl) hp (.inr hnp) (by simp) (.inl rfl) (fun _ => hnone) (by simp)
  | copyproc p np ok hp hst =>
    obtain ⟨hnp,hother⟩ := hone (p := p) (by rw [hst]; rfl)
    have hnone := h.early p np (.inr hst)
    cases ok with
    | true =>
      exact h.fork hother rfl rfl (fun _ _ => rfl) hp (.inr hnp) (by simp [hnp]) (.inr ⟨hnone,rfl⟩) (by simp [hnp])
        (by simp)
    | false =>
      exact h.fork hother rfl rfl (fun _ _ => rfl) hp (.inr hnp) (by simp) (.inl rfl) (fun _ => hnone) (by simp)
  | ready p np hp hst =>
    obtain ⟨hnp,hother⟩ := hone (p := p) (by rw [hst]; rfl)
    exact h.fork hother rfl rfl (fun _ _ => rfl) hp (.inr hnp) (by simp) (.inl rfl) (by simp) (by simp)

end Steps

end Xv6.Ptable
