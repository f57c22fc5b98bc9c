import Xv6.Sleep.Locks

/-! # Processes that are cared for

A process that sleeps, or is about to, has seen the latest signalled change in its last
test, or the process that signalled the change has yet to wake it. In `sleep` the locks
overlap: `lk` is given up only when `ptable.lock` is held, so a signal that the test has
missed finds the process asleep.
-/
namespace Xv6.Sleep
open Mutex Runs Function
variable {n : ℕ} {same : Bool} {s s' : Sys n} {p q : Fin n} {t : Thread n} {ph : Phase} {a : Action n} {b : Bool}

section Invariant

def Phase.commits : Phase → Bool
  | .sleepCall => true
  | .handing => true
  | .setChan => true
  | .setState => true
  | _ => false

def Phase.owes (q : Fin n) : Phase → Prop
  | .wakeup => True
  | .waking k => k ≤ q
  | _ => False

structure Cared (same : Bool) (s : Sys n) (q : Fin n) : Prop where
  awake : s.state q = .sleeping → s.phase (some q) = .switching ∨ s.phase (some q) = .asleep
  chan : s.state q = .sleeping ∨ s.phase (some q) = .setState → s.chan q = true
  commits : (s.phase (some q)).commits = true → s.tested q = s.version ∨
    (s.phase (some q)).hasLk same = false ∧ ∃ t, s.phase t = .wakeup
  asleep : s.state q = .sleeping → s.tested q = s.version ∨ ∃ t, (s.phase t).owes q

def Attentive (same : Bool) (s : Sys n) : Prop := ∀ q, Cared same s q

theorem Cared.keep (h : Cared same s q) (hphase : s'.phase (some q) = s.phase (some q)) (hstate : s'.state q = s.state q)
    (hchan : s'.chan q = s.chan q) (htested : s'.tested q = s.tested q)
    (hcommits : (s.phase (some q)).commits = true → (s.tested q = s.version ∨
      (s.phase (some q)).hasLk same = false ∧ ∃ t, s.phase t = .wakeup) → s.tested q = s'.version ∨
      (s.phase (some q)).hasLk same = false ∧ ∃ t, s'.phase t = .wakeup)
    (hasleep : s.state q = .sleeping → (s.tested q = s.version ∨ ∃ t, (s.phase t).owes q) →
      s.tested q = s'.version ∨ ∃ t, (s'.phase t).owes q) : Cared same s' q := by
  refine ⟨?_,?_,?_,?_⟩
  · rw [hphase,hstate]
    exact h.awake
  · rw [hphase,hstate,hchan]
    exact h.chan
  · rw [hphase,htested]
    exact fun hc => hcommits hc (h.commits hc)
  · rw [hstate,htested]
    exact fun hs => hasleep hs (h.asleep hs)

/-- A thread moves on that has nobody to wake, or goes on to wake. -/
theorem Cared.move (h : Cared same s q) (hphase : s'.phase = Function.update s.phase t ph) (hq : some q ≠ t)
    (hversion : s'.version = s.version) (hstate : s'.state q = s.state q) (hchan : s'.chan q = s.chan q)
    (htested : s'.tested q = s.tested q) (hwakeup : s.phase t ≠ .wakeup)
    (howes : (s.phase t).owes q → ph.owes q) : Cared same s' q := by
  refine h.keep (by rw [hphase,update_of_ne hq]) hstate hchan htested ?_ ?_
  · rintro - (hv | ⟨hlk,u,hu⟩)
    · exact .inl (hv.trans hversion.symm)
    · refine .inr ⟨hlk,u,?_⟩
      have hut : u ≠ t := by
        rintro rfl
        exact hwakeup hu
      rw [hphase,update_of_ne hut]
      exact hu
  · rintro - (hv | ⟨u,hu⟩)
    · exact .inl (hv.trans hversion.symm)
    · refine .inr ⟨u,?_⟩
      rw [hphase]
      by_cases hut : u = t
      · subst hut
        rw [update_self]
        exact howes hu
      · rw [update_of_ne hut]
        exact hu

/-- A process is awake and, if it is on its way to sleep, has seen the latest change. -/
theorem Cared.of_awake (hphase : s'.phase (some q) = ph) (hstate : s'.state q ≠ .sleeping)
    (hset : ph = .setState → s'.chan q = true)
    (hcommits : ph.commits = true → s'.tested q = s'.version ∨ ph.hasLk same = false ∧ ∃ t, s'.phase t = .wakeup) :
    Cared same s' q := by
  refine ⟨fun hs => absurd hs hstate,?_,?_,fun hs => absurd hs hstate⟩
  · rintro (hs | hs)
    · exact absurd hs hstate
    · exact hset (hphase.symm.trans hs)
  · rw [hphase]
    exact hcommits

end Invariant

section Steps

theorem Cared.not_sleeping (h : Cared same s q) (hswitching : s.phase (some q) ≠ .switching)
    (hasleep : s.phase (some q) ≠ .asleep) : s.state q ≠ .sleeping :=
  fun hs => (h.awake hs).elim hswitching hasleep

/-- A process that is awake goes on without a change of the condition. -/
theorem Attentive.step (h : Attentive same s) (ph : Phase) (hphase : s'.phase = Function.update s.phase (some p) ph)
    (hversion : s'.version = s.version) (hstate : s'.state = s.state) (hchan : ∀ q, q ≠ p → s'.chan q = s.chan q)
    (htested : ∀ q, q ≠ p → s'.tested q = s.tested q)
    (hold : s.phase (some p) ≠ .switching ∧ s.phase (some p) ≠ .asleep ∧ s.phase (some p) ≠ .wakeup)
    (howes : ∀ q : Fin n, (s.phase (some p)).owes q → ph.owes q) (hset : ph = .setState → s'.chan p = true)
    (hcommits : ph.commits = true → s'.tested p = s'.version ∨
      ph.hasLk same = false ∧ (s.phase (some p)).hasLk same = false ∧ ∃ t, s.phase t = .wakeup) :
    Attentive same s' := by
  intro q
  by_cases hq : q = p
  · subst hq
    have hself : s'.phase (some q) = ph := by
      rw [hphase,update_self]
    refine .of_awake hself ?_ hset ?_
    · rw [hstate]
      exact (h q).not_sleeping hold.1 hold.2.1
    · intro hc
      rcases hcommits hc with hv | ⟨hlk,-,u,hu⟩
      · exact .inl hv
      · refine .inr ⟨hlk,u,?_⟩
        have huq : u ≠ some q := by
          rintro rfl
          exact hold.2.2 hu
        rw [hphase,update_of_ne huq]
        exact hu
  · exact (h q).move hphase (fun he => hq (Option.some.inj he)) hversion (by rw [hstate]) (hchan q hq) (htested q hq)
      hold.2.2 (howes q)

@[simp] theorem setOwner_phase (o : Option (Thread n)) : (s.setOwner same o).phase = s.phase := by
  cases same <;> rfl

@[simp] theorem setOwner_version (o : Option (Thread n)) : (s.setOwner same o).version = s.version := by
  cases same <;> rfl

@[simp] theorem setOwner_state (o : Option (Thread n)) : (s.setOwner same o).state = s.state := by
  cases same <;> rfl

@[simp] theorem setOwner_chan (o : Option (Thread n)) : (s.setOwner same o).chan = s.chan := by
  cases same <;> rfl

@[simp] theorem setOwner_tested (o : Option (Thread n)) : (s.setOwner same o).tested = s.tested := by
  cases same <;> rfl

theorem Attentive.locks {old : Phase} (h : Attentive same s) (ph : Phase) (hp : s.phase (some p) = old)
    (hphase : s'.phase = Function.update s.phase (some p) ph) (hversion : s'.version = s.version)
    (hstate : s'.state = s.state) (hchan : s'.chan = s.chan) (htested : s'.tested = s.tested)
    (hold : old ≠ .switching ∧ old ≠ .asleep ∧ old ≠ .wakeup) (howes : ∀ q : Fin n, ¬ old.owes q) (hset : ph ≠ .setState)
    (hcommits : ph.commits = true → old.commits = true ∧ old.hasLk same = true) : Attentive same s' := by
  refine h.step ph hphase hversion hstate (fun q _ => by rw [hchan]) (fun q _ => by rw [htested]) (hp ▸ hold)
    (fun q ho => absurd (hp ▸ ho) (howes q)) (fun he => absurd he hset) (fun hc => .inl ?_)
  obtain ⟨hc,hlk⟩ := hcommits hc
  rw [htested,hversion]
  refine ((h p).commits (hp ▸ hc)).resolve_right fun hr => ?_
  rw [hp,hlk] at hr
  cases hr.1

theorem owes_hasLk (h : ph.owes q) : ph.hasLk same = true := by
  cases ph with
  | wakeup => rfl
  | waking k => rfl
  | _ => cases h

theorem Locks.scheduler_owes (h : Locks same s) (q : Fin n) : s.phase none ≠ .wakeup ∧ ¬ (s.phase none).owes q := by
  rcases h.scheduler with hs | hs
  · rw [hs]
    exact ⟨by decide,id⟩
  · rw [hs]
    exact ⟨by decide,id⟩

theorem Cared.scheduler (h : Cared same s q) (hl : Locks same s) (hphase : s'.phase = Function.update s.phase none ph)
    (hversion : s'.version = s.version) (hstate : s'.state = s.state) (hchan : s'.chan = s.chan)
    (htested : s'.tested = s.tested) : Cared same s' q :=
  h.move hphase nofun hversion (by rw [hstate]) (by rw [hchan]) (by rw [htested]) (hl.scheduler_owes q).1
    fun ho => absurd ho (hl.scheduler_owes q).2

theorem Attentive.setState (h : Attentive same s) (hp : s.phase (some p) = .setState) :
    Attentive same { s.at (some p) .switching with state := Function.update s.state p .sleeping } := by
  intro q
  by_cases hq : q = p
  · subst hq
    refine ⟨fun _ => .inl (update_self ..),fun _ => (h q).chan (.inr hp),?_,fun _ => ?_⟩
    · intro hc
      simp only [Sys.at,update_self] at hc
      cases hc
    · rcases (h q).commits (by rw [hp]; rfl) with hv | ⟨-,u,hu⟩
      · exact .inl hv
      · have huq : u ≠ some q := by
          rintro rfl
          rw [hp] at hu
          cases hu
        refine .inr ⟨u,?_⟩
        simp only [Sys.at,update_of_ne huq,hu]
        trivial
  · exact (h q).move rfl (fun he => hq (Option.some.inj he)) rfl (update_of_ne hq ..) rfl rfl (by simp [hp])
      (by rw [hp]; exact False.elim)

theorem Attentive.switching (h : Attentive same s) (hl : Locks same s) (hp : s.phase (some p) = .switching) :
    Attentive same { (s.at (some p) .asleep).at none .scheduling with ptable := some none } := by
  intro q
  have hmid : Cared same (s.at (some p) .asleep) q := by
    by_cases hq : q = p
    · subst hq
      have hphase : (s.at (some q) .asleep).phase (some q) = .asleep := update_self ..
      refine ⟨fun _ => .inr hphase,?_,?_,?_⟩
      · rw [hphase]
        exact fun hs => (h q).chan (.inl (hs.resolve_right (by decide)))
      · rw [hphase]
        nofun
      · intro hs
        rcases (h q).asleep hs with hv | ⟨u,hu⟩
        · exact .inl hv
        · have huq : u ≠ some q := by
            rintro rfl
            rw [hp] at hu
            exact hu
          refine .inr ⟨u,?_⟩
          simp only [Sys.at,update_of_ne huq]
          exact hu
    · exact (h q).move rfl (fun he => hq (Option.some.inj he)) rfl rfl rfl rfl (by simp [hp])
        (by rw [hp]; exact False.elim)
  have hnone : (s.at (some p) .asleep).phase none = s.phase none := by
    simp [Sys.at]
  refine hmid.move rfl nofun rfl rfl rfl rfl ?_ ?_
  · rw [hnone]
    exact (hl.scheduler_owes q).1
  · rw [hnone]
    exact fun ho => absurd ho (hl.scheduler_owes q).2

/-- The change of the condition is signalled to everybody who sleeps. -/
theorem Attentive.changing (h : Attentive same s) (hl : Locks same s) (hp : s.phase (some p) = .changing) :
    Attentive same { s.at (some p) (if same then .waking 0 else .wakeup) with cond := b, version := s.version+1 } := by
  intro q
  have hself : (update s.phase (some p) (if same then .waking 0 else .wakeup)) (some p) =
      if same then .waking 0 else .wakeup := update_self ..
  by_cases hq : q = p
  · subst hq
    refine .of_awake hself ((h q).not_sleeping (by rw [hp]; decide) (by rw [hp]; decide)) ?_ ?_
    · cases same <;> nofun
    · cases same <;> nofun
  · have hne : some q ≠ some p := fun he => hq (Option.some.inj he)
    refine (h q).keep (update_of_ne hne ..) rfl rfl rfl ?_ ?_
    · intro hc _
      have hlk : (s.phase (some q)).hasLk same = false :=
        Bool.eq_false_iff.mpr fun hh => hne (hl.lk.eq hh (by rw [hp]; rfl))
      cases same with
      | true =>
        cases hph : s.phase (some q) with
        | sleepCall => rw [hph] at hlk; cases hlk
        | handing => rw [hph] at hlk; cases hlk
        | setChan => rw [hph] at hlk; cases hlk
        | setState => rw [hph] at hlk; cases hlk
        | _ => rw [hph] at hc; cases hc
      | false => exact .inr ⟨hlk,some p,hself⟩
    · refine fun _ _ => .inr ⟨some p,?_⟩
      simp only [Sys.at,hself]
      cases same with
      | true => exact Nat.zero_le _
      | false => trivial

/-- A process on its way to sleep that has given up `lk` has `ptable.lock`. -/
theorem commits_hasPtable (h : ph.commits = true) (hlk : ph.hasLk same = false) : ph.hasPtable same = true := by
  cases ph with
  | sleepCall => cases hlk
  | handing => rfl
  | setChan => rfl
  | setState => rfl
  | _ => cases h

theorem Attentive.wakeup (h : Attentive same s) (hl : Locks same s) (hp : s.phase (some p) = .wakeup)
    (hfree : s.ptable = none) :
    Attentive same { s.at (some p) (.waking 0) with ptable := some (some p) } := by
  intro q
  by_cases hq : q = p
  · subst hq
    exact .of_awake (update_self ..) ((h q).not_sleeping (by rw [hp]; decide) (by rw [hp]; decide)) nofun nofun
  · have hne : some q ≠ some p := fun he => hq (Option.some.inj he)
    refine (h q).keep (update_of_ne hne ..) rfl rfl rfl ?_ ?_
    · rintro hc (hv | ⟨hlk,-⟩)
      · exact .inl hv
      · have hptable := hl.ptable
        rw [hfree] at hptable
        have hnot := hptable.free (some q)
        rw [commits_hasPtable hc hlk] at hnot
        cases hnot
    · refine fun _ _ => .inr ⟨some p,?_⟩
      simp only [Sys.at,update_self]
      exact Nat.zero_le _

theorem Attentive.waking (h : Attentive same s) (hl : Locks same s) {k : ℕ} (hp : s.phase (some p) = .waking k) :
    Attentive same (wakeup1 same s p k) := by
  intro q
  have hawake := (h p).not_sleeping (by rw [hp]; nofun) (by rw [hp]; nofun)
  unfold wakeup1
  split
  · rename_i hk
    have hsleep : ∀ q, (if s.state ⟨k,hk⟩ = .sleeping ∧ s.chan ⟨k,hk⟩ then update s.state ⟨k,hk⟩ .runnable
        else s.state) q = .sleeping → s.state q = .sleeping ∧ q ≠ ⟨k,hk⟩ := by
      intro q hs
      split at hs
      · have hq : q ≠ ⟨k,hk⟩ := by
          rintro rfl
          rw [update_self] at hs
          cases hs
        rw [update_of_ne hq] at hs
        exact ⟨hs,hq⟩
      · rename_i hnot
        refine ⟨hs,?_⟩
        rintro rfl
        exact hnot ⟨hs,(h _).chan (.inl hs)⟩
    by_cases hq : q = p
    · subst hq
      exact .of_awake (update_self ..) (fun hs => hawake (hsleep q hs).1) nofun nofun
    · have hne : some q ≠ some p := fun he => hq (Option.some.inj he)
      have hphase : (update s.phase (some p) (.waking (k+1))) (some q) = s.phase (some q) :=
        update_of_ne hne ..
      refine ⟨?_,?_,?_,?_⟩
      · intro hs
        simp only [Sys.at,hphase]
        exact (h q).awake (hsleep q hs).1
      · simp only [Sys.at,hphase]
        exact fun hs => (h q).chan (hs.imp_left fun hs => (hsleep q hs).1)
      · simp only [Sys.at,hphase]
        intro hc
        rcases (h q).commits hc with hv | ⟨hlk,u,hu⟩
        · exact .inl hv
        · have hup : u = some p := hl.lk.eq (by rw [hu]; rfl) (by rw [hp]; rfl)
          rw [hup,hp] at hu
          cases hu
      · intro hs
        obtain ⟨hs,hqk⟩ := hsleep q hs
        rcases (h q).asleep hs with hv | ⟨u,hu⟩
        · exact .inl hv
        · have hup : u = some p := hl.lk.eq (owes_hasLk hu) (by rw [hp]; rfl)
          rw [hup,hp] at hu
          refine .inr ⟨some p,?_⟩
          simp only [Sys.at,update_self]
          exact lt_of_le_of_ne hu fun he => hqk (Fin.ext he.symm)
  · rename_i hk
    have hself : (s.at (some p) (if same then .releasing else .wakeupDone)).phase (some p) =
        if same then .releasing else .wakeupDone := update_self ..
    by_cases hq : q = p
    · subst hq
      refine .of_awake hself hawake ?_ ?_
      · cases same <;> nofun
      · cases same <;> nofun
    · have hne : some q ≠ some p := fun he => hq (Option.some.inj he)
      refine (h q).keep (update_of_ne hne ..) rfl rfl rfl ?_ ?_
      · rintro - (hv | ⟨hlk,u,hu⟩)
        · exact .inl hv
        · have hup : u = some p := hl.lk.eq (by rw [hu]; rfl) (by rw [hp]; rfl)
          rw [hup,hp] at hu
          cases hu
      · rintro - (hv | ⟨u,hu⟩)
        · exact .inl hv
        · have hup : u = some p := hl.lk.eq (owes_hasLk hu) (by rw [hp]; rfl)
          rw [hup,hp] at hu
          exact absurd (hu.trans_lt q.isLt) hk

theorem Attentive.dispatch (h : Attentive same s) (hl : Locks same s) (hp : s.phase (some p) = .asleep) :
    Attentive same (dispatch s p) := by
  intro q
  by_cases hq : q = p
  · subst hq
    refine .of_awake (update_self ..) ?_ nofun nofun
    simp [Sleep.dispatch]
  · have hne : some q ≠ some p := fun he => hq (Option.some.inj he)
    have hmid : Cared same (s.at none .outside) q := (h q).scheduler hl rfl rfl rfl rfl rfl
    have hsome : (s.at none .outside).phase (some p) = .asleep := by
      simp [Sys.at,hp]
    exact hmid.move rfl hne rfl (update_of_ne hq ..) rfl rfl (by rw [hsome]; decide)
      (by rw [hsome]; exact False.elim)

end Steps

end Xv6.Sleep
