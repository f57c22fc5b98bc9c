import Xv6.Sleep.Attention

/-! # No lost signal

Every step of `sleep`, `wakeup` and the scheduler keeps the sleeping processes cared for,
so that with both locks free a sleeping process has seen the latest signalled change.
-/
namespace Xv6.Sleep
open Mutex Runs Function
variable {n : ℕ} {same : Bool} {s s' : Sys n} {p q : Fin n} {a : Action n} {b : Bool}

section Steps

theorem Attentive.stepOf (h : Attentive same s) (hl : Locks same s) (hstep : stepOf same s p b = some s') :
    Attentive same s' := by
  unfold Sleep.stepOf at hstep
  cases hp : s.phase (some p) <;> simp only [hp,reduceCtorEq] at hstep
  case locking =>
    simp only [Sleep.acquire] at hstep
    split at hstep <;> cases hstep
    exact h.locks .testing hp (by simp [Sys.at]) (by simp [Sys.at]) (by simp [Sys.at])
      (by simp [Sys.at]) (by simp [Sys.at]) (by decide) (fun _ => id) (by decide) (fun h => by cases h)
  case testing =>
    cases hstep
    have hold : s.phase (some p) ≠ .switching ∧ s.phase (some p) ≠ .asleep ∧ s.phase (some p) ≠ .wakeup := by
      rw [hp]
      decide
    have howes : ∀ {ph : Phase} (q : Fin n), (s.phase (some p)).owes q → ph.owes q := by
      rw [hp]
      exact fun _ => False.elim
    unfold Sleep.test
    split
    · exact h.step .leaving rfl rfl rfl (fun _ _ => rfl) (fun q hq => update_of_ne hq ..) hold howes
        (fun h => by cases h) (fun h => by cases h)
    · refine h.step _ rfl rfl rfl (fun _ _ => rfl) (fun q hq => update_of_ne hq ..) hold howes ?_
        (fun _ => .inl (update_self ..))
      cases same <;> (intro h; cases h)
  case leaving =>
    cases hstep
    exact h.locks .outside hp (by simp [Sys.at]) (by simp [Sys.at]) (by simp [Sys.at])
      (by simp [Sys.at]) (by simp [Sys.at]) (by decide) (fun _ => id) (by decide) (fun h => by cases h)
  case sleepCall =>
    simp only [Sleep.acquirePtable] at hstep
    split at hstep <;> cases hstep
    exact h.locks .handing hp rfl rfl rfl rfl rfl (by decide) (fun _ => id) (by decide) (fun _ => ⟨rfl,rfl⟩)
  case handing =>
    cases hstep
    exact h.locks .setChan hp rfl rfl rfl rfl rfl (by decide) (fun _ => id) (by decide) (fun _ => ⟨rfl,rfl⟩)
  case setChan =>
    cases hstep
    refine h.step .setState rfl rfl rfl (fun q hq => update_of_ne hq ..) (fun _ _ => rfl)
      (by rw [hp]; decide) (by rw [hp]; exact fun _ => False.elim) (fun _ => update_self ..) (fun _ => ?_)
    rcases (h p).commits (by rw [hp]; rfl) with hv | ⟨hlk,hu⟩
    · exact .inl hv
    · refine .inr ⟨?_,hlk,hu⟩
      rw [hp] at hlk
      exact hlk
  case setState =>
    cases hstep
    exact h.setState hp
  case switching =>
    cases hstep
    exact h.switching hl hp
  case tidying =>
    cases hstep
    refine h.step _ rfl rfl rfl (fun q hq => update_of_ne hq ..) (fun _ _ => rfl)
      (by rw [hp]; decide) (by rw [hp]; exact fun _ => False.elim) ?_ ?_
    · cases same <;> (intro h; cases h)
    · cases same <;> (intro h; cases h)
  case unlocking =>
    cases hstep
    exact h.locks .locking hp rfl rfl rfl rfl rfl (by decide) (fun _ => id) (by decide) (fun h => by cases h)
  case signal =>
    simp only [Sleep.acquire] at hstep
    split at hstep <;> cases hstep
    exact h.locks .changing hp (by simp [Sys.at]) (by simp [Sys.at]) (by simp [Sys.at])
      (by simp [Sys.at]) (by simp [Sys.at]) (by decide) (fun _ => id) (by decide) (fun h => by cases h)
  case changing =>
    cases hstep
    exact h.changing hl hp
  case wakeup =>
    simp only [Sleep.acquirePtable] at hstep
    split at hstep <;> cases hstep
    rename_i hfree
    exact h.wakeup hl hp hfree
  case waking k =>
    cases hstep
    exact h.waking hl hp
  case wakeupDone =>
    cases hstep
    exact h.locks .releasing hp rfl rfl rfl rfl rfl (by decide) (fun _ => id) (by decide) (fun h => by cases h)
  case releasing =>
    cases hstep
    exact h.locks .outside hp (by simp [Sys.at]) (by simp [Sys.at]) (by simp [Sys.at])
      (by simp [Sys.at]) (by simp [Sys.at]) (by decide) (fun _ => id) (by decide) (fun h => by cases h)

theorem Attentive.next (h : Attentive same s) (hl : Locks same s) (hstep : Step same s a s') :
    Attentive same s' := by
  cases a with
  | wait p =>
    simp only [Step,Sleep.next] at hstep
    split at hstep <;> cases hstep
    rename_i hp
    exact h.locks .locking hp rfl rfl rfl rfl rfl (by decide) (fun _ => id) (by decide) (fun h => by cases h)
  | signal p =>
    simp only [Step,Sleep.next] at hstep
    split at hstep <;> cases hstep
    rename_i hp
    exact h.locks .signal hp rfl rfl rfl rfl rfl (by decide) (fun _ => id) (by decide) (fun h => by cases h)
  | step p b => exact h.stepOf hl hstep
  | schedule =>
    simp only [Step,Sleep.next] at hstep
    split at hstep <;> cases hstep
    exact fun q => (h q).scheduler hl rfl rfl rfl rfl rfl
  | dispatch p =>
    simp only [Step,Sleep.next] at hstep
    split at hstep <;> cases hstep
    rename_i hok
    exact h.dispatch hl hok.2.1
  | release =>
    simp only [Step,Sleep.next] at hstep
    split at hstep <;> cases hstep
    exact fun q => (h q).scheduler hl rfl rfl rfl rfl rfl

end Steps

section Runs

theorem attentive_run {s₀ : Sys n} {t : List (Action n)} (h₀ : s₀.Fresh) (h : Run (Step same) s₀ t s) :
    Locks same s ∧ Attentive same s := by
  refine Run.invariant (I := fun _ s => Locks same s ∧ Attentive same s) ⟨h₀.locks,fun q => ?_⟩ ?_ h
  · refine .of_awake (h₀.phase _) ?_ nofun nofun
    rw [h₀.state]
    decide
  · rintro t u a v - ⟨hl,hc⟩ hstep
    exact ⟨hl.next hstep,hc.next hl hstep⟩

/-- When both locks are free, no process sleeps on the address whose last test of the condition
precedes the latest signalled change. -/
theorem no_lost_signal {s₀ : Sys n} {t : List (Action n)} (h₀ : s₀.Fresh) (h : Run (Step same) s₀ t s) :
    s.owner same = none → s.ptable = none →
      ∀ p, s.state p = .sleeping → s.chan p = true → ¬ s.tested p < s.version := by
  obtain ⟨hl,hc⟩ := attentive_run h₀ h
  intro hlk _ p hsleep _ hlt
  have hheld := hl.lk
  rw [hlk] at hheld
  refine hlt.ne (((hc p).asleep hsleep).resolve_right ?_)
  rintro ⟨u,hu⟩
  have hnot := hheld.free u
  rw [owes_hasLk hu] at hnot
  cases hnot

def quiet (n : ℕ) : Sys n := ⟨none,none,fun _ => .outside,false,0,fun _ => .running,fun _ => false,fun _ => 0⟩

theorem fresh_quiet : (quiet n).Fresh := ⟨rfl,rfl,fun _ => rfl,fun _ => rfl⟩

def signalAndWait : List (Action 2) :=
  [.signal 1,.step 1 false,.step 1 false,.step 1 false,.step 1 false,.step 1 false,.step 1 false,.step 1 false,
    .step 1 false,.wait 0,.step 0 false,.step 0 false,.step 0 false,.step 0 false,.step 0 false,.step 0 false,
    .step 0 false,.release]

theorem no_lost_signal_signalAndWait : ∃ s, Run (Step false) (quiet 2) signalAndWait s ∧ s.version = 1 ∧
    s.state 0 = .sleeping ∧ s.chan 0 = true ∧ ¬ s.tested 0 < s.version := by
  obtain ⟨s,hs,hlk,hptable,hversion,hsleep,hchan⟩ : ∃ s, signalAndWait.foldlM (next false) (quiet 2) = some s ∧
      s.owner false = none ∧ s.ptable = none ∧ s.version = 1 ∧ s.state 0 = .sleeping ∧ s.chan 0 = true :=
    ⟨_,rfl,rfl,rfl,rfl,rfl,rfl⟩
  have hrun := Run.of_foldlM hs
  exact ⟨s,hrun,hversion,hsleep,hchan,no_lost_signal fresh_quiet hrun hlk hptable 0 hsleep hchan⟩

end Runs

end Xv6.Sleep
