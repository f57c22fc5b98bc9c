import Xv6.Sleep.System

/-! # The locks of sleep and wakeup

Each lock is with the threads whose phase says so. In particular the change of the
condition and the calls of `wakeup` that follow it are exclusive, and a process that
prepares to sleep has `lk` or `ptable.lock` all the time.
-/
namespace Xv6.Sleep
open Mutex Runs Function
variable {n : ℕ} {same : Bool} {s s' : Sys n} {p q : Fin n} {t : Thread n} {ph old : Phase} {a : Action n} {b : Bool}

section Invariant

def Phase.hasLk (same : Bool) : Phase → Bool
  | .outside => false
  | .locking => false
  | .asleep => false
  | .signal => false
  | .setChan => same
  | .setState => same
  | .switching => same
  | .tidying => same
  | .unlocking => same
  | .scheduling => same
  | _ => true

def Phase.hasPtable (same : Bool) : Phase → Bool
  | .outside => false
  | .locking => false
  | .asleep => false
  | .signal => false
  | .testing => same
  | .leaving => same
  | .sleepCall => same
  | .changing => same
  | .wakeup => same
  | .releasing => same
  | _ => true

structure Locks (same : Bool) (s : Sys n) : Prop where
  lk : Held (Phase.hasLk same) s.phase (s.owner same)
  ptable : Held (Phase.hasPtable same) s.phase s.ptable
  done : ∀ t, s.phase t = .wakeupDone → same = false
  scheduler : s.phase none = .outside ∨ s.phase none = .scheduling

theorem Phase.hasLk_same (ph : Phase) : ph.hasLk true = ph.hasPtable true := by
  cases ph <;> rfl

structure Places (same : Bool) (phase : Thread n → Phase) : Prop where
  done : ∀ t, phase t = .wakeupDone → same = false
  scheduler : phase none = .outside ∨ phase none = .scheduling

theorem Locks.places (h : Locks same s) : Places same s.phase := ⟨h.done,h.scheduler⟩

theorem Places.move {phase : Thread n → Phase} (h : Places same phase) (t : Thread n) (ph : Phase) (hdone : ph = .wakeupDone → same = false)
    (hnone : t = none → ph = .outside ∨ ph = .scheduling) : Places same (Function.update phase t ph) := by
  refine ⟨fun u hu => ?_,?_⟩
  · by_cases he : u = t
    · subst he
      rw [update_self] at hu
      exact hdone hu
    · rw [update_of_ne he] at hu
      exact h.done u hu
  · by_cases he : none = t
    · rw [← he,update_self]
      exact hnone he.symm
    · rw [update_of_ne he]
      exact h.scheduler

/-- With two locks, each is looked at by itself; with one, `ptable.lock` is enough. -/
theorem Locks.of_places (hplaces : Places same s.phase)
    (hlk : same = false → Held (Phase.hasLk same) s.phase s.lk)
    (hptable : Held (Phase.hasPtable same) s.phase s.ptable) : Locks same s := by
  refine ⟨?_,hptable,hplaces.done,hplaces.scheduler⟩
  cases same with
  | true =>
    intro t
    rw [Phase.hasLk_same]
    exact hptable t
  | false => exact hlk rfl

theorem Locks.other (h : Locks same s) (hsame : same = false) : Held (Phase.hasLk same) s.phase s.lk := by
  subst hsame
  exact h.lk

theorem Locks.stay (h : Locks same s) (hp : s.phase (some p) = old) (ph : Phase)
    (hphase : s'.phase = Function.update s.phase (some p) ph)
    (howner : s'.lk = s.lk) (hptable : s'.ptable = s.ptable)
    (hlk : ph.hasLk same = old.hasLk same) (hpt : ph.hasPtable same = old.hasPtable same)
    (hdone : ph = .wakeupDone → same = false) : Locks same s' := by
  subst hp
  refine .of_places ?_ (fun hsame => ?_) ?_
  · rw [hphase]
    exact h.places.move _ _ hdone nofun
  · rw [hphase,howner]
    exact (h.other hsame).stay hlk
  · rw [hphase,hptable]
    exact h.ptable.stay hpt

end Invariant

section Steps

theorem Locks.acquire (h : Locks same s) (hp : s.phase (some p) = old) (ph : Phase) (hpt : old.hasPtable same = false)
    (hnew : ph.hasLk same = true) (hnewpt : ph.hasPtable same = same) (hdone : ph ≠ .wakeupDone)
    (hstep : acquire same s p ph = some s') : Locks same s' := by
  subst hp
  unfold Sleep.acquire at hstep
  split at hstep
  · rename_i hfree
    cases hstep
    have hplaces := h.places.move (some p) ph (fun he => absurd he hdone) nofun
    cases same with
    | true =>
      have hptable := h.ptable
      rw [show s.ptable = none from hfree] at hptable
      exact .of_places hplaces nofun (hptable.acquire hnewpt)
    | false =>
      have hlk := h.lk
      rw [hfree] at hlk
      exact .of_places hplaces (fun _ => hlk.acquire hnew) (h.ptable.stay (hnewpt.trans hpt.symm))
  · cases hstep

theorem Locks.release (h : Locks same s) (hp : s.phase (some p) = old) (hold : old.hasLk same = true)
    (hpt : old.hasPtable same = same) : Locks same ((s.at (some p) .outside).setOwner same none) := by
  subst hp
  have hplaces := h.places.move (some p) .outside nofun nofun
  cases same with
  | true => exact .of_places hplaces nofun (h.ptable.release hpt rfl)
  | false => exact .of_places hplaces (fun _ => h.lk.release hold rfl) (h.ptable.stay hpt.symm)

theorem Locks.acquirePtable (h : Locks same s) (hp : s.phase (some p) = old) (ph : Phase)
    (hlk : ph.hasLk same = old.hasLk same) (hnew : ph.hasPtable same = true) (hdone : ph ≠ .wakeupDone)
    (hstep : acquirePtable s p ph = some s') : Locks same s' := by
  subst hp
  unfold Sleep.acquirePtable at hstep
  split at hstep
  · rename_i hfree
    cases hstep
    have hptable := h.ptable
    rw [hfree] at hptable
    exact .of_places (h.places.move (some p) ph (fun he => absurd he hdone) nofun) (fun hsame => (h.other hsame).stay hlk)
      (hptable.acquire hnew)
  · cases hstep

theorem Locks.releasePtable (h : Locks same s) (hp : s.phase (some p) = old) (ph : Phase)
    (hlk : ph.hasLk false = old.hasLk false) (hold : old.hasPtable same = true) (hnew : ph.hasPtable same = false) (hdone : ph ≠ .wakeupDone) :
    Locks same { s.at (some p) ph with ptable := none } := by
  subst hp
  refine .of_places (h.places.move (some p) ph (fun he => absurd he hdone) nofun) (fun hsame => ?_) (h.ptable.release hold hnew)
  subst hsame
  exact h.lk.stay hlk

theorem Locks.pass (h : Locks same s) {t u : Thread n} {x y : Phase} (hut : u ≠ t)
    (hphase : s'.phase = Function.update (Function.update s.phase t x) u y)
    (hptable : s'.ptable = some u) (hlk : s'.lk = s.lk) (hx : x = .asleep ∨ x = .outside)
    (hy : y.hasPtable same = true ∧ y.hasLk same = same) (hplaces : Places same s'.phase)
    (ht : (s.phase t).hasPtable same = true) (htlk : (s.phase t).hasLk same = same)
    (hulk : (s.phase u).hasLk same = false) : Locks same s' := by
  have hxp : x.hasPtable same = false ∧ x.hasLk same = false := by
    rcases hx with rfl | rfl
    · exact ⟨rfl,rfl⟩
    · exact ⟨rfl,rfl⟩
  refine .of_places hplaces (fun hsame => ?_) ?_
  · subst hsame
    rw [hphase,hlk]
    refine (h.lk.stay (hxp.2.trans htlk.symm)).stay ?_
    rw [update_of_ne hut,hulk]
    exact hy.2
  · rw [hphase,hptable]
    exact (h.ptable.release ht hxp.1).acquire hy.1

theorem Locks.stepOf (h : Locks same s) (hstep : stepOf same s p b = some s') : Locks same s' := by
  unfold Sleep.stepOf at hstep
  have hdone := h.done (some p)
  cases hp : s.phase (some p) <;> simp only [hp,reduceCtorEq] at hstep
  case locking =>
    exact h.acquire hp .testing rfl rfl rfl (by decide) hstep
  case testing =>
    cases hstep
    unfold Sleep.test
    split
    · exact h.stay hp .leaving rfl rfl rfl rfl rfl nofun
    · cases same with
      | true => exact h.stay hp .setChan rfl rfl rfl rfl rfl nofun
      | false => exact h.stay hp .sleepCall rfl rfl rfl rfl rfl nofun
  case leaving =>
    cases hstep
    exact h.release hp rfl rfl
  case sleepCall =>
    exact h.acquirePtable hp .handing rfl rfl (by decide) hstep
  case handing =>
    cases hstep
    refine .of_places (h.places.move (some p) .setChan nofun nofun) (fun hsame => ?_) (h.ptable.stay (by rw [hp]; rfl))
    subst hsame
    exact h.lk.release (by rw [hp]; rfl) rfl
  case setChan =>
    cases hstep
    exact h.stay hp .setState rfl rfl rfl rfl rfl nofun
  case setState =>
    cases hstep
    exact h.stay hp .switching rfl rfl rfl rfl rfl nofun
  case switching =>
    cases hstep
    have hnone : s.phase none = .outside := by
      refine h.scheduler.resolve_right fun hs => ?_
      have := h.ptable.eq (p := none) (q := some p) (by rw [hs]; rfl) (by rw [hp]; rfl)
      cases this
    refine h.pass (t := some p) (u := none) nofun rfl rfl rfl (.inl rfl) ⟨rfl,rfl⟩ ?_ (by rw [hp]; rfl) (by rw [hp]; rfl)
      (by rw [hnone]; rfl)
    exact (h.places.move (some p) .asleep nofun nofun).move none .scheduling nofun fun _ => .inr rfl
  case tidying =>
    cases hstep
    cases same with
    | true => exact h.stay hp .testing rfl rfl rfl rfl rfl nofun
    | false => exact h.stay hp .unlocking rfl rfl rfl rfl rfl nofun
  case unlocking =>
    cases hstep
    exact h.releasePtable hp .locking rfl rfl rfl (by decide)
  case signal =>
    exact h.acquire hp .changing rfl rfl rfl (by decide) hstep
  case changing =>
    cases hstep
    cases same with
    | true => exact h.stay hp (.waking 0) rfl rfl rfl rfl rfl nofun
    | false => exact h.stay hp .wakeup rfl rfl rfl rfl rfl nofun
  case wakeup =>
    exact h.acquirePtable hp (.waking 0) rfl rfl (by simp) hstep
  case waking k =>
    cases hstep
    unfold Sleep.wakeup1
    split
    · exact h.stay hp (.waking (k+1)) rfl rfl rfl rfl rfl nofun
    · cases same with
      | true => exact h.stay hp .releasing rfl rfl rfl rfl rfl nofun
      | false => exact h.stay hp .wakeupDone rfl rfl rfl rfl rfl fun _ => rfl
  case wakeupDone =>
    cases hstep
    have hsame := hdone hp
    subst hsame
    exact h.releasePtable hp .releasing rfl rfl rfl (by decide)
  case releasing =>
    cases hstep
    exact h.release hp rfl rfl

theorem Locks.next (h : Locks same s) (hstep : Step same s a s') : Locks same s' := by
  cases a with
  | wait p =>
    simp only [Step,Sleep.next] at hstep
    split at hstep <;> cases hstep
    rename_i hp
    exact h.stay hp .locking rfl rfl rfl rfl rfl nofun
  | signal p =>
    simp only [Step,Sleep.next] at hstep
    split at hstep <;> cases hstep
    rename_i hp
    exact h.stay hp .signal rfl rfl rfl rfl rfl nofun
  | step p b => exact h.stepOf hstep
  | schedule =>
    simp only [Step,Sleep.next] at hstep
    split at hstep <;> cases hstep
    rename_i hfree
    have hptable := h.ptable
    rw [hfree] at hptable
    have hnone : s.phase none = .outside := by
      refine h.scheduler.resolve_right fun hs => ?_
      have := hptable.free none
      rw [hs] at this
      cases this
    refine .of_places (h.places.move none .scheduling nofun fun _ => .inr rfl) (fun hsame => ?_) (hptable.acquire rfl)
    subst hsame
    exact h.lk.stay (by rw [hnone]; rfl)
  | dispatch p =>
    simp only [Step,Sleep.next] at hstep
    split at hstep <;> cases hstep
    rename_i hok
    refine h.pass (t := none) (u := some p) nofun rfl rfl rfl (.inr rfl) ⟨rfl,rfl⟩ ?_ (by rw [hok.1]; rfl)
      (by rw [hok.1]; rfl) (by rw [hok.2.1]; rfl)
    exact (h.places.move none .outside nofun fun _ => .inl rfl).move (some p) .tidying nofun nofun
  | release =>
    simp only [Step,Sleep.next] at hstep
    split at hstep <;> cases hstep
    rename_i hs
    refine .of_places (h.places.move none .outside nofun fun _ => .inl rfl) (fun hsame => ?_)
      (h.ptable.release (by rw [hs]; rfl) rfl)
    subst hsame
    exact h.lk.stay (by rw [hs]; rfl)

theorem Sys.Fresh.locks (h : s.Fresh) : Locks same s := by
  refine .of_places ⟨?_,.inl (h.phase none)⟩ (fun _ => ?_) ?_
  · intro t ht
    rw [h.phase t] at ht
    cases ht
  · intro t
    simp [h.phase t,h.lk,Phase.hasLk]
  · intro t
    simp [h.phase t,h.ptable,Phase.hasPtable]

end Steps

end Xv6.Sleep
