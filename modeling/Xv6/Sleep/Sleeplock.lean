import Xv6.Sleep.Signals

/-! # Sleep locks

`acquiresleep` and `releasesleep` are a waiter and a signaller of `sleep` and `wakeup`: the
condition is that the lock is free, and `lk` is the spin lock inside the sleep lock. A process
that finds the lock free takes it in the same critical section.
-/
namespace Xv6.Sleep
open Mutex Runs Function
variable {n : ℕ}

/-- The field `pid` names the process itself. `inside` tells who has come out of `acquiresleep`
with the lock and has not given it up. -/
structure Sleeplock (n : ℕ) where
  sys : Sys n
  pid : Option (Fin n)
  inside : Fin n → Bool

def Sleeplock.locked (l : Sleeplock n) : Bool := !l.sys.cond

def holdingsleep (l : Sleeplock n) (p : Fin n) : Bool := l.locked && decide (l.pid = some p)

/-- `acquiresleep` takes the lock and `releasesleep`, which only a holder calls, frees it. -/
def Sleeplock.allows (l : Sleeplock n) : Action n → Bool
  | .signal p => l.inside p
  | .step p b => b == decide (l.sys.phase (some p) = .changing)
  | _ => true

def Sleeplock.mark (l : Sleeplock n) (a : Action n) (s : Sys n) : Sleeplock n :=
  match a with
  | .step p _ =>
    if l.sys.phase (some p) = .testing ∧ l.sys.cond = true then ⟨s,some p,update l.inside p true⟩
    else if l.sys.phase (some p) = .changing then ⟨s,none,update l.inside p false⟩
    else ⟨s,l.pid,l.inside⟩
  | _ => ⟨s,l.pid,l.inside⟩

def Sleeplock.next (l : Sleeplock n) (a : Action n) : Option (Sleeplock n) :=
  if l.allows a then (Sleep.next false l.sys a).map (l.mark a) else none

def initsleeplock (n : ℕ) : Sleeplock n := ⟨{ quiet n with cond := true },none,fun _ => false⟩

section Steps
variable {s s' : Sys n} {a : Action n} {l l' : Sleeplock n}

/-- The process has found the lock taken and is on its way to sleep, or asleep. -/
def Phase.refused : Phase → Bool
  | .sleepCall => true
  | .handing => true
  | .setChan => true
  | .setState => true
  | .switching => true
  | .asleep => true
  | _ => false

/-- The process is about to free the lock. -/
def Phase.gives : Phase → Bool
  | .signal => true
  | .changing => true
  | _ => false

/-- The records agree, and a process that was refused since the lock was last freed was so
because it is taken. -/
structure Sleeplock.Sound (l : Sleeplock n) : Prop where
  free : l.sys.cond = true ↔ l.pid = none
  inside : ∀ p, l.inside p = true ↔ l.pid = some p
  gives : ∀ p, (l.sys.phase (some p)).gives = true → l.pid = some p
  tested : ∀ p, l.sys.tested p ≤ l.sys.version
  refused : ∀ p, (l.sys.phase (some p)).refused = true → l.sys.tested p = l.sys.version → l.sys.cond = false

theorem Sleeplock.Sound.plain (h : l.Sound) (hcond : s'.cond = l.sys.cond) (hversion : s'.version = l.sys.version)
    (htested : s'.tested = l.sys.tested)
    (hrefused : ∀ q, (s'.phase (some q)).refused = true → (l.sys.phase (some q)).refused = true)
    (hgives : ∀ q, (s'.phase (some q)).gives = true → (l.sys.phase (some q)).gives = true ∨ l.inside q = true) :
    Sleeplock.Sound ⟨s',l.pid,l.inside⟩ := by
  refine ⟨by rw [hcond]; exact h.free,h.inside,fun q hq => ?_,fun q => ?_,fun q hq => ?_⟩
  · exact (hgives q hq).elim (h.gives q) (h.inside q).mp
  · rw [htested,hversion]
    exact h.tested q
  · rw [htested,hversion,hcond]
    exact h.refused q (hrefused q hq)

/-- A process that finds the lock free has it from now on. -/
theorem Sleeplock.Sound.test (h : l.Sound) {p : Fin n} (hp : l.sys.phase (some p) = .testing) :
    (l.mark (.step p false) (test false l.sys p false)).Sound := by
  obtain ⟨hfree,hin,hgive,htest,hrefused⟩ := h
  cases hc : l.sys.cond <;> simp only [Sleeplock.mark,Sleep.test,hp,hc,Sys.at,and_self,and_false,Bool.false_eq_true,
    reduceCtorEq,↓reduceIte] <;> constructor <;> grind [Phase.gives,update_apply]

/-- Whoever was refused before has not seen the change. -/
theorem Sleeplock.Sound.change (h : l.Sound) {p : Fin n} (hp : l.sys.phase (some p) = .changing) :
    (l.mark (.step p true) { l.sys.at (some p) .wakeup with cond := true, version := l.sys.version+1 }).Sound := by
  have hpid := h.gives p (by rw [hp]; rfl)
  obtain ⟨hfree,hin,hgive,htest,hrefused⟩ := h
  simp only [Sleeplock.mark,hp,Sys.at,reduceCtorEq,false_and,↓reduceIte]
  constructor <;> grind [Phase.gives,update_apply]

theorem Sleeplock.Sound.next (h : l.Sound) (hstep : l.next a = some l') : l'.Sound := by
  unfold Sleeplock.next at hstep
  split at hstep
  case isFalse => cases hstep
  rename_i hallow
  obtain ⟨s',hs,rfl⟩ := Option.map_eq_some_iff.mp hstep
  cases a with
  | step p b =>
    simp only [Sleep.next,stepOf] at hs
    cases hp : l.sys.phase (some p) <;> simp only [hp,reduceCtorEq] at hs
    case testing =>
      cases hs
      rw [show b = false by simpa [Sleeplock.allows,hp] using hallow]
      exact h.test hp
    case changing =>
      cases hs
      rw [show b = true by simpa [Sleeplock.allows,hp] using hallow]
      exact h.change hp
    all_goals
      simp only [Sleeplock.mark,hp,reduceCtorEq,false_and,↓reduceIte]
      try simp only [acquire,acquirePtable,wakeup1] at hs
      try split at hs
      all_goals cases hs
      all_goals
        refine h.plain (by rfl) (by rfl) (by rfl) (fun q => ?_) (fun q => ?_) <;> by_cases hq : q = p <;>
          simp +contextual [hq,hp,Sys.at,Sys.setOwner,Phase.refused,Phase.gives]
  | _ =>
    simp only [Sleep.next] at hs
    split at hs <;> cases hs
    refine h.plain (by rfl) (by rfl) (by rfl) (fun q => ?_) (fun q => ?_) <;>
      simp only [Sys.at,Sleep.dispatch,update_apply] <;> grind [Phase.refused,Phase.gives,Sleeplock.allows]

/-- At most one process has the lock, `holdingsleep` tells which, and when the lock is free and
nobody is inside its spin lock, no process sleeps for it. -/
theorem sleeplock_excludes {t : List (Action n)}
    (h : Run (fun l a l' => Sleeplock.next l a = some l') (initsleeplock n) t l) :
    (∀ p q, l.inside p = true → l.inside q = true → p = q) ∧ (∀ p, holdingsleep l p = l.inside p) ∧
      (l.sys.lk = none → l.locked = false → ∀ p, l.sys.state p ≠ .sleeping) := by
  have hinv : Run (Step false) (initsleeplock n).sys t l.sys ∧ l.Sound := by
    refine Run.invariant (I := fun t l => Run (Step false) (initsleeplock n).sys t l.sys ∧ l.Sound) ⟨.nil,?_⟩ ?_ h
    · constructor <;> simp [initsleeplock,quiet,Phase.gives,Phase.refused]
    · rintro t u a v - ⟨hrun,hu⟩ hstep
      refine ⟨hrun.snoc ?_,hu.next hstep⟩
      unfold Sleeplock.next at hstep
      split at hstep
      · obtain ⟨s',hs,rfl⟩ := Option.map_eq_some_iff.mp hstep
        cases a with
        | step p b =>
          simp only [Sleeplock.mark]
          repeat' split
          all_goals exact hs
        | _ => exact hs
      · cases hstep
  obtain ⟨hrun,hs⟩ := hinv
  obtain ⟨hl,hc⟩ := attentive_run ⟨rfl,rfl,fun _ => rfl,fun _ => rfl⟩ hrun
  refine ⟨fun p q hp hq => ?_,fun p => ?_,fun hlk hfree p hp => ?_⟩
  · exact Option.some.inj (((hs.inside p).mp hp).symm.trans ((hs.inside q).mp hq))
  · have hfree := hs.free
    rw [Bool.eq_iff_iff,hs.inside p]
    unfold holdingsleep Sleeplock.locked
    grind
  · have hheld := hl.other rfl
    rw [hlk] at hheld
    have hseen : l.sys.tested p = l.sys.version := by
      refine ((hc p).asleep hp).resolve_right ?_
      rintro ⟨u,hu⟩
      simpa [owes_hasLk hu] using hheld.free u
    have hphase : (l.sys.phase (some p)).refused = true := by
      rcases (hc p).awake hp with he | he <;> rw [he] <;> rfl
    have := hs.refused p hphase hseen
    simp [Sleeplock.locked,this] at hfree

end Steps

/-- Process 1 sleeps until process 0 has given up the lock. -/
def contend : List (Action 2) :=
  [.wait 0,.step 0 false,.step 0 false,.step 0 false,.wait 1,.step 1 false,.step 1 false,.step 1 false,.step 1 false,
    .step 1 false,.step 1 false,.step 1 false,.release,.signal 0,.step 0 false,.step 0 true,.step 0 false,
    .step 0 false,.step 0 false,.step 0 false,.step 0 false,.step 0 false]

theorem sleeplock_excludes_contend : ∃ l, Run (fun l a l' => Sleeplock.next l a = some l') (initsleeplock 2) contend l ∧
    holdingsleep l 0 = false ∧ l.sys.state 1 ≠ .sleeping := by
  obtain ⟨l,hl,hin,hlk,hfree⟩ : ∃ l, contend.foldlM Sleeplock.next (initsleeplock 2) = some l ∧ l.inside 0 = false ∧
      l.sys.lk = none ∧ l.locked = false := ⟨_,rfl,rfl,rfl,rfl⟩
  have hrun := Run.of_foldlM hl
  obtain ⟨-,hholding,hawake⟩ := sleeplock_excludes hrun
  exact ⟨l,hrun,(hholding 0).trans hin,hawake hlk hfree 1⟩

end Xv6.Sleep
