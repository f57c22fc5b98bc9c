import Xv6.Library.Mutex
import Xv6.Library.Runs
import Xv6.Param

/-! # Sleep and wakeup

Processes that wait for a condition and processes that signal it, in the single steps of
`sleep`, `wakeup` and `wakeup1`. The condition is protected by `lk`, which is
`ptable.lock` itself or another lock. The scheduler is the thread without a number: a
process that goes to sleep hands it `ptable.lock`, and gets the lock back when it is
chosen again.
-/
namespace Xv6.Sleep
open Mutex Runs

inductive ProcState
  | sleeping
  | runnable
  | running
  deriving DecidableEq

inductive Phase
  | outside
  | locking
  | testing
  | leaving
  | sleepCall
  | handing
  | setChan
  | setState
  | switching
  | asleep
  | tidying
  | unlocking
  | signal
  | changing
  | wakeup
  | waking (k : ℕ)
  | wakeupDone
  | releasing
  | scheduling
  deriving DecidableEq

variable {n : ℕ}

abbrev Thread (n : ℕ) := Option (Fin n)

/-- The owners of `lk` and `ptable.lock`, the condition with the number of signalled changes so far,
and for each process its state, whether it has `chan` set, and the changes its last test has seen. -/
structure Sys (n : ℕ) where
  lk : Option (Thread n)
  ptable : Option (Thread n)
  phase : Thread n → Phase
  cond : Bool
  version : ℕ
  state : Fin n → ProcState
  chan : Fin n → Bool
  tested : Fin n → ℕ

section Steps
variable (same : Bool) (s : Sys n) (p : Fin n)

def Sys.at (t : Thread n) (ph : Phase) : Sys n := { s with phase := Function.update s.phase t ph }

def Sys.owner : Option (Thread n) := if same then s.ptable else s.lk

def Sys.setOwner (o : Option (Thread n)) : Sys n := if same then { s with ptable := o } else { s with lk := o }

def acquire (ph : Phase) : Option (Sys n) :=
  if s.owner same = none then some ((s.at (some p) ph).setOwner same (some (some p))) else none

def acquirePtable (ph : Phase) : Option (Sys n) :=
  if s.ptable = none then some { s.at (some p) ph with ptable := some (some p) } else none

/-- A round of a waiter's loop: the test, and `sleep` if the condition is false. A waiter that goes on
may change the condition without a signal. -/
def test (b : Bool) : Sys n :=
  if s.cond then { s.at (some p) .leaving with tested := Function.update s.tested p s.version, cond := b }
  else { s.at (some p) (if same then .setChan else .sleepCall) with tested := Function.update s.tested p s.version }

def wakeup1 (k : ℕ) : Sys n :=
  if h : k < n then { s.at (some p) (.waking (k+1)) with
    state := if s.state ⟨k,h⟩ = .sleeping ∧ s.chan ⟨k,h⟩ then Function.update s.state ⟨k,h⟩ .runnable else s.state }
  else s.at (some p) (if same then .releasing else .wakeupDone)

/-- The next step of a process; `b` is what it makes of the condition if it changes it. -/
def stepOf (b : Bool) : Option (Sys n) :=
  match s.phase (some p) with
  | .locking => acquire same s p .testing
  | .testing => some (test same s p b)
  | .leaving => some ((s.at (some p) .outside).setOwner same none)
  | .sleepCall => acquirePtable s p .handing
  | .handing => some { s.at (some p) .setChan with lk := none }
  | .setChan => some { s.at (some p) .setState with chan := Function.update s.chan p true }
  | .setState => some { s.at (some p) .switching with state := Function.update s.state p .sleeping }
  | .switching => some { (s.at (some p) .asleep).at none .scheduling with ptable := some none }
  | .tidying => some { s.at (some p) (if same then .testing else .unlocking) with chan := Function.update s.chan p false }
  | .unlocking => some { s.at (some p) .locking with ptable := none }
  | .signal => acquire same s p .changing
  | .changing => some { s.at (some p) (if same then .waking 0 else .wakeup) with cond := b, version := s.version+1 }
  | .wakeup => acquirePtable s p (.waking 0)
  | .waking k => some (wakeup1 same s p k)
  | .wakeupDone => some { s.at (some p) .releasing with ptable := none }
  | .releasing => some ((s.at (some p) .outside).setOwner same none)
  | _ => none

def dispatch : Sys n := { (s.at none .outside).at (some p) .tidying with
  ptable := some (some p)
  state := Function.update s.state p .running }

inductive Action (n : ℕ)
  | wait (p : Fin n)
  | signal (p : Fin n)
  | step (p : Fin n) (b : Bool)
  | schedule
  | dispatch (p : Fin n)
  | release
  deriving DecidableEq

def next : Action n → Option (Sys n)
  | .wait p => if s.phase (some p) = .outside then some (s.at (some p) .locking) else none
  | .signal p => if s.phase (some p) = .outside then some (s.at (some p) .signal) else none
  | .step p b => stepOf same s p b
  | .schedule => if s.ptable = none then some { s.at none .scheduling with ptable := some none } else none
  | .dispatch p =>
    if s.phase none = .scheduling ∧ s.phase (some p) = .asleep ∧ s.state p = .runnable then some (dispatch s p) else none
  | .release => if s.phase none = .scheduling then some { s.at none .outside with ptable := none } else none

end Steps

structure Sys.Fresh (s : Sys n) : Prop where
  lk : s.lk = none
  ptable : s.ptable = none
  phase : ∀ t, s.phase t = .outside
  state : ∀ p, s.state p = .running

def Step (same : Bool) (s : Sys n) (a : Action n) (s' : Sys n) : Prop := next same s a = some s'

end Xv6.Sleep
