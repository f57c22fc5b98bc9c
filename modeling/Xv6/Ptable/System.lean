import Xv6.Library.Mutex
import Xv6.Library.Runs
import Xv6.Ptable.Table

/-! # CPUs and the scheduler

Any number of CPUs run the scheduler and the processes it picks. `ptable.lock` is held by
a CPU: the scheduler takes it and the process that it switches to releases it, and the
other way round. A CPU that does not need the lock moves on at any time.
-/
namespace Xv6.Ptable
open Mutex Runs

abbrev Cpu := ℕ

inductive Op
  | yield
  | sleep (chan : Chan)
  | exit
  | wait
  | kill (pid : PidNum)
  | wakeup (chan : Chan)
  | allocproc
  | ready (np : Slot)
  deriving DecidableEq

/-- What a CPU executes. `chosen` has set `c->proc` only, `resumed` has switched to the process,
`leaving` is on its way back from `sched` to the scheduler. -/
inductive Mode
  | idle
  | scan (k : ℕ)
  | chosen
  | resumed
  | running
  | locked (op : Op)
  | leaving
  deriving DecidableEq

def Mode.holds : Mode → Bool
  | .idle => false
  | .running => false
  | _ => true

structure Sys where
  procs : Procs
  lock : Option Cpu
  mode : Cpu → Mode
  proc : Cpu → Option Slot

variable (s : Sys) (c : Cpu)

def Sys.go (mode : Mode) (lock : Option Cpu) (procs : Procs) : Sys :=
  { s with mode := Function.update s.mode c mode, lock, procs }

section Steps

def schedule (k : ℕ) : Sys :=
  if h : k < NPROC then
    if (s.procs.table ⟨k,h⟩).state = .runnable then
      { s.go c .chosen s.lock s.procs with proc := Function.update s.proc c (some ⟨k,h⟩) }
    else s.go c (.scan (k+1)) s.lock s.procs
  else s.go c .idle none s.procs

def resume (p : Slot) : Sys :=
  match s.procs.resume p with
  | .forkret => s.go c .running none s.procs
  | .yield => s.go c .running none s.procs
  | .sleep => s.go c .running none (tidy s.procs p)
  | .wait => s.go c (.locked .wait) s.lock (tidy s.procs p)

def perform (p : Slot) : Op → Sys
  | .yield => s.go c .leaving s.lock (yield s.procs p)
  | .sleep chan => s.go c .leaving s.lock (sleep s.procs p chan .sleep)
  | .exit => s.go c .leaving s.lock (exit s.procs p)
  | .wait => match wait s.procs p with
    | (procs,true) => s.go c .running none procs
    | (procs,false) => s.go c .leaving s.lock procs
  | .kill pid => s.go c .running none { s.procs with table := (kill s.procs.table pid).1 }
  | .wakeup chan => s.go c .running none { s.procs with table := wakeup1 s.procs.table (some chan) }
  | .allocproc => s.go c .running none (allocproc s.procs p)
  | .ready np => s.go c .running none (ready s.procs p np)

def stepOf : Option Sys :=
  match s.mode c,s.proc c with
  | .idle,_ => if s.lock = none then some (s.go c (.scan 0) (some c) s.procs) else none
  | .scan k,_ => some (schedule s c k)
  | .chosen,some p => some (s.go c .resumed s.lock (dispatch s.procs p))
  | .resumed,some p => some (resume s c p)
  | .locked op,some p => some (perform s c p op)
  | .locked (.wakeup chan),none =>
    some (s.go c .idle none { s.procs with table := wakeup1 s.procs.table (some chan) })
  | .leaving,some p => some { s.go c (.scan (p+1)) s.lock s.procs with proc := Function.update s.proc c none }
  | _,_ => none

/-- `fork`, `wait` and `exit` are called from user space; `exit` by `initproc` panics. -/
def callable (stage : Stage) (p : Slot) : Op → Bool
  | .exit => decide (stage = .user) && decide (p ≠ initproc)
  | .wait => decide (stage = .user)
  | .allocproc => decide (stage = .user)
  | .ready np => decide (stage = .copied np)
  | _ => true

def call (op : Op) : Option Sys :=
  match s.mode c,s.proc c with
  | .running,some p =>
    if s.lock = none ∧ callable (s.procs.stage p) p op then some (s.go c (.locked op) (some c) s.procs) else none
  | _,_ => none

def build (ok : Bool) : Option Sys :=
  match s.mode c,s.proc c with
  | .running,some p => match s.procs.stage p with
    | .allocated np => some (s.go c .running s.lock (allocstack s.procs p np ok))
    | .stacked np => some (s.go c .running s.lock (copyproc s.procs p np ok))
    | _ => none
  | _,_ => none

inductive Action
  | step (c : Cpu)
  | call (c : Cpu) (op : Op)
  | interrupt (c : Cpu) (chan : Chan)
  | build (c : Cpu) (ok : Bool)
  deriving DecidableEq

def Action.cpu : Action → Cpu
  | .step c => c
  | .call c _ => c
  | .interrupt c _ => c
  | .build c _ => c

def next : Action → Option Sys
  | .step c => stepOf s c
  | .call c op => call s c op
  | .interrupt c chan =>
    if s.mode c = .idle ∧ s.lock = none then some (s.go c (.locked (.wakeup chan)) (some c) s.procs) else none
  | .build c ok => build s c ok

end Steps

def Step (s : Sys) (a : Action) (s' : Sys) : Prop := next s a = some s'

def boot : Sys := ⟨userinit,none,fun _ => .idle,fun _ => none⟩

end Xv6.Ptable
