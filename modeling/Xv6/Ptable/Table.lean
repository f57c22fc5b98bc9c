import Xv6.Param

/-! # The process table

The critical sections of `proc.c`, each a function on the table and the bookkeeping that
goes with it. Pages are named by the allocation that handed them out, so that a page that
is freed and allocated again gets a new name. What a process has left to do in `fork`,
and how it left the CPU, stands for its saved kernel context.
-/
namespace Xv6.Ptable

abbrev NPROC : ℕ := 64
abbrev Slot := Fin NPROC
abbrev Page := ℕ
abbrev PidNum := BitVec 32

inductive ProcState
  | unused
  | embryo
  | sleeping
  | runnable
  | running
  | zombie
  deriving DecidableEq

inductive Chan
  | proc (p : Slot)
  | other (n : ℕ)
  deriving DecidableEq

structure Proc where
  state : ProcState
  pid : PidNum
  parent : Option Slot
  chan : Option Chan
  killed : Bool
  kstack : Option Page
  pgdir : Option Page
  deriving DecidableEq

abbrev Table := Slot → Proc

inductive Stage
  | user
  | allocated (np : Slot)
  | stacked (np : Slot)
  | copied (np : Slot)
  deriving DecidableEq

inductive Resume
  | forkret
  | yield
  | sleep
  | wait
  deriving DecidableEq

structure Exited where
  slot : Slot
  pid : PidNum
  kstack : Option Page
  pgdir : Option Page
  deriving DecidableEq

/-- A `wait` call that has returned a process: the caller, the parent that the process had,
and the pages the call has freed. -/
structure Reaped where
  exited : Exited
  caller : Slot
  parent : Option Slot
  frees : List Page
  deriving DecidableEq

/-- The table with `nextpid` and the processes' contexts; `allocs` counts the pages handed out,
and the lists record which processes have exited, which `wait` has returned, and what failed
calls of `fork` have freed. -/
structure Procs where
  table : Table
  nextpid : PidNum
  stage : Slot → Stage
  resume : Slot → Resume
  allocs : ℕ
  exits : List Exited
  reaps : List Reaped
  forkFrees : List Page

abbrev initproc : Slot := 0

variable (s : Procs) (p : Slot)

def Procs.set (x : Proc) : Procs := { s with table := Function.update s.table p x }

section Sections

def first (f : Slot → Bool) : Option Slot := (List.finRange NPROC).find? f

def pointer (r : Option Slot) : Option Chan := r.map .proc

def wakeup1 (t : Table) (chan : Option Chan) : Table := fun p =>
  if (t p).state = .sleeping ∧ (t p).chan = chan then { t p with state := .runnable } else t p

def allocproc : Procs :=
  match first fun np => decide ((s.table np).state = .unused) with
  | none => s
  | some np => { s.set np { s.table np with state := .embryo, pid := s.nextpid } with
    nextpid := s.nextpid+1
    stage := Function.update s.stage p (.allocated np) }

def allocstack (np : Slot) (ok : Bool) : Procs :=
  if ok then { s.set np { s.table np with kstack := some s.allocs } with
    allocs := s.allocs+1
    stage := Function.update s.stage p (.stacked np)
    resume := Function.update s.resume np .forkret }
  else { s.set np { s.table np with kstack := none, state := .unused } with
    stage := Function.update s.stage p .user }

def copyproc (np : Slot) (ok : Bool) : Procs :=
  if ok then { s.set np { s.table np with pgdir := some s.allocs, parent := some p } with
    allocs := s.allocs+1
    stage := Function.update s.stage p (.copied np) }
  else { s.set np { s.table np with pgdir := none, kstack := none, state := .unused } with
    forkFrees := s.forkFrees ++ (s.table np).kstack.toList
    stage := Function.update s.stage p .user }

def ready (np : Slot) : Procs :=
  { s.set np { s.table np with state := .runnable } with stage := Function.update s.stage p .user }

def reparent (t : Table) (p : Slot) : List Slot → Table
  | [] => t
  | q :: rest =>
    if (t q).parent = some p then
      let t := Function.update t q { t q with parent := some initproc }
      reparent (if (t q).state = .zombie then wakeup1 t (pointer (some initproc)) else t) p rest
    else reparent t p rest

def exitedAs (x : Proc) : Exited := ⟨p,x.pid,x.kstack,x.pgdir⟩

def exit : Procs :=
  let t := wakeup1 s.table (pointer (s.table p).parent)
  let t := reparent t p (List.finRange NPROC)
  { s with
    table := Function.update t p { t p with state := .zombie }
    exits := s.exits ++ [exitedAs p (t p)] }

def scan (t : Table) (p : Slot) : List Slot → Bool → Option Slot × Bool
  | [],havekids => (none,havekids)
  | q :: rest,havekids =>
    if (t q).parent = some p then
      if (t q).state = .zombie then (some q,true) else scan t p rest true
    else scan t p rest havekids

def reap (q : Slot) : Procs :=
  let x := s.table q
  { s.set q { x with kstack := none, pid := 0, parent := none, killed := false, state := .unused } with
    reaps := s.reaps ++ [⟨exitedAs q x,p,x.parent,x.kstack.toList ++ x.pgdir.toList⟩] }

def sleep (chan : Chan) (resume : Resume) : Procs :=
  { s.set p { s.table p with chan := some chan, state := .sleeping } with
    resume := Function.update s.resume p resume }

def wait : Procs × Bool :=
  match scan s.table p (List.finRange NPROC) false with
  | (some q,_) => (reap s p q,true)
  | (none,havekids) =>
    if havekids = false ∨ (s.table p).killed then (s,true) else (sleep s p (.proc p) .wait,false)

def yield : Procs :=
  { s.set p { s.table p with state := .runnable } with resume := Function.update s.resume p .yield }

def dispatch : Procs := s.set p { s.table p with state := .running }

def tidy : Procs := s.set p { s.table p with chan := none }

def kill (t : Table) (pid : PidNum) : Table × Int :=
  match first fun q => decide ((t q).pid = pid) with
  | none => (t,-1)
  | some q => (Function.update t q { t q with
      killed := true
      state := if (t q).state = .sleeping then .runnable else (t q).state },0)

end Sections

def zero : Procs where
  table := fun _ => ⟨.unused,0,none,none,false,none,none⟩
  nextpid := 1
  stage := fun _ => .user
  resume := fun _ => .forkret
  allocs := 0
  exits := []
  reaps := []
  forkFrees := []

def userinit : Procs :=
  let s := allocstack (allocproc zero initproc) initproc initproc true
  let s := s.set initproc { s.table initproc with pgdir := some s.allocs, state := .runnable }
  { s with allocs := s.allocs+1, stage := fun _ => .user }

end Xv6.Ptable
