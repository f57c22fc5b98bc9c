import Xv6.Param
import Xv6.Library.NodePool
import Xv6.Library.Runs

/-! # The disk driver

Processes queue up buffers and sleep; the interrupt handler takes the finished request off
the queue and starts the next one. The lock of the driver makes each stretch of a process
between two sleeps, and each interrupt, one step. The disk works on one command and raises
one interrupt for it.
-/
namespace Xv6.Ide
open NodePool Runs

abbrev BufNo := Fin NBUF
abbrev Pid := ℕ

structure Buf where
  blockno : ℕ
  valid : Bool
  dirty : Bool
  qnext : Option BufNo

def Buf.clean (b : Buf) : Bool := b.valid && !b.dirty

inductive Cmd
  | read
  | write
  deriving DecidableEq

def cmdOf (dirty : Bool) : Cmd := if dirty then .write else .read

structure Command where
  buf : BufNo
  cmd : Cmd
  finished : Bool
  deriving DecidableEq

/-- A process outside of `iderw`, or asleep in it; then with the buffer, whether it was dirty at
the call, and how many commands for it had completed before. -/
inductive Phase
  | idle
  | waiting (b : BufNo) (dirty : Bool) (before : ℕ)
  deriving DecidableEq

/-- The driver with the disk and the processes. `overrun` records that a command was given while
another one was in progress; `enqueued` and `completed` are the history. -/
structure Sys where
  buf : BufNo → Buf
  idequeue : Option BufNo
  disk : Option Command
  overrun : Bool
  holder : BufNo → Option Pid
  phase : Pid → Phase
  enqueued : List BufNo
  completed : List (BufNo × Cmd)

def Sys.qnext (s : Sys) (b : BufNo) : Option BufNo := (s.buf b).qnext

/-- Give the command for a buffer to the disk; `none` is the panic about its block number. -/
def idestart (s : Sys) (b : BufNo) : Option Sys :=
  if FSSIZE ≤ (s.buf b).blockno then none
  else some { s with
    disk := some ⟨b,cmdOf (s.buf b).dirty,false⟩
    overrun := s.overrun || s.disk.isSome }

def Sys.setQnext (s : Sys) (b : BufNo) (q : Option BufNo) : Sys :=
  { s with buf := Function.update s.buf b { s.buf b with qnext := q } }

def append (s : Sys) (b : BufNo) : Sys :=
  let s := s.setQnext b none
  match s.idequeue with
  | none => { s with idequeue := some b }
  | some j => s.setQnext (last s.qnext NBUF j) (some b)

def Sys.commands (s : Sys) (b : BufNo) : List Cmd := (s.completed.filter fun x => x.1 = b).map Prod.snd

def iderw (s : Sys) (p : Pid) (b : BufNo) : Option Sys :=
  let t := append s b
  let t := { t with
    enqueued := t.enqueued ++ [b]
    phase := Function.update t.phase p (.waiting b (s.buf b).dirty (s.commands b).length) }
  if t.idequeue = some b then idestart t b else some t

def recheck (s : Sys) (p : Pid) : Option Sys :=
  match s.phase p with
  | .idle => none
  | .waiting b _ _ => some (if (s.buf b).clean then { s with phase := Function.update s.phase p .idle } else s)

def ideintr (s : Sys) (c : Command) : Option Sys :=
  match s.idequeue with
  | none => some { s with disk := none }
  | some b =>
    let t := { s with
      disk := none
      idequeue := (s.buf b).qnext
      buf := Function.update s.buf b { s.buf b with valid := true, dirty := false }
      completed := s.completed ++ [(c.buf,c.cmd)] }
    match t.idequeue with
    | none => some t
    | some j => idestart t j

/-- Steps of the processes, of the disk and of the interrupt. Between two calls the process that has
locked a buffer may set its flags and its block number. -/
inductive Action
  | lock (p : Pid) (b : BufNo)
  | unlock (p : Pid) (b : BufNo)
  | assign (p : Pid) (b : BufNo) (blockno : ℕ) (valid dirty : Bool)
  | iderw (p : Pid) (b : BufNo)
  | recheck (p : Pid)
  | finish
  | ideintr

def Sys.owns (s : Sys) (p : Pid) (b : BufNo) : Bool := decide (s.holder b = some p) && decide (s.phase p = .idle)

def next (s : Sys) : Action → Option Sys
  | .lock p b => if s.holder b = none then some { s with holder := Function.update s.holder b (some p) } else none
  | .unlock p b => if s.owns p b then some { s with holder := Function.update s.holder b none } else none
  | .assign p b blockno valid dirty =>
    if s.owns p b then some { s with buf := Function.update s.buf b { s.buf b with blockno, valid, dirty } } else none
  | .iderw p b => if s.owns p b = true ∧ (s.buf b).clean = false then iderw s p b else none
  | .recheck p => recheck s p
  | .finish => match s.disk with
    | some c => if c.finished then none else some { s with disk := some { c with finished := true } }
    | none => none
  | .ideintr => match s.disk with
    | some c => if c.finished then ideintr s c else none
    | none => none

def Step (s : Sys) (a : Action) (t : Sys) : Prop := next s a = some t

def boot (buf : BufNo → Buf) : Sys where
  buf := buf
  idequeue := none
  disk := none
  overrun := false
  holder _ := none
  phase _ := .idle
  enqueued := []
  completed := []

end Xv6.Ide
