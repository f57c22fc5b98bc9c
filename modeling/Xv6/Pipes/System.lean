import Xv6.Library.RingBuffer
import Xv6.Library.Runs
import Xv6.Param

/-! # Pipes

The calls on one pipe, step by step. A process holds `p->lock` between its calls of
`acquire` and `release` or `sleep`; `wakeup`, `kill` and the end of `sleep` take
`ptable.lock` as well. In between, the steps of all processes interleave freely.
-/
namespace Xv6.Pipes
open RingBuffer Runs

abbrev Byte := BitVec 8
abbrev Word := BitVec 32
abbrev Pid := ℕ

abbrev PIPESIZE : ℕ := 512

structure Pipe where
  data : Fin PIPESIZE → Byte
  nread : Word
  nwrite : Word
  readopen : Bool
  writeopen : Bool

def Pipe.empty (p : Pipe) : Prop := p.nread = p.nwrite
def Pipe.full (p : Pipe) : Prop := p.nwrite = p.nread+512

instance (p : Pipe) : Decidable p.empty := inferInstanceAs (Decidable (_ = _))
instance (p : Pipe) : Decidable p.full := inferInstanceAs (Decidable (_ = _))

inductive Chan
  | nread
  | nwrite
  deriving DecidableEq

inductive Point
  | write (rest : List Byte)
  | writeSleep (rest : List Byte)
  | read (n : ℕ)
  | copy (n : ℕ)
  | close (writable : Bool)
  | closed
  | leave
  deriving DecidableEq

inductive Phase
  | outside
  | acquire (k : Point)
  | holds (k : Point)
  | wakeup (c : Chan) (k : Point)
  | waking (c : Chan) (k : Point)
  | sleep (c : Chan) (k : Point)
  | handing (c : Chan) (k : Point)
  | settling (c : Chan) (k : Point)
  | asleep (c : Chan) (k : Point)
  | woken (k : Point)
  | resumed (k : Point)
  deriving DecidableEq

/-- The pipe, the owners of the two locks and the processes; `stored` and `delivered` record the
bytes that writes and reads have moved. -/
structure Sys where
  pipe : Pipe
  freed : Bool
  lock : Option Pid
  ptable : Option Pid
  phase : Pid → Phase
  killed : Pid → Bool
  stored : List Byte
  delivered : List Byte

def Sys.at (s : Sys) (p : Pid) (ph : Phase) : Sys := { s with phase := Function.update s.phase p ph }

section Steps

def pipewrite (s : Sys) (p : Pid) : List Byte → Sys
  | [] => s.at p (.wakeup .nread .leave)
  | b :: rest =>
    if s.pipe.full then
      if s.pipe.readopen = false ∨ s.killed p then s.at p (.holds .leave)
      else s.at p (.wakeup .nread (.writeSleep (b :: rest)))
    else { s.at p (.holds (.write rest)) with
      pipe := { s.pipe with
        data := Function.update s.pipe.data (place PIPESIZE s.pipe.nwrite) b
        nwrite := s.pipe.nwrite+1 }
      stored := s.stored ++ [b] }

def piperead (s : Sys) (p : Pid) (n : ℕ) : Sys :=
  if s.pipe.empty ∧ s.pipe.writeopen then
    if s.killed p then s.at p (.holds .leave) else s.at p (.sleep .nread (.read n))
  else s.at p (.holds (.copy n))

def pipecopy (s : Sys) (p : Pid) : ℕ → Sys
  | 0 => s.at p (.wakeup .nwrite .leave)
  | n+1 =>
    if s.pipe.empty then s.at p (.wakeup .nwrite .leave)
    else { s.at p (.holds (.copy n)) with
      pipe := { s.pipe with nread := s.pipe.nread+1 }
      delivered := s.delivered ++ [s.pipe.data (place PIPESIZE s.pipe.nread)] }

def pipeclose (s : Sys) (p : Pid) (writable : Bool) : Sys :=
  if writable then { s.at p (.wakeup .nread .closed) with pipe := { s.pipe with writeopen := false } }
  else { s.at p (.wakeup .nwrite .closed) with pipe := { s.pipe with readopen := false } }

def advance (s : Sys) (p : Pid) : Point → Sys
  | .write rest => pipewrite s p rest
  | .writeSleep rest => s.at p (.sleep .nwrite (.write rest))
  | .read n => piperead s p n
  | .copy n => pipecopy s p n
  | .close writable => pipeclose s p writable
  | .closed =>
    if s.pipe.readopen = false ∧ s.pipe.writeopen = false then
      { s.at p .outside with lock := none, freed := true }
    else s.at p (.holds .leave)
  | .leave => { s.at p .outside with lock := none }

def wake (c : Chan) : Phase → Phase
  | .asleep d k => if d = c then .woken k else .asleep d k
  | ph => ph

def wakeup1 (s : Sys) (c : Chan) : Sys := { s with phase := fun p => wake c (s.phase p) }

inductive Action
  | write (p : Pid) (bytes : List Byte)
  | read (p : Pid) (n : ℕ)
  | close (p : Pid) (writable : Bool)
  | kill (p : Pid)
  | step (p : Pid)
  deriving DecidableEq

def call (s : Sys) (p : Pid) (k : Point) : Option Sys :=
  if s.phase p = .outside then some (s.at p (.acquire k)) else none

def kill (s : Sys) (p : Pid) : Sys := { s with
  killed := Function.update s.killed p true
  phase := Function.update s.phase p (match s.phase p with
    | .asleep _ k => .woken k
    | ph => ph) }

def stepOf (s : Sys) (p : Pid) : Option Sys :=
  match s.phase p with
  | .outside => none
  | .acquire k =>
    if s.lock = none ∧ s.freed = false then some { s.at p (.holds k) with lock := some p } else none
  | .holds k => some (advance s p k)
  | .wakeup c k =>
    if s.ptable = none then some { s.at p (.waking c k) with ptable := some p } else none
  | .waking c k => some { (wakeup1 s c).at p (.holds k) with ptable := none }
  | .sleep c k =>
    if s.ptable = none then some { s.at p (.handing c k) with ptable := some p } else none
  | .handing c k => some { s.at p (.settling c k) with lock := none }
  | .settling c k => some { s.at p (.asleep c k) with ptable := none }
  | .asleep _ _ => none
  | .woken k => if s.ptable = none then some { s.at p (.resumed k) with ptable := some p } else none
  | .resumed k => some { s.at p (.acquire k) with ptable := none }

def next (s : Sys) : Action → Option Sys
  | .write p bytes => call s p (.write bytes)
  | .read p n => call s p (.read n)
  | .close p writable => call s p (.close writable)
  | .kill p => if s.ptable = none then some (kill s p) else none
  | .step p => stepOf s p

end Steps

structure Sys.Fresh (s : Sys) : Prop where
  nread : s.pipe.nread = 0
  nwrite : s.pipe.nwrite = 0
  lock : s.lock = none
  ptable : s.ptable = none
  phase : ∀ p, s.phase p = .outside
  stored : s.stored = []
  delivered : s.delivered = []

def Step (s : Sys) (a : Action) (s' : Sys) : Prop := next s a = some s'

end Xv6.Pipes
