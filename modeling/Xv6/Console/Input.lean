import Xv6.Library.RingBuffer
import Xv6.Library.Runs

/-! # The console input

Characters arrive in the interrupt handler and wait in a ring until a reader takes them.
The ring has three free-running indices: up to `w` the characters are committed, up to
`e` they can still be edited. The lock of the console makes each interrupt, and each
stretch of a reader between two sleeps, one step.
-/
namespace Xv6.Console
open RingBuffer Runs

abbrev INPUT_BUF : ℕ := 128
abbrev Pid := ℕ

structure Input where
  buf : Fin INPUT_BUF → UInt8
  r : BitVec 32
  w : BitVec 32
  e : BitVec 32

def ctrl (x : Char) : UInt8 := x.toNat.toUInt8-64

def newline : UInt8 := 10
def carriageReturn : UInt8 := 13
def delete : UInt8 := 0x7f

abbrev EOF : UInt8 := ctrl 'D'

def Input.at (s : Input) (i : BitVec 32) : UInt8 := s.buf (place INPUT_BUF i)

def killLine : ℕ → Input → Input
  | 0, s => s
  | fuel + 1, s =>
    if s.e ≠ s.w ∧ s.at (s.e-1) ≠ newline then killLine fuel { s with e := s.e-1 } else s

def backspace (s : Input) : Input := if s.e ≠ s.w then { s with e := s.e-1 } else s

def insert (c : UInt8) (s : Input) : Input :=
  if c ≠ 0 ∧ (s.e-s.r).toNat < INPUT_BUF then
    let c := if c = carriageReturn then newline else c
    let s := { s with buf := Function.update s.buf (place INPUT_BUF s.e) c, e := s.e+1 }
    if c = newline ∨ c = EOF ∨ s.e = s.r+BitVec.ofNat 32 INPUT_BUF then { s with w := s.e } else s
  else s

def key (s : Input) (c : UInt8) : Input :=
  if c = ctrl 'P' then s
  else if c = ctrl 'U' then killLine (s.e-s.w).toNat s
  else if c = ctrl 'H' ∨ c = delete then backspace s
  else insert c s

def consoleintr (cs : List UInt8) (s : Input) : Input := cs.foldl key s

inductive Stop
  | newline
  | limit
  /-- at an end-of-file character that the read takes -/
  | eof
  /-- at an end-of-file character that is left for the next read -/
  | held
  | killed
  deriving DecidableEq

structure Reader where
  target : ℕ
  n : ℕ
  got : List UInt8
  deriving DecidableEq

/-- What a reader does until it sleeps or returns: the characters that it takes out of the
ring, where it stands, and how it ends unless it goes to sleep. -/
structure Section where
  input : Input
  taken : List UInt8
  reader : Reader
  stop : Option Stop

def consoleread (killed : Bool) (target : ℕ) : ℕ → Input → List UInt8 → List UInt8 → Section
  | 0, s, got, taken => ⟨s,taken,⟨target,0,got⟩,some .limit⟩
  | n + 1, s, got, taken =>
    if s.r = s.w then ⟨s,taken,⟨target,n+1,got⟩,if killed then some .killed else none⟩
    else
      let c := s.at s.r
      let s := { s with r := s.r+1 }
      if c = EOF then
        if n+1 < target then ⟨{ s with r := s.r-1 },taken,⟨target,n+1,got⟩,some .held⟩
        else ⟨s,taken ++ [c],⟨target,n+1,got⟩,some .eof⟩
      else if c = newline then ⟨s,taken ++ [c],⟨target,n,got ++ [c]⟩,some .newline⟩
      else consoleread killed target n s (got ++ [c]) (taken ++ [c])

structure Read where
  pid : Pid
  target : ℕ
  got : List UInt8
  stop : Stop
  deriving DecidableEq

/-- The console with its readers, and the history: the characters whose index has come below
`w`, the characters that left the ring with the readers who took them, and the finished reads. -/
structure Sys where
  input : Input
  reader : Pid → Option Reader
  committed : List UInt8
  taken : List (Pid × UInt8)
  reads : List Read

inductive Action
  | intr (cs : List UInt8)
  | read (p : Pid) (n : ℕ) (killed : Bool)
  | wake (p : Pid) (killed : Bool)

def Input.between (s : Input) (i j : BitVec 32) : List UInt8 :=
  (List.range (j-i).toNat).map fun k => s.at (i+BitVec.ofNat 32 k)

def Sys.key (s : Sys) (c : UInt8) : Sys :=
  let input := Console.key s.input c
  { s with input, committed := s.committed ++ input.between s.input.w input.w }

def Sys.settle (s : Sys) (p : Pid) (sec : Section) : Sys :=
  { s with
    input := sec.input
    taken := s.taken ++ sec.taken.map fun c => (p,c)
    reader := Function.update s.reader p (if sec.stop.isSome then none else some sec.reader)
    reads := s.reads ++ (sec.stop.map fun stop => ⟨p,sec.reader.target,sec.reader.got,stop⟩).toList }

def Sys.advance (s : Sys) (p : Pid) (v : Reader) (killed : Bool) : Sys :=
  s.settle p (consoleread killed v.target v.n s.input v.got [])

def next (s : Sys) : Action → Option Sys
  | .intr cs => some (cs.foldl Sys.key s)
  | .read p n killed => match s.reader p with
    | none => some (s.advance p ⟨n,n,[]⟩ killed)
    | some _ => none
  | .wake p killed => match s.reader p with
    | none => none
    | some v => some (s.advance p v killed)

def Step (s : Sys) (a : Action) (t : Sys) : Prop := next s a = some t

def boot (buf : Fin INPUT_BUF → UInt8) : Sys where
  input := ⟨buf,0,0,0⟩
  reader _ := none
  committed := []
  taken := []
  reads := []

theorem foldl_key_input (cs : List UInt8) (s : Sys) : (cs.foldl Sys.key s).input = consoleintr cs s.input := by
  induction cs generalizing s with
  | nil => rfl
  | cons c cs ih => exact ih (s.key c)

end Xv6.Console
