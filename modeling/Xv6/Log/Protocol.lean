import Xv6.Library.Runs
import Xv6.Log.Group

/-! # Operations and group commit as concurrent processes

Each process is at one point of `begin_op`, `log_write`, `end_op` or `commit`.
A critical section under `log.lock` is one step, and so is each call that `commit`
makes on the buffer cache; steps of different processes interleave freely.
-/
namespace Xv6.Log
open Bio Program

abbrev Pid := ℕ

inductive CommitPoint
  | test
  | writeLog (tail : ℕ)
  | writeHead
  | install (tail : ℕ)
  | eraseHead
  | finish
  deriving DecidableEq

inductive Phase
  | outside
  | asleep
  | woken
  | inOp
  | logging (i : Fin NBUF)
  | commit (pc : CommitPoint)
  deriving DecidableEq

def Phase.active : Phase → Bool
  | .inOp => true
  | .logging _ => true
  | _ => false

structure Sys where
  c : Bcache
  owner : Fin NBUF → Option Pid
  outstanding : ℤ
  committing : Bool
  lh : LogHeader
  phase : Pid → Phase

inductive Action
  | beginOp (p : Pid)
  | kill (p : Pid)
  | bread (p : Pid) (b : ℕ)
  | modify (p : Pid) (i : Fin NBUF) (v : Block)
  | brelse (p : Pid) (i : Fin NBUF)
  | logWrite (p : Pid) (i : Fin NBUF) (b : ℕ)
  | logRecord (p : Pid) (b : ℕ)
  | endOp (p : Pid)
  | commitStep (p : Pid)
  | commitDone (p : Pid)

inductive Halt
  | blocked
  | stop (e : Stop)
  deriving DecidableEq

namespace Sys

def setPhase (s : Sys) (p : Pid) (ph : Phase) : Sys := { s with phase := Function.update s.phase p ph }

def wakeup (s : Sys) : Sys :=
  { s with phase := fun q => if s.phase q = .asleep then .woken else s.phase q }

def call {α : Type} (s : Sys) (x : BioM α) (k : α → Bcache → Sys) : Except Halt Sys :=
  match x s.c with
  | .ok a c' => .ok (k a c')
  | .error .waiting _ => .error .blocked
  | .error e _ => .error (.stop e)

def beginOp (s : Sys) (p : Pid) : Except Halt Sys :=
  if s.phase p = .outside ∨ s.phase p = .woken then
    if s.committing then .ok (s.setPhase p .asleep)
    else if (LOGSIZE : ℤ) < s.lh.n + (s.outstanding+1)*MAXOPBLOCKS then .ok (s.setPhase p .asleep)
    else .ok ({ s with outstanding := s.outstanding+1 }.setPhase p .inOp)
  else .error .blocked

def kill (s : Sys) (p : Pid) : Except Halt Sys :=
  if s.phase p = .asleep then .ok (s.setPhase p .woken) else .error .blocked

def bread (s : Sys) (p : Pid) (b : ℕ) : Except Halt Sys :=
  if s.phase p = .outside ∨ s.phase p = .inOp then
    s.call (Bio.bread b) (fun i c => { s with c := c, owner := Function.update s.owner i (some p) })
  else .error .blocked

def modify (s : Sys) (p : Pid) (i : Fin NBUF) (v : Block) : Except Halt Sys :=
  if s.phase p = .inOp ∧ s.owner i = some p then s.call (setData i v) (fun _ c => { s with c := c })
  else .error .blocked

def brelse (s : Sys) (p : Pid) (i : Fin NBUF) : Except Halt Sys :=
  if (s.phase p = .outside ∨ s.phase p = .inOp) ∧ s.owner i = some p then
    s.call (Bio.brelse i) (fun _ c => { s with c := c, owner := Function.update s.owner i none })
  else .error .blocked

def logWrite (g : Geometry) (s : Sys) (p : Pid) (i : Fin NBUF) (b : ℕ) : Except Halt Sys :=
  if s.phase p = .inOp ∧ s.owner i = some p ∧ (s.c.buf i).blockno = b then
    match logCheck g s.outstanding s.lh with
    | some e => .error (.stop e)
    | none => .ok (s.setPhase p (.logging i))
  else .error .blocked

def logRecord (s : Sys) (p : Pid) (b : ℕ) : Except Halt Sys :=
  match s.phase p with
  | .logging i =>
    if (s.c.buf i).blockno = b then
      match s.lh.record b with
      | some lh' =>
        .ok ({ s with lh := lh', c := s.c.setBuf i { s.c.buf i with dirty := true } }.setPhase p .inOp)
      | none => .error (.stop .headerOverflow)
    else .error .blocked
  | _ => .error .blocked

def endOp (s : Sys) (p : Pid) : Except Halt Sys :=
  if s.phase p = .inOp then
    let s := { s with outstanding := s.outstanding-1 }
    if s.committing then .error (.stop .logCommitting)
    else if s.outstanding = 0 then .ok ({ s with committing := true }.setPhase p (.commit .test))
    else .ok (s.wakeup.setPhase p .outside)
  else .error .blocked

def commitStep (g : Geometry) (s : Sys) (p : Pid) : Except Halt Sys :=
  match s.phase p with
  | .commit .test => .ok (s.setPhase p (.commit (if 0 < s.lh.n then .writeLog 0 else .finish)))
  | .commit (.writeLog tail) =>
    if tail < s.lh.n then
      s.call (writeLogBlock g s.lh tail) (fun _ c => { s with c := c }.setPhase p (.commit (.writeLog (tail+1))))
    else .ok (s.setPhase p (.commit .writeHead))
  | .commit .writeHead =>
    s.call (Log.writeHead g s.lh) (fun _ c => { s with c := c }.setPhase p (.commit (.install 0)))
  | .commit (.install tail) =>
    if tail < s.lh.n then
      s.call (installBlock g s.lh tail) (fun _ c => { s with c := c }.setPhase p (.commit (.install (tail+1))))
    else .ok ({ s with lh := { s.lh with n := 0 } }.setPhase p (.commit .eraseHead))
  | .commit .eraseHead =>
    s.call (Log.writeHead g s.lh) (fun _ c => { s with c := c }.setPhase p (.commit .finish))
  | _ => .error .blocked

def commitDone (s : Sys) (p : Pid) : Except Halt Sys :=
  if s.phase p = .commit .finish then .ok ({ s with committing := false }.wakeup.setPhase p .outside)
  else .error .blocked

def step (g : Geometry) (s : Sys) : Action → Except Halt Sys
  | .beginOp p => s.beginOp p
  | .kill p => s.kill p
  | .bread p b => s.bread p b
  | .modify p i v => s.modify p i v
  | .brelse p i => s.brelse p i
  | .logWrite p i b => s.logWrite g p i b
  | .logRecord p b => s.logRecord p b
  | .endOp p => s.endOp p
  | .commitStep p => s.commitStep g p
  | .commitDone p => s.commitDone p

structure Initial (s : Sys) : Prop where
  indexed : Indexed s.c
  owner : ∀ i, s.owner i = none
  outstanding : s.outstanding = 0
  committing : s.committing = false
  empty : s.lh.n = 0
  phase : ∀ p, s.phase p = .outside

def booted (d : Disk) : Sys := ⟨boot d,fun _ => none,0,false,.zero,fun _ => .outside⟩

theorem booted_initial (d : Disk) : Initial (booted d) :=
  ⟨boot_indexed d,fun _ => rfl,rfl,rfl,rfl,fun _ => rfl⟩

end Sys

def logged (B : Finset ℕ) : Action → Finset ℕ
  | .logRecord _ b => insert b B
  | .commitDone _ => ∅
  | _ => B

def loggedSince (t : List Action) : Finset ℕ := t.foldl logged ∅

def passed (p : Pid) (B : Finset ℕ) : Action → Finset ℕ
  | .logWrite q _ b => if q = p then insert b B else B
  | .endOp q => if q = p then ∅ else B
  | _ => B

def opBlocks (p : Pid) (t : List Action) : Finset ℕ := t.foldl (passed p) ∅

@[simp] theorem loggedSince_snoc (t : List Action) (a : Action) :
    loggedSince (t ++ [a]) = logged (loggedSince t) a := by simp [loggedSince]
@[simp] theorem opBlocks_snoc (p : Pid) (t : List Action) (a : Action) :
    opBlocks p (t ++ [a]) = passed p (opBlocks p t) a := by simp [opBlocks]

end Xv6.Log
