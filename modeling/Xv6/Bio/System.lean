import Xv6.Library.Runs
import Xv6.Library.Tally
import Xv6.Log.BufferSpecs
import Xv6.Log.Group

/-! # Processes that share the buffer cache

`bread` and `brelse` are cut at the points where `bcache.lock` or a sleep lock is released or
waited for, and any number of processes interleave there. The returned contents and the stores
are recorded in order, so that they can be compared with a plain array of blocks.
-/
namespace Xv6.Bio
open Program

def lookup (blockno : ℕ) : BioM (Fin NBUF) := do
  let c ← get
  match c.lru.find? (c.cached blockno) with
  | some i =>
    set (c.setBuf i { c.buf i with refcnt := (c.buf i).refcnt + 1 })
    pure i
  | none =>
    match c.lru.reverse.find? c.unused with
    | some i =>
      set (c.setBuf i { c.buf i with
        dev := ROOTDEV, blockno := blockno, valid := false, dirty := false, refcnt := 1 })
      pure i
    | none => throw .bgetNoBuffers

def fill (i : Fin NBUF) : BioM Unit := do
  let c ← get
  if !(c.buf i).valid then iderw i

def releasesleep (i : Fin NBUF) : BioM Unit :=
  modify fun c => c.setBuf i { c.buf i with locked := false }

def unref (i : Fin NBUF) : BioM Unit := do
  let c ← get
  let b := { c.buf i with refcnt := (c.buf i).refcnt - 1 }
  if b.refcnt = 0 then set { c.setBuf i b with lru := i :: c.lru.erase i }
  else set (c.setBuf i b)

theorem bget_sections (b : ℕ) : bget b = lookup b >>= fun i => acquiresleep i >>= fun _ => pure i := by
  funext c
  simp only [bget,lookup,bind_apply,get_apply]
  cases c.lru.find? (c.cached b) with
  | some i => rfl
  | none =>
    cases c.lru.reverse.find? c.unused with
    | some i => rfl
    | none => rfl

theorem bread_sections (b : ℕ) : bread b = bget b >>= fun i => fill i >>= fun _ => pure i := by
  have htail : ∀ (i : Fin NBUF) (c : Bcache),
      (do
        let c ← get
        if !(c.buf i).valid then iderw i
        pure i : BioM (Fin NBUF)) c = (fill i >>= fun _ => pure i) c := by
    intro i c
    simp only [fill,bind_apply,get_apply]
    cases (c.buf i).valid <;> rfl
  funext c
  simp only [bread,bind_apply]
  cases bget b c with
  | ok i d => exact htail i d
  | error e d => rfl

theorem brelse_sections {c : Bcache} {i : Fin NBUF} (h : (c.buf i).locked = true) :
    brelse i c = (releasesleep i >>= fun _ => unref i) c := by
  simp only [brelse,releasesleep,unref,bind_apply,get_apply,modify_apply,h,setBuf_self,setBuf_lru,setBuf_setBuf,
    Bool.not_true,Bool.false_eq_true,↓reduceIte]
  split <;> rfl

namespace Shared
open Runs

inductive Phase
  | idle
  /-- In `bread`, about to take the sleep lock of a buffer found or recycled for the block. -/
  | acquiring (i : Fin NBUF) (b : ℕ)
  /-- In `bread`, with the sleep lock. -/
  | reading (i : Fin NBUF) (b : ℕ)
  /-- In `brelse`, after the sleep lock was released. -/
  | releasing (i : Fin NBUF)
  deriving DecidableEq

inductive Event
  | read (b : ℕ) (data : Block)
  | store (b : ℕ) (data : Block)

/-- `modified` marks the buffers changed by their holder since it last stored them. -/
structure Sys (Pid : Type) where
  cache : Bcache
  holder : Fin NBUF → Option Pid
  phase : Pid → Phase
  modified : Fin NBUF → Bool
  events : List Event

inductive Action (Pid : Type)
  | bget (p : Pid) (b : ℕ)
  | acquiresleep (p : Pid)
  | fill (p : Pid)
  | modify (p : Pid) (i : Fin NBUF) (data : Block)
  | logWrite (p : Pid) (i : Fin NBUF) (g : Log.Geometry) (outstanding : ℤ) (lh : Log.LogHeader)
  | bwrite (p : Pid) (i : Fin NBUF)
  | brelse (p : Pid) (i : Fin NBUF)
  | unref (p : Pid)

variable {Pid : Type} [DecidableEq Pid]

def Sys.run {α : Type} (s : Sys Pid) (x : BioM α) (p : Pid) (ph : α → Phase) : Option (Sys Pid) :=
  match x s.cache with
  | .ok a c => some { s with cache := c, phase := Function.update s.phase p (ph a) }
  | .error _ _ => none

def Sys.holds (s : Sys Pid) (p : Pid) (i : Fin NBUF) : Bool := s.phase p = .idle && s.holder i = some p

def Sys.stored (s : Sys Pid) (i : Fin NBUF) : Sys Pid :=
  { s with
    modified := Function.update s.modified i false
    events := s.events ++ [.store (s.cache.buf i).blockno (s.cache.buf i).data] }

def next (s : Sys Pid) : Action Pid → Option (Sys Pid)
  | .bget p b => if s.phase p = .idle then s.run (lookup b) p (.acquiring · b) else none
  | .acquiresleep p =>
    match s.phase p with
    | .acquiring i b => do
      let t ← s.run (Bio.acquiresleep i) p fun _ => .reading i b
      some { t with holder := Function.update t.holder i (some p) }
    | _ => none
  | .fill p =>
    match s.phase p with
    | .reading i b => do
      let t ← s.run (Bio.fill i) p fun _ => .idle
      some { t with events := t.events ++ [.read b (t.cache.buf i).data] }
    | _ => none
  | .modify p i data =>
    if s.holds p i then do
      let t ← s.run (setData i data) p fun _ => .idle
      some { t with modified := Function.update t.modified i true }
    else none
  | .logWrite p i g outstanding lh =>
    if s.holds p i then do
      let t ← s.run (Log.logWrite g outstanding lh i) p fun _ => .idle
      some (t.stored i)
    else none
  | .bwrite p i =>
    if s.holds p i then do
      let t ← s.run (Bio.bwrite i) p fun _ => .idle
      some (t.stored i)
    else none
  | .brelse p i =>
    if s.holds p i && !s.modified i then do
      let t ← s.run (releasesleep i) p fun _ => .releasing i
      some { t with holder := Function.update t.holder i none }
    else none
  | .unref p =>
    match s.phase p with
    | .releasing i => s.run (Bio.unref i) p fun _ => .idle
    | _ => none

def Step (s : Sys Pid) (a : Action Pid) (t : Sys Pid) : Prop := next s a = some t

def start (d : Disk) : Sys Pid := ⟨boot d,fun _ => none,fun _ => .idle,fun _ => false,[]⟩

end Shared
end Xv6.Bio
