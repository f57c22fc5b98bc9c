import Xv6.Fs.Contents
import Xv6.Fs.Calls

/-! # The blocks of a transaction

`writei` once more, with a record of the block numbers that it passes to `log_write`. The bitmap, the
inodes and the blocks of the files are parts of one disk here; its layout and the number of blocks
that the driver accepts are arbitrary.
-/
namespace Xv6.Fs
open ByteField Program

class Layout extends Superblock where
  inodestart : ℕ
  bmapstart : ℕ
  limit : ℕ

abbrev IPB : ℕ := BSIZE/64
abbrev BPB : ℕ := BSIZE*8

structure Recorded where
  sys : Sys
  log : List ℕ

abbrev LogM := EStateM Stop Recorded

section Functions

def unlogged {α : Type} (m : FsM α) : LogM α := fun r =>
  match m r.sys with
  | .ok a s => .ok a { r with sys := s }
  | .error e s => .error e { r with sys := s }

def logWrite (b : ℕ) : LogM Unit := modify fun r => { r with log := r.log ++ [b] }

variable [disk : Layout]

def BBLOCK (b : ℕ) : ℕ := b/BPB+disk.bmapstart

def IBLOCK (i : ℕ) : ℕ := i/IPB+disk.inodestart

namespace Logged

def bread (b : ℕ) : LogM Block := do
  if disk.limit ≤ b then throw .incorrectBlockno else pure ((← get).sys.block b)

def bwrite (b : ℕ) (f : Block → Block) : LogM Unit := do
  let v ← bread b
  modify fun r => { r with sys := { r.sys with block := Function.update r.sys.block b (f v) } }
  logWrite b

def balloc : LogM ℕ := do
  let s := (← get).sys
  match (List.range disk.size).find? fun b => !s.used b with
  | some b =>
    unlogged (set { s with used := Function.update s.used b true })
    logWrite (BBLOCK b)
    bwrite b fun _ => zeros
    pure b
  | none => throw .ballocOutOfBlocks

def mapAddr (ip : ℕ) (k : Fin (NDIRECT+1)) : LogM ℕ := do
  let addr := ((← get).sys.cache ip).copy.addrs k
  if addr = 0 then
    let b ← balloc
    unlogged (assign ip (setAddr k b))
    pure b
  else pure addr

def mapWord (addr j : ℕ) : LogM ℕ := do
  let a ← bread addr
  if word a j = 0 then
    let b ← balloc
    bwrite addr fun a => setWord a j b
    pure b
  else pure (word a j)

def bmap (ip : ℕ) (bn : ℕ) : LogM ℕ := do
  if h : bn < NDIRECT then mapAddr ip ⟨bn,Nat.lt_succ_of_lt h⟩
  else if bn-NDIRECT < NINDIRECT then
    let addr ← mapAddr ip (Fin.last NDIRECT)
    mapWord addr (bn-NDIRECT)
  else throw .bmapOutOfRange

def writeBlocks (ip : ℕ) : ℕ → ℕ → List UInt8 → LogM Unit
  | 0, _, _ => pure ()
  | fuel + 1, off, src =>
    if src = [] then pure ()
    else do
      let b ← bmap ip (off/BSIZE)
      let m := min src.length (BSIZE-off%BSIZE)
      bwrite b fun a => blit a (off%BSIZE) (src.take m)
      writeBlocks ip fuel (off+m) (src.drop m)

def iupdate (ip : ℕ) : LogM Unit := do
  unlogged (Fs.iupdate ip)
  logWrite (IBLOCK ip)

def store (ip : ℕ) (f : Dinode → Dinode) : LogM Unit := do
  unlogged (assign ip f)
  iupdate ip

def onlyIf (c : Prop) [Decidable c] (x : LogM Unit) : LogM Unit := if c then x else pure ()

def writei (ip : ℕ) (src : List UInt8) (off : ℕ) : LogM (Option ℕ) := do
  let d := ((← get).sys.cache ip).copy
  let n := src.length
  if d.type = .dev then
    if hasDriver d then pure (some n) else pure none
  else if d.size < off ∨ (off+n)%2^32 < off then pure none
  else if MAXFILE*BSIZE < off+n then pure none
  else
    writeBlocks ip n off src
    onlyIf (0 < n ∧ d.size < off+n) (store ip fun d => { d with size := off+n })
    pure (some n)

def writeChunk (f : FileNo) (ip : ℕ) (src : List UInt8) : LogM (Option ℕ) := do
  unlogged (ilock ip)
  let r ← writei ip src ((← get).sys.file f).off
  unlogged (advance f (r.getD 0))
  unlogged (iunlock ip)
  pure r

end Logged
end Functions

section Erasure
variable {α β : Type}

def plain : EStateM.Result Stop Recorded α → EStateM.Result Stop Sys α
  | .ok a r => .ok a r.sys
  | .error e r => .error e r.sys

/-- Without the record the two programs are the same. -/
def Erases (m : LogM α) (x : FsM α) : Prop := ∀ r, plain (m r) = x r.sys

namespace Erases

theorem pure (a : α) : Erases (Pure.pure a) (Pure.pure a) := fun _ => rfl

theorem throw (e : Stop) : Erases (MonadExcept.throw e : LogM α) (MonadExcept.throw e) := fun _ => rfl

theorem unlogged (x : FsM α) : Erases (unlogged x) x := by
  intro r
  unfold Fs.unlogged
  cases x r.sys <;> rfl

theorem bind {m : LogM α} {x : FsM α} {f : α → LogM β} {g : α → FsM β} (h : Erases m x) (hf : ∀ a, Erases (f a) (g a)) :
    Erases (m >>= f) (x >>= g) := by
  intro r
  have hr := h r
  rw [bind_apply,bind_apply,← hr]
  cases m r with
  | ok a r' => exact hf a r'
  | error e r' => rfl

theorem get {f : Recorded → LogM β} {g : Sys → FsM β} (hf : ∀ r, Erases (f r) (g r.sys)) :
    Erases (MonadState.get >>= f) (MonadState.get >>= g) := fun r => hf r r

theorem ite {c : Prop} [Decidable c] {m m' : LogM α} {x x' : FsM α} (h : c → Erases m x) (h' : ¬ c → Erases m' x') :
    Erases (if c then m else m') (if c then x else x') := by
  split
  · exact h ‹_›
  · exact h' ‹_›

theorem logWrite {m : LogM α} {x : FsM α} (b : ℕ) (h : Erases m x) : Erases (Fs.logWrite b >>= fun _ => m) x := fun _ => h _

end Erases

variable [disk : Layout] (hlimit : disk.limit = FSSIZE)
include hlimit

theorem erases_bread (b : ℕ) : Erases (Logged.bread b) (bread b) := by
  unfold Logged.bread bread
  rw [hlimit]
  exact .ite (fun _ => .throw _) fun _ => .get fun _ => .pure _

theorem erases_bwrite (b : ℕ) (f : Block → Block) : Erases (Logged.bwrite b f) (bwrite b f) := by
  intro r
  unfold Logged.bwrite Logged.bread bwrite
  rw [hlimit]
  by_cases hb : FSSIZE ≤ b
  · rw [if_pos hb,if_pos hb]
    rfl
  · rw [if_neg hb,if_neg hb]
    rfl

theorem erases_balloc : Erases Logged.balloc balloc := by
  refine .get fun r => ?_
  dsimp only
  generalize (List.range disk.size).find? _ = found
  cases found with
  | none => exact .throw _
  | some b => exact (Erases.unlogged _).bind fun _ => .logWrite _ ((erases_bwrite hlimit b _).bind fun _ => .pure _)

theorem erases_mapAddr (ip : ℕ) (k : Fin (NDIRECT+1)) : Erases (Logged.mapAddr ip k) (mapAddr ip k) :=
  .get fun _ => .ite (fun _ => (erases_balloc hlimit).bind fun _ => (Erases.unlogged _).bind fun _ => .pure _)
    fun _ => .pure _

theorem erases_mapWord (addr j : ℕ) : Erases (Logged.mapWord addr j) (mapWord addr j) :=
  (erases_bread hlimit addr).bind fun _ => .ite
    (fun _ => (erases_balloc hlimit).bind fun _ => (erases_bwrite hlimit _ _).bind fun _ => .pure _) fun _ => .pure _

theorem erases_bmap (ip bn : ℕ) : Erases (Logged.bmap ip bn) (bmap ip bn) := by
  unfold Logged.bmap bmap
  split
  · exact erases_mapAddr hlimit _ _
  · exact .ite (fun _ => (erases_mapAddr hlimit _ _).bind fun _ => erases_mapWord hlimit _ _) fun _ => .throw _

theorem erases_writeBlocks (ip fuel off : ℕ) (src : List UInt8) :
    Erases (Logged.writeBlocks ip fuel off src) (writeBlocks ip fuel off src) := by
  induction fuel generalizing off src with
  | zero => exact .pure _
  | succ fuel ih =>
    exact .ite (fun _ => .pure _) fun _ => (erases_bmap hlimit _ _).bind fun _ => (erases_bwrite hlimit _ _).bind fun _ =>
      ih _ _

omit hlimit in
theorem erases_store (ip : ℕ) (f : Dinode → Dinode) : Erases (Logged.store ip f) (store ip f) :=
  (Erases.unlogged _).bind fun _ _ => rfl

theorem erases_writei (ip : ℕ) (src : List UInt8) (off : ℕ) : Erases (Logged.writei ip src off) (writei ip src off) := by
  refine .get fun r => .ite (fun _ => .ite (fun _ => .pure _) fun _ => .pure _) fun _ => .ite (fun _ => .pure _) fun _ =>
    .ite (fun _ => .pure _) fun _ => (erases_writeBlocks hlimit _ _ _ _).bind fun _ => .bind ?_ fun _ => .pure _
  exact .ite (fun _ => erases_store ip _) fun _ => .pure _

end Erasure
end Xv6.Fs
