import Xv6.Fs.ReadBack
import Xv6.Fs.Calls

/-! # Writing a buffer in several transactions

`filewrite` and `overwrite_file` cut the buffer into chunks and carry the offset from one to the next.
What they leave behind is what one write of the whole buffer would leave, or, where the file would
outgrow the largest size, what a write of some of the chunks would leave.
-/
namespace Xv6.Fs
open ByteField Overwrite Program Function
variable {s s' s₁ s₂ : Sys} {f : FileNo} {ip off n : ℕ} {src src' : List UInt8}

section Functions
variable [sb : Superblock]

def writeChunk (f : FileNo) (ip : ℕ) (src : List UInt8) : FsM (Option ℕ) := do
  ilock ip
  let r ← writei ip src ((← get).file f).off
  advance f (r.getD 0)
  iunlock ip
  pure r

theorem writeChunk_bind {α : Type} (f : FileNo) (ip : ℕ) (src : List UInt8) (k : Option ℕ → FsM α) :
    writeChunk f ip src >>= k = (do
      ilock ip
      let r ← writei ip src ((← get).file f).off
      advance f (r.getD 0)
      iunlock ip
      k r) := by
  unfold writeChunk
  simp only [bind_assoc,pure_bind]

theorem writeChunks_succ (f : FileNo) (ip fuel : ℕ) (hne : src ≠ []) :
    writeChunks f ip (fuel+1) src = (do
      match ← writeChunk f ip (src.take (min src.length maxWrite)) with
      | none => pure false
      | some r =>
        if r ≠ min src.length maxWrite then throw .shortFilewrite
        else writeChunks f ip fuel (src.drop (min src.length maxWrite))) := by
  rw [writeChunks,if_neg hne]
  exact (writeChunk_bind f ip _ _).symm

def overwriteFile (f : FileNo) (src : List UInt8) : FsM Bool := do
  let v := (← get).file f
  if v.writable = false then pure false
  else match v.kind with
    | .pipe _ => do
      let r ← external
      pure r.isSome
    | .inode ip => do
      setFile f { v with off := 0 }
      writeChunks f ip src.length src
    | .none => throw .filewrite

end Functions

section Rounds
variable [sb : Superblock]

/-- The open file `f` is a file that can be written at its offset. -/
structure Writable (f : FileNo) (ip : ℕ) (s : Sys) : Prop where
  consistent : s.Consistent
  kind : (s.file f).kind = .inode ip
  writable : (s.file f).writable = true
  ref : 0 < (s.cache ip).ref
  unlocked : (s.cache ip).locked = false
  type : (s.inode ip).type = .file
  off : (s.file f).off ≤ (s.inode ip).size

/-- The buffer is in the file, and the offset is behind it. -/
structure Written (f : FileNo) (ip off : ℕ) (src : List UInt8) (s s' : Sys) : Prop where
  contents : contents s'.block (s'.inode ip) = overwrite (contents s.block (s.inode ip)) off src
  others : ∀ j, j ≠ ip → (s.inode j).type ≠ .free → Fs.contents s'.block (s'.inode j) = Fs.contents s.block (s.inode j)
  file : s'.file = Function.update s.file f { s.file f with off := off+src.length }

/-- The buffer is written, and what follows costs no more than was expected. -/
structure Chunked (f : FileNo) (ip : ℕ) (src : List UInt8) (s s' : Sys) : Prop extends
    Written f ip (s.file f).off src s s' where
  ready : Writable f ip s'
  types : ∀ j, (s'.inode j).type = (s.inode j).type
  left : ∃ c, free s'.used+c = free s.used ∧ ∀ m, need s'.block (s'.inode ip) ((s.file f).off+src.length) m+c ≤
    need s.block (s.inode ip) (s.file f).off (src.length+m)

theorem Chunked.offset (h : Chunked f ip src s s') : (s'.file f).off = (s.file f).off+src.length := by
  rw [h.file,update_self]

theorem Chunked.trans (h : Chunked f ip src s s₁) (h' : Chunked f ip src' s₁ s') (hs : Writable f ip s) :
    Chunked f ip (src ++ src') s s' where
  contents := by
    rw [h'.contents,h.contents,h.offset,overwrite_append]
    rw [length_contents]
    exact hs.off
  others j hj htype := by
    rw [h'.others j hj (by rwa [h.types]),h.others j hj htype]
  file := by
    rw [h'.file,h.file,update_idem,update_self,List.length_append,Nat.add_assoc]
  ready := h'.ready
  types j := (h'.types j).trans (h.types j)
  left := by
    obtain ⟨c,hfree,hneed⟩ := h.left
    obtain ⟨c',hfree',hneed'⟩ := h'.left
    refine ⟨c+c',by omega,fun m => ?_⟩
    have h1 := hneed (src'.length+m)
    have h2 := hneed' m
    rw [h.offset] at h2
    rw [List.length_append,← Nat.add_assoc (s.file f).off,Nat.add_assoc src.length]
    omega

theorem Writable.lock (h : Writable f ip s) : ilock ip s = .ok () (s.lock ip) := by
  refine ilock_ok h.ref h.unlocked ?_
  by_cases hvalid : (s.cache ip).valid = true
  · exact .inl hvalid
  · have hdisk : s.inode ip = s.dinode ip := if_neg fun hc => hvalid hc.2
    rw [← hdisk,h.type]
    exact .inr (by nofun)

theorem chunk_end (h : Writable f ip s) (hwrote : Wrote ip (s.file f).off src (s.lock ip) s₁)
    (ht : Touched ip (s.lock ip) s₁) (r : Option ℕ) : ∃ s', (do
      advance f src.length
      iunlock ip
      pure r : FsM (Option ℕ)) s₁ = .ok r s' ∧ Chunked f ip src s s' := by
  obtain ⟨d,-,hcache⟩ := ht.cache
  obtain ⟨s₂,hs₂⟩ : ∃ s₂ : Sys, s₂ = { s₁ with
      file := update s₁.file f { s₁.file f with off := (s₁.file f).off+src.length } } := ⟨_,rfl⟩
  have hadvance : advance f src.length s₁ = .ok () s₂ := by
    rw [hs₂]
    rfl
  have hself : s₂.cache ip = { (s.lock ip).cache ip with copy := d } := by
    rw [hs₂]
    dsimp only
    rw [hcache,update_self]
  have hlocked : (s₂.cache ip).locked = true := by rw [hself,s.lock_self]
  have href : 0 < (s₂.cache ip).ref := by
    rw [hself,s.lock_self]
    exact h.ref
  have hinode : (s₂.unlock ip).inode = s₁.inode := by
    rw [Sys.inode_unlock,hs₂]
    rfl
  have hblock : (s₂.unlock ip).block = s₁.block := by rw [hs₂]; rfl
  have hused : (s₂.unlock ip).used = s₁.used := by rw [hs₂]; rfl
  have hfile : (s₂.unlock ip).file = update s.file f { s.file f with off := (s.file f).off+src.length } := by
    change s₂.file = _
    rw [hs₂]
    dsimp only
    rw [ht.file]
    rfl
  obtain ⟨a,ha⟩ := hwrote.self
  rw [Sys.inode_lock h.ref] at ha
  refine ⟨s₂.unlock ip,?_,?_⟩
  · rw [bind_of_ok hadvance,bind_of_ok (iunlock_ok hlocked href)]
    rfl
  · refine ⟨⟨?_,fun j hj htype => ?_,hfile⟩,⟨?_,?_,?_,?_,?_,?_,?_⟩,fun j => ?_,?_⟩
    · rw [hinode,hblock,hwrote.contents,Sys.inode_lock h.ref]
      rfl
    · rw [hinode,hblock,hwrote.others j hj (by rwa [Sys.inode_lock h.ref]),Sys.inode_lock h.ref]
      rfl
    · unfold Sys.Consistent
      rw [hinode,hblock,hused]
      exact hwrote.consistent
    · rw [hfile,update_self]
      exact h.kind
    · rw [hfile,update_self]
      exact h.writable
    · rw [s₂.unlock_self]
      exact href
    · rw [s₂.unlock_self]
    · rw [hinode,ha,update_self]
      exact h.type
    · rw [hfile,hinode,ha,update_self,update_self]
      exact le_max_right _ _
    · rw [hinode,ha]
      by_cases hj : j = ip
      · rw [hj,update_self]
      · rw [update_of_ne hj]
    · rw [hinode,hblock,hused]
      obtain hleft := hwrote.left
      rw [Sys.inode_lock h.ref] at hleft
      exact hleft

theorem Writable.consistent_lock (h : Writable f ip s) : (s.lock ip).Consistent := by
  unfold Sys.Consistent
  rw [Sys.inode_lock h.ref]
  exact h.consistent

theorem Writable.wrote_nil (h : Writable f ip s) : Wrote ip (s.file f).off [] (s.lock ip) (s.lock ip) where
  consistent := h.consistent_lock
  cached := Sys.cached_lock h.ref
  self := by
    refine ⟨((s.lock ip).inode ip).addrs,?_⟩
    rw [List.length_nil,Nat.add_zero,Sys.inode_lock h.ref,Nat.max_eq_left h.off]
    exact (update_eq_self ip s.inode).symm
  contents := (overwrite_nil _ _).symm
  others _ _ _ := rfl
  left := ⟨0,rfl,fun m => by rw [List.length_nil,Nat.add_zero,Nat.add_zero,Nat.zero_add]⟩

variable (h : Writable f ip s)
include h

theorem writeChunk_cases (src : List UInt8) (hmax : (s.file f).off+src.length ≤ MAXFILE*BSIZE) :
    (∃ s', writeChunk f ip src s = .ok (some src.length) s' ∧ Chunked f ip src s s') ∨
    ∃ s', writeChunk f ip src s = .error .ballocOutOfBlocks s' ∧
      free s.used < need s.block (s.inode ip) (s.file f).off src.length := by
  have hinode := Sys.inode_lock h.ref
  unfold writeChunk
  rw [bind_of_ok h.lock,bind_of_ok (get_apply _)]
  rcases writei_cases h.consistent_lock (by rw [hinode,h.type]; nofun) (Sys.cached_lock h.ref) (by rw [hinode,h.type]; nofun)
    (by rw [hinode]; exact h.off) hmax with ⟨s₁,hrun,hwrote⟩ | ⟨s₁,hrun,hfull⟩
  · obtain ⟨s',hend,hchunk⟩ := chunk_end h hwrote (within_writei ip _ _ _ _ _ hrun) (some src.length)
    refine .inl ⟨s',?_,hchunk⟩
    rw [← hend]
    exact bind_of_ok hrun
  · rw [hinode] at hfull
    refine .inr ⟨s₁,?_,hfull⟩
    exact bind_of_error hrun

theorem writeChunk_refused (src : List UInt8) (hmax : MAXFILE*BSIZE < (s.file f).off+src.length) :
    ∃ s', writeChunk f ip src s = .ok none s' ∧ Chunked f ip [] s s' := by
  have hrun : writei ip src (s.file f).off (s.lock ip) = .ok none (s.lock ip) :=
    writei_refused (Sys.cached_lock h.ref) (by rw [Sys.inode_lock h.ref,h.type]; nofun) (by omega)
  obtain ⟨s',hend,hchunk⟩ := chunk_end h h.wrote_nil (within_writei ip _ _ _ _ _ hrun) none
  refine ⟨s',?_,hchunk⟩
  unfold writeChunk
  rw [bind_of_ok h.lock,bind_of_ok (get_apply _),← hend]
  exact bind_of_ok hrun

end Rounds

section Loops
variable [sb : Superblock]

/-- The part of a buffer that stays within the largest file size. -/
def fitting (off n : ℕ) : ℕ := min n (MAXFILE*BSIZE-off)

theorem Writable.chunked_nil (h : Writable f ip s) : Chunked f ip [] s s where
  contents := (overwrite_nil _ _).symm
  others _ _ _ := rfl
  file := (update_eq_self f s.file).symm
  ready := h
  types _ := rfl
  left := ⟨0,rfl,fun m => by rw [List.length_nil,Nat.add_zero,Nat.add_zero,Nat.zero_add]⟩

theorem Writable.off_le (h : Writable f ip s) : (s.file f).off ≤ MAXFILE*BSIZE :=
  h.off.trans (h.consistent.sizes ip (by rw [h.type]; nofun))

/-- `filewrite` runs out of blocks, writes everything, or fails at the largest size after whole chunks. -/
def Outcome (f : FileNo) (ip : ℕ) (src : List UInt8) (s : Sys) (out : EStateM.Result Stop Sys Bool) : Prop :=
  (∃ s', out = .error .ballocOutOfBlocks s' ∧
    free s.used < need s.block (s.inode ip) (s.file f).off (fitting (s.file f).off src.length)) ∨
  ((s.file f).off+src.length ≤ MAXFILE*BSIZE ∧ ∃ s', out = .ok true s' ∧ Chunked f ip src s s') ∨
  MAXFILE*BSIZE < (s.file f).off+src.length ∧
    ∃ s' k, out = .ok false s' ∧ k*maxWrite < src.length ∧ Chunked f ip (src.take (k*maxWrite)) s s'

theorem Outcome.chunk {m : ℕ} {out : EStateM.Result Stop Sys Bool} (h : Outcome f ip (src.drop m) s₁ out)
    (hs : Writable f ip s) (hchunk : Chunked f ip (src.take m) s s₁) (hm : m = min src.length maxWrite)
    (hmax : (s.file f).off+m ≤ MAXFILE*BSIZE) : Outcome f ip src s out := by
  have hlen : (src.take m).length = m := by
    rw [List.length_take]
    omega
  have hoff := hchunk.offset
  rw [hlen] at hoff
  have hrest : (src.drop m).length = src.length-m := List.length_drop
  rcases h with ⟨s',hout,hfull⟩ | ⟨hfit,s',hout,hrun⟩ | ⟨hbig,s',k,hout,hk,hrun⟩
  · obtain ⟨c,hfree,hneed⟩ := hchunk.left
    have hsplit : fitting (s.file f).off src.length = m+fitting ((s.file f).off+m) (src.length-m) := by
      unfold fitting
      omega
    have hneed := hneed (fitting ((s.file f).off+m) (src.length-m))
    rw [hlen,← hsplit] at hneed
    rw [hoff,hrest] at hfull
    exact .inl ⟨s',hout,by omega⟩
  · refine .inr (.inl ⟨by omega,s',hout,?_⟩)
    rw [← List.take_append_drop m src]
    exact hchunk.trans hrun hs
  · have hfull : m = maxWrite := by omega
    refine .inr (.inr ⟨by omega,s',k+1,hout,?_,?_⟩)
    · rw [Nat.succ_mul]
      omega
    · rw [Nat.succ_mul,Nat.add_comm,← hfull,List.take_add,hfull]
      rw [hfull] at hchunk hrun
      exact hchunk.trans hrun hs

theorem writeChunks_outcome {fuel : ℕ} (h : Writable f ip s) (hfuel : src.length ≤ fuel) :
    Outcome f ip src s (writeChunks f ip fuel src s) := by
  have hwrite : maxWrite = 1536 := rfl
  induction fuel generalizing s src with
  | zero =>
    obtain rfl := List.length_eq_zero_iff.mp (Nat.le_zero.mp hfuel)
    exact .inr (.inl ⟨h.off_le,s,rfl,h.chunked_nil⟩)
  | succ fuel ih =>
    by_cases hnil : src = []
    · subst hnil
      exact .inr (.inl ⟨h.off_le,s,by rw [writeChunks,if_pos rfl]; rfl,h.chunked_nil⟩)
    · have hpos := List.length_pos_iff.mpr hnil
      obtain ⟨m,hm⟩ : ∃ m, m = min src.length maxWrite := ⟨_,rfl⟩
      have hlen : (src.take m).length = m := by
        rw [List.length_take]
        omega
      rw [writeChunks_succ f ip fuel hnil,← hm]
      by_cases hmax : (s.file f).off+m ≤ MAXFILE*BSIZE
      · rcases writeChunk_cases h (src.take m) (by rwa [hlen]) with ⟨s₁,hrun,hchunk⟩ | ⟨s₁,hrun,hfull⟩
        · rw [bind_of_ok hrun,hlen]
          dsimp only
          rw [if_neg (not_not.mpr rfl)]
          refine (ih hchunk.ready ?_).chunk h hchunk hm hmax
          rw [List.length_drop]
          omega
        · rw [bind_of_error hrun]
          rw [hlen] at hfull
          refine .inl ⟨s₁,rfl,Nat.lt_of_lt_of_le hfull (need_mono ?_)⟩
          unfold fitting
          omega
      · obtain ⟨s₁,hrun,hchunk⟩ := writeChunk_refused h (src.take m) (by rw [hlen]; omega)
        rw [bind_of_ok hrun]
        refine .inr (.inr ⟨by omega,s₁,0,rfl,by omega,?_⟩)
        rw [Nat.zero_mul,List.take_zero]
        exact hchunk

end Loops

section Calls

def Sys.rewind (s : Sys) (f : FileNo) : Sys := { s with file := Function.update s.file f { s.file f with off := 0 } }

theorem Sys.rewind_self (s : Sys) (f : FileNo) : (s.rewind f).file f = { s.file f with off := 0 } :=
  update_self ..

theorem Written.of_rewind (h : Written f ip off src (s.rewind f) s') : Written f ip off src s s' where
  contents := h.contents
  others := h.others
  file := by
    rw [h.file,s.rewind_self]
    exact update_idem ..

variable [sb : Superblock]

/-- What a call that writes a buffer at an offset comes to: it returns the length and has written all of it, it returns -1
and has written whole chunks only, or it stops the kernel for want of a free block. -/
def WritesAt (f : FileNo) (ip off : ℕ) (src : List UInt8) (s : Sys) (out : EStateM.Result Stop Sys Bool) : Prop :=
  (∃ s', out = .error .ballocOutOfBlocks s' ∧
    free s.used < need s.block (s.inode ip) off (fitting off src.length)) ∨
  (off+src.length ≤ MAXFILE*BSIZE ∧ ∃ s', out = .ok true s' ∧ Written f ip off src s s') ∨
  MAXFILE*BSIZE < off+src.length ∧
    ∃ s' k, out = .ok false s' ∧ k*maxWrite < src.length ∧ Written f ip off (src.take (k*maxWrite)) s s'

theorem Outcome.writesAt {out : EStateM.Result Stop Sys Bool} (h : Outcome f ip src s out) :
    WritesAt f ip (s.file f).off src s out := by
  rcases h with hfull | ⟨hfit,s',hout,hrun⟩ | ⟨hbig,s',k,hout,hk,hrun⟩
  · exact .inl hfull
  · exact .inr (.inl ⟨hfit,s',hout,hrun.toWritten⟩)
  · exact .inr (.inr ⟨hbig,s',k,hout,hk,hrun.toWritten⟩)

theorem Writable.rewind (h : Writable f ip s) : Writable f ip (s.rewind f) where
  consistent := h.consistent
  kind := by
    rw [s.rewind_self]
    exact h.kind
  writable := by
    rw [s.rewind_self]
    exact h.writable
  ref := h.ref
  unlocked := h.unlocked
  type := h.type
  off := by
    rw [s.rewind_self]
    exact Nat.zero_le _

theorem WritesAt.of_rewind {out : EStateM.Result Stop Sys Bool} (h : WritesAt f ip off src (s.rewind f) out) :
    WritesAt f ip off src s out := by
  rcases h with hfull | ⟨hfit,s',hout,hrun⟩ | ⟨hbig,s',k,hout,hk,hrun⟩
  · exact .inl hfull
  · exact .inr (.inl ⟨hfit,s',hout,hrun.of_rewind⟩)
  · exact .inr (.inr ⟨hbig,s',k,hout,hk,hrun.of_rewind⟩)

theorem overwriteFile_eq (h : Writable f ip s) (src : List UInt8) :
    overwriteFile f src s = writeChunks f ip src.length src (s.rewind f) := by
  have hkind := h.kind
  have hwritable := h.writable
  unfold overwriteFile Sys.rewind
  rw [bind_of_ok (get_apply s)]
  generalize s.file f = v at hkind hwritable ⊢
  obtain ⟨kind,ref,readable,writable,off⟩ := v
  subst hkind hwritable
  rfl

/-- Both calls amount to one write of the whole buffer: `filewrite` at the offset of the file and `overwrite_file` at its
start. -/
theorem chunked_writes (h : Writable f ip s) (src : List UInt8) :
    WritesAt f ip (s.file f).off src s (filewrite f src s) ∧ WritesAt f ip 0 src s (overwriteFile f src s) := by
  refine ⟨?_,?_⟩
  · unfold filewrite
    rw [bind_of_ok (get_apply s),if_neg (by rw [h.writable]; nofun),h.kind]
    exact (writeChunks_outcome h (Nat.le_refl _)).writesAt
  · have hrun := (writeChunks_outcome h.rewind (Nat.le_refl src.length)).writesAt
    rw [s.rewind_self] at hrun
    rw [overwriteFile_eq h]
    exact hrun.of_rewind

end Calls

section Instances

theorem writable_oneFile : @Writable smallDisk 0 2 oneFile :=
  @Writable.mk smallDisk 0 2 oneFile consistent_oneFile rfl rfl (by decide) rfl rfl (Nat.zero_le _)

theorem WritesAt.small {out : EStateM.Result Stop Sys Bool} (h : @WritesAt smallDisk 0 2 0 src oneFile out) (hsrc : src.length ≤ 16000) :
    ∃ s', out = .ok true s' ∧ contents s'.block (s'.inode 2) = src := by
  let := smallDisk
  have hmax : MAXFILE*BSIZE = 71680 := rfl
  have hfree : free oneFile.used = 60 := by decide +kernel
  rcases h with ⟨s',-,hfull⟩ | ⟨-,s',hout,hw⟩ | ⟨hbig,-⟩
  · have hfit : fitting 0 src.length ≤ 16000 := (Nat.min_le_left ..).trans hsrc
    have hneed := @need_le 0 (fitting 0 src.length) oneFile.block (oneFile.inode 2)
    rw [BSIZE_eq] at hneed
    omega
  · have hempty : contents oneFile.block (oneFile.inode 2) = [] :=
      List.length_eq_zero_iff.mp ((length_contents ..).trans (size_oneFile 2))
    refine ⟨s',hout,?_⟩
    rw [hw.contents,hempty]
    exact overwrite_length [] src
  · omega

/-- Two thousand bytes take two chunks. -/
theorem chunked_writes_oneFile : ∃ (_ : Superblock) (s s' : Sys), Writable 0 2 oneFile ∧
    filewrite 0 (List.replicate 2000 7) oneFile = .ok true s ∧
    contents s.block (s.inode 2) = List.replicate 2000 7 ∧
    overwriteFile 0 (List.replicate 2000 7) oneFile = .ok true s' ∧
    contents s'.block (s'.inode 2) = List.replicate 2000 7 := by
  let := smallDisk
  have hlen : (List.replicate 2000 (7 : UInt8)).length ≤ 16000 := by rw [List.length_replicate]; omega
  obtain ⟨h1,h2⟩ := chunked_writes writable_oneFile (List.replicate 2000 7)
  obtain ⟨s,hs,hc⟩ := WritesAt.small h1 hlen
  obtain ⟨s',hs',hc'⟩ := WritesAt.small h2 hlen
  exact ⟨smallDisk,s,s',writable_oneFile,hs,hc,hs',hc'⟩

def fullDisk : Sys := { oneFile with used := fun _ => true }

theorem writable_fullDisk : @Writable smallDisk 0 2 fullDisk := by
  let := smallDisk
  have h := consistent_oneFile
  have hcons : fullDisk.Consistent :=
    ⟨h.start,h.limit,fun _ _ => rfl,⟨h.owned.inj,h.owned.pool,fun _ _ => rfl⟩,h.sizes,h.holeFree⟩
  exact ⟨hcons,rfl,rfl,by decide,rfl,rfl,Nat.zero_le _⟩

/-- One byte that the file has room for stops the kernel. -/
theorem filewrite_fullDisk : ∃ (_ : Superblock) (f : FileNo) (ip : ℕ) (s s' : Sys) (src : List UInt8), Writable f ip s ∧
    (s.file f).off+src.length ≤ MAXFILE*BSIZE ∧ filewrite f src s = .error .ballocOutOfBlocks s' := by
  let := smallDisk
  exact ⟨smallDisk,0,2,fullDisk,_,[1],writable_fullDisk,by decide,rfl⟩

end Instances
end Xv6.Fs
