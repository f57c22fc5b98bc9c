import Xv6.Fs.Chunks

/-! # Writers that share an open file

Calls of `filewrite` on one open file take turns; the part of a round between `ilock` and `iunlock` is
one step. The offset starts at the end of the file and stays there, so that every chunk is appended.
-/
namespace Xv6.Fs.Writers
open ByteField Overwrite Program Function
variable {C : Type} [DecidableEq C] {f : FileNo} {ip : ℕ}

section System

/-- Calls of `filewrite` on one file: what each has left, what was written in which order, which failed. -/
structure Shared (C : Type) where
  sys : Sys
  left : C → List UInt8
  done : List (C × List UInt8)
  failed : List C

variable [sb : Superblock]

def Shared.chunk (st : Shared C) (c : C) : List UInt8 := (st.left c).take (min (st.left c).length maxWrite)

/-- A call writes its next chunk or is refused, or something happens that leaves the file as it is. -/
inductive Step (f : FileNo) (ip : ℕ) : Shared C → Shared C → Prop
  | write {st : Shared C} (c : C) {s' : Sys} (hleft : st.left c ≠ [])
      (hrun : writeChunk f ip (st.chunk c) st.sys = .ok (some (min (st.left c).length maxWrite)) s') :
      Step f ip st ⟨s',Function.update st.left c ((st.left c).drop (min (st.left c).length maxWrite)),
        st.done ++ [(c,st.chunk c)],st.failed⟩
  | refused {st : Shared C} (c : C) {s' : Sys} (hleft : st.left c ≠ [])
      (hrun : writeChunk f ip (st.chunk c) st.sys = .ok none s') :
      Step f ip st ⟨s',Function.update st.left c [],st.done,st.failed ++ [c]⟩
  | other {st : Shared C} {s' : Sys} (hready : Writable f ip s') (hfile : s'.file f = st.sys.file f)
      (hsize : (s'.inode ip).size = (st.sys.inode ip).size)
      (hsame : contents s'.block (s'.inode ip) = contents st.sys.block (st.sys.inode ip)) :
      Step f ip st { st with sys := s' }

abbrev Run (f : FileNo) (ip : ℕ) : Shared C → Shared C → Prop := Relation.ReflTransGen (Step f ip)

def chunks (src : List UInt8) : List (List UInt8) :=
  if src = [] then []
  else src.take (min src.length maxWrite) :: chunks (src.drop (min src.length maxWrite))
termination_by src.length
decreasing_by
  have hpos := List.length_pos_iff.mpr ‹_›
  have hmax : 0 < maxWrite := by decide
  rw [List.length_drop]
  omega

def chunksOf (c : C) (done : List (C × List UInt8)) : List (List UInt8) := (done.filter fun d => d.1 = c).map Prod.snd

end System

section Invariant

theorem chunks_cons {src : List UInt8} (h : src ≠ []) :
    chunks src = src.take (min src.length maxWrite) :: chunks (src.drop (min src.length maxWrite)) := by
  rw [chunks,if_neg h]

theorem chunksOf_append (c : C) (done : List (C × List UInt8)) (c' : C) (w : List UInt8) :
    chunksOf c (done ++ [(c',w)]) = chunksOf c done ++ if c' = c then [w] else [] := by
  unfold chunksOf
  rw [List.filter_append,List.map_append]
  by_cases h : c' = c
  · simp [h]
  · simp [h]

theorem room_update {left : C → List UInt8} {c : C} {size total m : ℕ} {w : List UInt8}
    (h : ∀ A : Finset C, size+∑ c ∈ A, (left c).length ≤ total) (hw : w.length+m = (left c).length) (A : Finset C) :
    size+m+∑ k ∈ A, (Function.update left c w k).length ≤ total := by
  have hall := h (insert c (A.erase c))
  rw [Finset.sum_insert (Finset.notMem_erase c A)] at hall
  have hothers : ∑ k ∈ A.erase c, (update left c w k).length = ∑ k ∈ A.erase c, (left k).length := by
    refine Finset.sum_congr rfl fun k hk => ?_
    rw [update_of_ne (Finset.ne_of_mem_erase hk)]
  have hmine : ∑ k ∈ A, (update left c w k).length ≤ w.length+∑ k ∈ A.erase c, (left k).length := by
    rw [← hothers]
    by_cases hc : c ∈ A
    · rw [← Finset.add_sum_erase A _ hc,update_self]
    · rw [Finset.erase_eq_of_notMem hc]
      omega
  omega

variable [sb : Superblock] {s : Sys} {buf : C → List UInt8} {st st' : Shared C}

/-- The chunks follow the old contents in the order they were written, and the rest fits. -/
structure Appended (f : FileNo) (ip : ℕ) (s : Sys) (buf : C → List UInt8) (st : Shared C) : Prop where
  ready : Writable f ip st.sys
  atEnd : (st.sys.file f).off = (st.sys.inode ip).size
  contents : contents st.sys.block (st.sys.inode ip) = contents s.block (s.inode ip) ++ (st.done.map Prod.snd).flatten
  order : ∀ c, chunksOf c st.done ++ chunks (st.left c) = chunks (buf c)
  room : ∀ A : Finset C, (st.sys.inode ip).size+∑ c ∈ A, (st.left c).length ≤ MAXFILE*BSIZE
  successful : st.failed = []

theorem Appended.fits (h : Appended f ip s buf st) (c : C) : (st.sys.file f).off+(st.chunk c).length ≤ MAXFILE*BSIZE := by
  have hroom := h.room {c}
  rw [Finset.sum_singleton,← h.atEnd] at hroom
  have hlen : (st.chunk c).length ≤ (st.left c).length := List.length_take_le' _ _
  omega

omit [DecidableEq C] sb in
theorem Shared.length_chunk (st : Shared C) (c : C) : (st.chunk c).length = min (st.left c).length maxWrite := by
  rw [Shared.chunk,List.length_take]
  omega

/-- Where the disk has the blocks that the next chunk needs, the call writes it. -/
theorem Appended.writes {c : C} (h : Appended f ip s buf st) (hleft : st.left c ≠ [])
    (hfree : need st.sys.block (st.sys.inode ip) (st.sys.file f).off (st.chunk c).length ≤ free st.sys.used) :
    ∃ s', Step f ip st ⟨s',Function.update st.left c ((st.left c).drop (min (st.left c).length maxWrite)),
      st.done ++ [(c,st.chunk c)],st.failed⟩ ∧ free st.sys.used ≤
        free s'.used+need st.sys.block (st.sys.inode ip) (st.sys.file f).off (st.chunk c).length := by
  rcases writeChunk_cases h.ready (st.chunk c) (h.fits c) with ⟨s',hrun,hchunk⟩ | ⟨s',-,hfull⟩
  · rw [st.length_chunk] at hrun
    obtain ⟨n,hused,hneed⟩ := hchunk.left
    have hn := hneed 0
    rw [Nat.add_zero] at hn
    exact ⟨s',.write c hleft hrun,by omega⟩
  · omega

theorem Appended.step (h : Appended f ip s buf st) (hstep : Step f ip st st') : Appended f ip s buf st' := by
  cases hstep with
  | @write c s' hleft hrun =>
    have hlen := st.length_chunk c
    obtain ⟨s'',hrun',hchunk⟩ : ∃ s'', writeChunk f ip (st.chunk c) st.sys = .ok (some (st.chunk c).length) s'' ∧
        Chunked f ip (st.chunk c) st.sys s'' := by
      refine (writeChunk_cases h.ready (st.chunk c) (h.fits c)).resolve_right ?_
      rintro ⟨s'',hrun',-⟩
      rw [hrun] at hrun'
      cases hrun'
    obtain rfl : s' = s'' := by
      rw [hrun] at hrun'
      exact (EStateM.Result.ok.inj hrun').2
    have hold : (st.sys.file f).off = (Fs.contents st.sys.block (st.sys.inode ip)).length := by rw [length_contents,h.atEnd]
    have hnew : Fs.contents s'.block (s'.inode ip) = Fs.contents st.sys.block (st.sys.inode ip) ++ st.chunk c := by
      rw [hchunk.contents,hold,overwrite_length]
    have hsize : (s'.inode ip).size = (st.sys.inode ip).size+min (st.left c).length maxWrite := by
      rw [← length_contents s'.block,hnew,List.length_append,length_contents,hlen]
    refine ⟨hchunk.ready,?_,?_,fun k => ?_,fun A => ?_,h.successful⟩
    · rw [hchunk.offset,hsize,h.atEnd,hlen]
    · rw [hnew,h.contents,List.map_append,List.flatten_append,List.append_assoc]
      simp
    · dsimp only
      rw [chunksOf_append,← h.order k]
      by_cases hk : c = k
      · subst hk
        rw [if_pos rfl,update_self,chunks_cons hleft,List.append_assoc]
        rfl
      · rw [if_neg hk,update_of_ne (Ne.symm hk),List.append_nil]
    · rw [hsize]
      exact room_update h.room (by rw [List.length_drop]; omega) A
  | refused c hleft hrun =>
    rcases writeChunk_cases h.ready (st.chunk c) (h.fits c) with ⟨s'',hrun',-⟩ | ⟨s'',hrun',-⟩
    · rw [hrun] at hrun'
      cases hrun'
    · rw [hrun] at hrun'
      cases hrun'
  | other hready hfile hsize hsame =>
    exact ⟨hready,by rw [hfile,hsize]; exact h.atEnd,hsame.trans h.contents,h.order,by rw [hsize]; exact h.room,h.successful⟩

theorem Appended.run (h : Appended f ip s buf st) (hrun : Run f ip st st') : Appended f ip s buf st' := by
  induction hrun with
  | refl => exact h
  | tail _ hstep ih => exact ih.step hstep

end Invariant

section Results

theorem chunks_short {src : List UInt8} (hne : src ≠ []) (hlen : src.length ≤ maxWrite) : chunks src = [src] := by
  rw [chunks_cons hne,Nat.min_eq_left hlen,List.take_length,List.drop_length,chunks,if_pos rfl]

variable [sb : Superblock]

/-- A call that is not interrupted takes the rounds of `filewrite`. -/
theorem run_writeChunks {t : Shared C} {c : C} {fuel : ℕ} {ok : Bool} {s' : Sys} (hfuel : (t.left c).length ≤ fuel)
    (h : writeChunks f ip fuel (t.left c) t.sys = .ok ok s') :
    ∃ t', Run f ip t t' ∧ t'.sys = s' ∧ t'.left = Function.update t.left c [] ∧
      t'.failed = t.failed ++ if ok then [] else [c] := by
  induction fuel generalizing t with
  | zero =>
    have hnil := List.length_eq_zero_iff.mp (Nat.le_zero.mp hfuel)
    cases h
    exact ⟨t,.refl,rfl,by rw [← hnil,update_eq_self],(List.append_nil _).symm⟩
  | succ fuel ih =>
    by_cases hnil : t.left c = []
    · rw [writeChunks,if_pos hnil] at h
      cases h
      exact ⟨t,.refl,rfl,by rw [← hnil,update_eq_self],(List.append_nil _).symm⟩
    · rw [writeChunks_succ f ip fuel hnil,bind_eq_ok] at h
      obtain ⟨r,s₁,hrun,h⟩ := h
      cases r with
      | none =>
        cases h
        exact ⟨_,.single (.refused c hnil hrun),rfl,rfl,rfl⟩
      | some r =>
        dsimp only at h
        split at h
        · cases h
        · rename_i hr
          rw [not_not.mp hr] at hrun
          have hpos := List.length_pos_iff.mpr hnil
          have hmax : 0 < maxWrite := by decide
          have hless : ((t.left c).drop (min (t.left c).length maxWrite)).length ≤ fuel := by
            rw [List.length_drop]
            omega
          -- What the call has left is at its place again before the next round.
          rw [← update_self c ((t.left c).drop (min (t.left c).length maxWrite)) t.left] at h hless
          obtain ⟨t',hrun',hsys,hleft,hfailed⟩ := ih (t := ⟨s₁,update t.left c ((t.left c).drop
            (min (t.left c).length maxWrite)),t.done ++ [(c,t.chunk c)],t.failed⟩) hless h
          exact ⟨t',.head (.write c hnil hrun) hrun',hsys,hleft.trans (update_idem ..),hfailed⟩

/-- However the rounds of the calls are interleaved, no byte is lost: the file grows by the chunks of the calls, each once
and the chunks of a call in order; a call of one chunk is written in one piece. A call that has bytes left writes its next
chunk if the disk has the blocks for it. -/
theorem shared_writers (s : Sys) (buf : C → List UInt8) (hready : Writable f ip s)
    (hend : (s.file f).off = (s.inode ip).size)
    (hroom : ∀ A : Finset C, (s.inode ip).size+∑ c ∈ A, (buf c).length ≤ MAXFILE*BSIZE)
    (st : Shared C) (hrun : Run f ip ⟨s,buf,[],[]⟩ st) :
    contents st.sys.block (st.sys.inode ip) = contents s.block (s.inode ip) ++ (st.done.map Prod.snd).flatten ∧
    (st.sys.file f).off = (st.sys.inode ip).size ∧ st.failed = [] ∧
    (∀ c, chunksOf c st.done ++ chunks (st.left c) = chunks (buf c)) ∧
    (∀ c, buf c ≠ [] → (buf c).length ≤ maxWrite → st.left c = [] → chunksOf c st.done = [buf c]) ∧
    ∀ c, st.left c ≠ [] →
      need st.sys.block (st.sys.inode ip) (st.sys.file f).off (st.chunk c).length ≤ free st.sys.used →
      ∃ s', Step f ip st ⟨s',Function.update st.left c ((st.left c).drop (min (st.left c).length maxWrite)),
        st.done ++ [(c,st.chunk c)],st.failed⟩ ∧ free st.sys.used ≤
          free s'.used+need st.sys.block (st.sys.inode ip) (st.sys.file f).off (st.chunk c).length := by
  have hstart : Appended f ip s buf ⟨s,buf,[],[]⟩ := ⟨hready,hend,(List.append_nil _).symm,fun _ => rfl,hroom,rfl⟩
  have h := hstart.run hrun
  refine ⟨h.contents,h.atEnd,h.successful,h.order,fun c hne hlen hdone => ?_,fun c => h.writes⟩
  have horder := h.order c
  rw [hdone,chunks_short hne hlen,chunks,if_pos rfl,List.append_nil] at horder
  exact horder

end Results

section Instances

def twoBuffers (b : Bool) : List UInt8 := if b then [1] else List.replicate 2000 7

/-- One call is written between the two chunks of the other. -/
theorem shared_writers_twoBuffers : ∃ (_ : Superblock) (st : Shared Bool), Writable 0 2 oneFile ∧
    Run 0 2 ⟨oneFile,twoBuffers,[],[]⟩ st ∧ st.left = (fun _ => []) ∧ contents st.sys.block (st.sys.inode 2) =
      (twoBuffers false).take 1536 ++ twoBuffers true ++ (twoBuffers false).drop 1536 := by
  let := smallDisk
  have hmax : MAXFILE*BSIZE = 71680 := rfl
  have hwrite : maxWrite = 1536 := rfl
  have hlong : (twoBuffers false).length = 2000 := List.length_replicate
  have hshort : (twoBuffers true).length = 1 := rfl
  have hroom : ∀ A : Finset Bool, (oneFile.inode 2).size+∑ c ∈ A, (twoBuffers c).length ≤ MAXFILE*BSIZE := by
    intro A
    have hsum := Finset.sum_le_sum_of_subset (f := fun c => (twoBuffers c).length) (Finset.subset_univ A)
    rw [Fintype.sum_bool,hlong,hshort] at hsum
    rw [size_oneFile]
    omega
  have hall := fun st => shared_writers oneFile twoBuffers writable_oneFile rfl hroom st
  have hnext : ∀ {s left done} (c : Bool) (w r : List UInt8) (k : ℕ), Run 0 2 ⟨oneFile,twoBuffers,[],[]⟩ ⟨s,left,done,[]⟩ →
      left c = w ++ r → w ≠ [] → w.length = min (left c).length maxWrite → k+6 ≤ free s.used → ∃ s', k ≤ free s'.used ∧
        Run 0 2 ⟨oneFile,twoBuffers,[],[]⟩ ⟨s',update left c r,done ++ [(c,w)],[]⟩ := by
    intro s left done c w r k hrun hleft hne hlen hfree
    have hchunk : Shared.chunk ⟨s,left,done,[]⟩ c = w := by
      simp only [Shared.chunk,← hlen]
      rw [hleft,List.take_left]
    have hneed := @need_le (s.file 0).off w.length s.block (s.inode 2)
    rw [BSIZE_eq] at hneed
    obtain ⟨s',hstep,hused⟩ := (hall _ hrun).2.2.2.2.2 c (by simp [hleft,hne]) (by rw [hchunk]; dsimp only; omega)
    rw [hchunk] at hstep hused
    simp only [← hlen] at hstep
    rw [hleft,List.drop_left] at hstep
    exact ⟨s',by dsimp only at hused; omega,hrun.tail hstep⟩
  have hfree : free oneFile.used = 60 := by decide +kernel
  have htake : ((twoBuffers false).take 1536).length = 1536 := by rw [List.length_take,hlong]; rfl
  have hdrop : ((twoBuffers false).drop 1536).length = 464 := by rw [List.length_drop,hlong]
  obtain ⟨s₁,hfree₁,hrun₁⟩ := hnext false ((twoBuffers false).take 1536) ((twoBuffers false).drop 1536) 54 .refl
    (List.take_append_drop ..).symm (by rw [← List.length_pos_iff,htake]; omega) (by rw [htake,hlong]; rfl) hfree.ge
  obtain ⟨s₂,hfree₂,hrun₂⟩ := hnext true (twoBuffers true) [] 48 hrun₁ rfl nofun rfl hfree₁
  obtain ⟨s₃,-,hrun₃⟩ := hnext false ((twoBuffers false).drop 1536) [] 42 hrun₂ (by simp)
    (by rw [← List.length_pos_iff,hdrop]; omega) (by simp [hdrop,maxWrite]) hfree₂
  refine ⟨smallDisk,_,writable_oneFile,hrun₃,?_,?_⟩
  · funext b
    cases b <;> simp
  · have hempty : contents oneFile.block (oneFile.inode 2) = [] :=
      List.length_eq_zero_iff.mp ((length_contents ..).trans (size_oneFile 2))
    rw [(hall _ hrun₃).1,hempty]
    simp

end Instances
end Xv6.Fs.Writers
