import Xv6.Log.CrashSafety
import Xv6.Library.Runs

/-! # The disk over its whole life

Groups are committed one after another, and the power may fail at any moment: while a
group runs, inside its commit, inside every recovery after that. After each of these events
the home blocks are those of the groups so far. Only the group that was cut off may be
missing, and then it is missing as a whole.
-/
namespace Xv6.Log
open Bio Program RedoLog Runs Function

section Dirty
variable {c c' : Bcache} {bs : List ℕ} {i : Fin NBUF} {b e : ℕ} {u : Unit}

/-- The dirty buffers are those of some of the blocks `bs`. -/
structure DirtyIn (bs : List ℕ) (c : Bcache) : Prop where
  indexed : Indexed c
  dirty : ∀ i, (c.buf i).dirty = true → (c.buf i).blockno ∈ bs

theorem DirtyIn.bread (h : DirtyIn bs c) (hb : Bio.bread b c = .ok i c') : DirtyIn bs c' := by
  obtain ⟨c1,hget,hload⟩ := bread_ok (fun j hj => (h.indexed.dirty_valid j hj).2) hb
  refine ⟨(bread_indexed h.indexed hb).1,fun j hj => ?_⟩
  have h1 : (c1.buf j).dirty = true ∧ (c1.buf j).blockno = (c'.buf j).blockno := by
    rcases hload with ⟨_,rfl⟩ | ⟨_,_,_,rfl⟩
    · exact ⟨hj,rfl⟩
    · obtain ⟨_,hblock,hd⟩ := loaded_fields c1 i j
      exact ⟨hd ▸ hj,hblock.symm⟩
  rw [← h1.2]
  rcases hget with ⟨_,_,rfl⟩ | ⟨_,_,_,rfl⟩
  · obtain ⟨_,hblock,_,hd,_⟩ := hit_sameContents c i j
    exact hblock ▸ h.dirty j (hd ▸ h1.1)
  · have hji : j ≠ i := by
      rintro rfl
      simp [recycled] at h1
    have hsame : (recycled c b i).buf j = c.buf j := setBuf_ne c hji _
    rw [hsame] at h1 ⊢
    exact h.dirty j h1.1

/-- A held buffer is clean once it has been written. -/
theorem DirtyIn.written (h : DirtyIn (b :: bs) c) (hi : Held c i b) (v : Block) : DirtyIn bs (Bio.written c i v) := by
  refine ⟨written_indexed h.indexed hi.dev v,fun j hj => ?_⟩
  have hji : j ≠ i := by
    rintro rfl
    simp [Bio.written,filled_self] at hj
  have hsame : (Bio.written c i v).buf j = c.buf j := filled_ne c hji v false
  rw [hsame] at hj ⊢
  refine (List.mem_cons.mp (h.dirty j hj)).resolve_left fun hb => hji ?_
  exact h.indexed.unique j i (h.indexed.dirty_valid j hj).1 hi.dev (hb.trans hi.blockno.symm)

theorem DirtyIn.released (h : DirtyIn bs c) (i : Fin NBUF) : DirtyIn bs (Bio.released c i) := by
  refine ⟨released_indexed h.indexed i,fun j hj => ?_⟩
  obtain ⟨_,hb,_,hd,_⟩ := released_sameContents c i j
  exact hb ▸ h.dirty j (hd ▸ hj)

theorem DirtyIn.mono {cs : List ℕ} (h : DirtyIn bs c) (hsub : bs ⊆ cs) : DirtyIn cs c :=
  ⟨h.indexed,fun i hi => hsub (h.dirty i hi)⟩

theorem DirtyIn.reads {x y : Fin NBUF} {d d' : Bcache} (h : DirtyIn bs c) (hx : Bio.bread e c = .ok x d)
    (hy : Bio.bread b d = .ok y d') : DirtyIn bs d' ∧ Held d' x e ∧ Held d' y b := by
  have hd := h.bread hx
  obtain ⟨_,hkeep,hheld,_⟩ := bread_indexed hd.indexed hy
  exact ⟨hd.bread hy,hkeep x e (bread_indexed h.indexed hx).2.2.1,hheld⟩

theorem DirtyIn.copyBuf {dst src : Fin NBUF} (h : DirtyIn (e :: bs) c) (hd : Held c dst e)
    (hcopy : Log.copyBuf dst src c = .ok u c') : DirtyIn bs c' := by
  rw [Log.copyBuf,bind_of_ok (get_apply c)] at hcopy
  have hw := bwrite_cases hd (c.buf src).data
  obtain ⟨_,c1,hset,hcopy⟩ := bind_eq_ok.mp hcopy
  obtain ⟨_,c2,hwrite,hcopy⟩ := bind_eq_ok.mp hcopy
  obtain ⟨_,c3,hsrc,hdst⟩ := bind_eq_ok.mp hcopy
  rw [bind_of_ok hset,hwrite] at hw
  split at hw <;> cases hw
  rw [brelse_ok hdst,brelse_ok hsrc]
  exact ((h.written hd _).released src).released dst

theorem DirtyIn.writeHead {g : Geometry} {lh : LogHeader} (h : DirtyIn bs c) (hx : Log.writeHead g lh c = .ok u c') :
    DirtyIn bs c' := by
  obtain ⟨i,c1,hread,hx⟩ := bind_eq_ok.mp hx
  obtain ⟨_,_,hi,_⟩ := bread_indexed h.indexed hread
  rw [bind_of_ok (get_apply c1)] at hx
  have hw := bwrite_cases hi (encodeHeader (c1.buf i).data lh)
  obtain ⟨_,c2,hset,hx⟩ := bind_eq_ok.mp hx
  obtain ⟨_,c3,hwrite,hx⟩ := bind_eq_ok.mp hx
  rw [bind_of_ok hset,hwrite] at hw
  split at hw <;> cases hw
  rw [brelse_ok hx]
  exact (((h.bread hread).mono (List.subset_cons_self _ _)).written hi _).released i

theorem DirtyIn.forM {ι : Type} {f : ι → BioM Unit} {b : ι → ℕ}
    (hf : ∀ x bs c u c', DirtyIn (b x :: bs) c → f x c = .ok u c' → DirtyIn bs c') {xs : List ι}
    (h : DirtyIn (xs.map b ++ bs) c) (hx : xs.forM f c = .ok u c') : DirtyIn bs c' := by
  induction xs generalizing c with
  | nil =>
    cases hx
    exact h
  | cons x xs ih =>
    obtain ⟨_,c1,hx1,hx⟩ := bind_eq_ok.mp hx
    exact ih (hf x _ c _ c1 h hx1) hx

/-- A commit that returns leaves no buffer of its group dirty. -/
theorem DirtyIn.commit {g : Geometry} {lh lh' : LogHeader} (h : DirtyIn lh.blocks c) (hn : 0 < lh.n)
    (hx : Log.commit g lh c = .ok lh' c') : DirtyIn [] c' := by
  rw [Log.commit,if_pos hn] at hx
  obtain ⟨_,c1,hlog,hx⟩ := bind_eq_ok.mp hx
  obtain ⟨_,c2,hhead,hx⟩ := bind_eq_ok.mp hx
  obtain ⟨_,c3,hinstall,hx⟩ := bind_eq_ok.mp hx
  obtain ⟨_,c4,hclear,hx⟩ := bind_eq_ok.mp hx
  cases hx
  have h1 : DirtyIn lh.blocks c1 := by
    refine DirtyIn.forM (b := fun tail => g.start+tail+1) ?_ (h.mono (List.subset_append_right _ _)) hlog
    intro tail bs c u c' hc hcopy
    obtain ⟨x,d,hx,hcopy⟩ := bind_eq_ok.mp hcopy
    obtain ⟨y,d',hy,hcopy⟩ := bind_eq_ok.mp hcopy
    obtain ⟨hd,hto,_⟩ := hc.reads hx hy
    exact hd.copyBuf hto hcopy
  have h3 : DirtyIn [] c3 := by
    refine DirtyIn.forM (b := lh.blockAt) ?_ ((h1.writeHead hhead).mono (List.subset_append_left _ [])) hinstall
    intro tail bs c u c' hc hcopy
    obtain ⟨x,d,hx,hcopy⟩ := bind_eq_ok.mp hcopy
    obtain ⟨y,d',hy,hcopy⟩ := bind_eq_ok.mp hcopy
    obtain ⟨hd,_,hto⟩ := hc.reads hx hy
    exact hd.copyBuf hto hcopy
  exact h3.writeHead hclear

end Dirty

/-- A group of operations that has recorded everything it has modified. -/
structure Ran (g : Geometry) (s t : GroupState) : Prop where
  run : Relation.ReflTransGen (GroupStep g) s t
  modified : t.modified = ∅
  outside : ∀ b ∈ t.lh.blocks, g.Outside b

/-- The blocks that a group has recorded, with their new contents. -/
structure Batch where
  blocks : List ℕ
  contents : Disk

def Batch.onto (w : Batch) (d : Disk) : Disk := fun b => if b ∈ w.blocks then w.contents b else d b

def batch (t : GroupState) : Batch := ⟨t.lh.blocks,t.c.view⟩

inductive Event
  | committed (w : Batch)
  | cutOff (w : Batch)
  | lost

/-- After a power failure recovery runs, possibly cut off a number of times, until it completes. -/
inductive Life (g : Geometry) : GroupState → Event → GroupState → Prop
  | commit {s t : GroupState} {lh : LogHeader} {c : Bcache} : Ran g s t → commit g t.lh t.c = .ok lh c →
      Life g s (.committed (batch t)) ⟨c,∅,lh⟩
  | cutOff {s t : GroupState} {d d' : Disk} {lh : LogHeader} {c : Bcache} : Ran g s t →
      CrashDisk (commit g t.lh) t.c d → Relation.ReflTransGen (RecoveryCrash g) d d' →
      recoverFromLog g .zero (boot d') = .ok lh c → Life g s (.cutOff (batch t)) ⟨c,∅,lh⟩
  | lost {s t : GroupState} {d' : Disk} {lh : LogHeader} {c : Bcache} :
      Relation.ReflTransGen (GroupStep g) s t → Relation.ReflTransGen (RecoveryCrash g) t.c.disk d' →
      recoverFromLog g .zero (boot d') = .ok lh c → Life g s .lost ⟨c,∅,lh⟩

/-- What the events should do to the contents of the disk. -/
inductive Kept : Disk → Event → Disk → Prop
  | committed (w : Batch) (d : Disk) : Kept d (.committed w) (w.onto d)
  | before (w : Batch) (d : Disk) : Kept d (.cutOff w) d
  | after (w : Batch) (d : Disk) : Kept d (.cutOff w) (w.onto d)
  | lost (d : Disk) : Kept d .lost d

section Steps
variable {g : Geometry} {s t : GroupState}

theorem Ran.logged (hs : Quiet g s) (h : Ran g s t) : ∃ V, Coherent t.c V ∧ Logged g t.lh ∧ t.c.disk = s.c.disk ∧
    DirtyIn t.lh.blocks t.c := by
  obtain ⟨V,hV⟩ := Grouped.run hs h.run
  have hc := hV.coherent
  rw [h.modified,pinned_empty] at hc
  exact ⟨V,hc,⟨hV.count,hV.room,h.outside,hV.onDisk⟩,hV.disk,hc.toIndexed,hV.dirty⟩

theorem Quiet.of_clean {c : Bcache} {V : Disk} {lh : LogHeader} (hc : Coherent c V) (hclean : DirtyIn [] c)
    (hhead : diskCount (c.disk g.start) = 0) (hn : lh.n = 0) : Quiet g ⟨c,∅,lh⟩ := by
  have hbuf : ∀ i, (c.buf i).dirty = false := fun i => Bool.eq_false_iff.mpr fun hi => by simpa using hclean.dirty i hi
  have hV : c.disk = V := funext fun b => hc.clean b fun i hi => by simp [hbuf i] at hi
  exact ⟨hV ▸ hc,hbuf,rfl,hhead,hn⟩

/-- A commit that returns has brought the blocks of its group home. -/
theorem Ran.commits (hs : Quiet g s) (h : Ran g s t) {lh : LogHeader} {c : Bcache}
    (hcommit : commit g t.lh t.c = .ok lh c) :
    Quiet g ⟨c,∅,lh⟩ ∧ ∀ b, g.Outside b → c.disk b = (batch t).onto s.c.disk b := by
  obtain ⟨V,hc,hl,hdisk,hdirty⟩ := h.logged hs
  by_cases hn : 0 < t.lh.n
  · have hem := commit_emits hl hn V t.c hc
    rw [hcommit] at hem
    obtain ⟨hc',hd',_,hn',_⟩ := hem
    rw [hdisk] at hd'
    refine ⟨Quiet.of_clean hc' (hdirty.commit hn hcommit) ?_ hn',fun b hb => ?_⟩
    · have hhead : c.disk g.start = cleared t.lh (committed t.lh (V g.start)) := by
        rw [hd',g.layout.commit_writes]
        exact update_self _ _ _
      rw [hhead,diskCount_cleared]
    · rw [hd',g.layout.commit_home (hl.length_groupOf V) s.c.disk b ((g.home_iff b).mpr hb),applyWrites_groupOf,batch,
        Batch.onto,hc.view_eq]
  · rw [commit,if_neg hn] at hcommit
    cases hcommit
    have hb : t.lh.blocks = [] := by simp [LogHeader.blocks,Nat.eq_zero_of_not_pos hn]
    refine ⟨Quiet.of_clean hc (hb ▸ hdirty) (hdisk ▸ hs.header) (Nat.eq_zero_of_not_pos hn),fun b _ => ?_⟩
    rw [hdisk,batch,Batch.onto,hb]
    rfl

/-- What a recovery that completes makes of a disk, however often it was cut off before. -/
theorem Sound.recovered {d d' : Disk} (hd : Sound g d) (hcrash : Relation.ReflTransGen (RecoveryCrash g) d d') :
    ∃ lh c, recoverFromLog g .zero (boot d') = .ok lh c ∧ Quiet g ⟨c,∅,lh⟩ ∧
      g.layout.HomeEq c.disk (g.layout.replay d) := by
  obtain ⟨hd',hreplay⟩ := RecoveryCrash.run hd hcrash
  obtain ⟨lh,c,hrec,hhead,hhome⟩ := hd'.recovers
  have hem := hd'.emits.1 (boot d') (boot_coherent d')
  rw [hrec] at hem
  obtain ⟨hc,_,_,hn,hidle⟩ := hem
  exact ⟨lh,c,hrec,Quiet.of_clean hc ⟨hc.toIndexed,fun i hi => by simp [(hidle (boot_idle d')).clean i] at hi⟩ hhead hn,hhome.trans hreplay⟩

theorem Life.step {e : Event} {s' : GroupState} (hs : Quiet g s) (h : Life g s e s') : Quiet g s' ∧
    ∀ d, (∀ b, g.Outside b → s.c.disk b = d b) → ∃ d', Kept d e d' ∧ ∀ b, g.Outside b → s'.c.disk b = d' b := by
  cases h with
  | @commit t lh c hran hcommit =>
    obtain ⟨hq,hhome⟩ := hran.commits hs hcommit
    refine ⟨hq,fun d hd => ⟨_,.committed _ d,fun b hb => ?_⟩⟩
    rw [hhome b hb,Batch.onto,Batch.onto,hd b hb]
  | @cutOff t d d' lh c hran hcrash hagain hrec =>
    obtain ⟨V,hc,hl,hdisk,_⟩ := hran.logged hs
    obtain ⟨hsound,hcases⟩ := commit_crashDisk hl hc (hdisk ▸ hs.header) hcrash
    obtain ⟨lh',c',hrec',hq,hhome⟩ := hsound.recovered hagain
    cases hrec.symm.trans hrec'
    refine ⟨hq,fun e he => ?_⟩
    rw [hdisk] at hcases
    rcases hcases with h | h
    · exact ⟨e,.before _ e,fun b hb => ((hhome.trans h) b ((g.home_iff b).mpr hb)).trans (he b hb)⟩
    · refine ⟨_,.after _ e,fun b hb => ((hhome.trans h) b ((g.home_iff b).mpr hb)).trans ?_⟩
      rw [applyWrites_groupOf,batch,Batch.onto,hc.view_eq,he b hb]
  | @lost t d' lh c hrun hagain hrec =>
    obtain ⟨V,hV⟩ := Grouped.run hs hrun
    rw [hV.disk] at hagain
    obtain ⟨lh',c',hrec',hq,hhome⟩ := (Sound.of_count hs.header).recovered hagain
    cases hrec.symm.trans hrec'
    refine ⟨hq,fun e he => ⟨e,.lost e,fun b hb => ?_⟩⟩
    rw [hhome b ((g.home_iff b).mpr hb),g.layout.replay_of_entries_nil (diskBlocks_of_count hs.header),he b hb]

/-- Through any number of commits and power failures, the home blocks are those of the committed
groups, and the next power failure can be recovered from again. -/
theorem disk_durable {events : List Event} (hs : Quiet g s) (h : Run (Life g) s events t) :
    (∃ d, Run Kept s.c.disk events d ∧ ∀ b, g.Outside b → t.c.disk b = d b) ∧
      ∀ u d d', Ran g t u → CrashDisk (commit g u.lh) u.c d → Relation.ReflTransGen (RecoveryCrash g) d d' →
        ∃ lh c, recoverFromLog g .zero (boot d') = .ok lh c := by
  have hinv : Quiet g t ∧ ∃ d, Run Kept s.c.disk events d ∧ ∀ b, g.Outside b → t.c.disk b = d b := by
    refine Run.invariant (I := fun es t => Quiet g t ∧ ∃ d, Run Kept s.c.disk es d ∧
      ∀ b, g.Outside b → t.c.disk b = d b) ⟨hs,_,.nil,fun _ _ => rfl⟩ ?_ h
    rintro es u e v - ⟨hu,d,hrun,hd⟩ hstep
    obtain ⟨hv,hkept⟩ := hstep.step hu
    obtain ⟨d',hk,hd'⟩ := hkept d hd
    exact ⟨hv,d',hrun.snoc hk,hd'⟩
  refine ⟨hinv.2,fun u d d' hran hcrash hagain => ?_⟩
  obtain ⟨V,hc,hl,hdisk,_⟩ := hran.logged hinv.1
  obtain ⟨hsound,_⟩ := commit_crashDisk hl hc (hdisk ▸ hinv.1.header) hcrash
  obtain ⟨lh,c,hrec,_⟩ := hsound.recovered hagain
  exact ⟨lh,c,hrec⟩

/-- The power fails during the first commit, when the header is on the disk. -/
theorem disk_durable_first : ∃ w s, w.blocks = [100] ∧ Run (Life mkfsGeometry) bootGroup [.cutOff w] s ∧
    s.c.disk 100 = (fun _ => 7) ∧
    ∃ d, Run Kept bootGroup.c.disk [.cutOff w] d ∧ ∀ b, mkfsGeometry.Outside b → s.c.disk b = d b := by
  obtain ⟨lh,c,d,lh',c',hfirst,hblocks,hcrash,-,-,hrec,hseven⟩ := firstWrite_cutOff
  have hran : Ran mkfsGeometry bootGroup ⟨c,∅,lh⟩ := by
    refine ⟨firstWrite_steps hfirst,rfl,fun b hb => .inr ?_⟩
    rw [hblocks,List.mem_singleton] at hb
    subst hb
    decide
  have hlife := Run.nil.snoc (Life.cutOff hran hcrash .refl hrec)
  exact ⟨_,_,hblocks,hlife,hseven,(disk_durable bootGroup_quiet hlife).1⟩

end Steps
end Xv6.Log
