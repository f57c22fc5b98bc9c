import Xv6.Log.Reservation

/-! # When a transaction is too big

Of all steps only `log_write` can stop the kernel for want of log space, and on a
file system built by `mkfs` it does so from the thirtieth reserved slot on, which the
log on disk does not have.
-/
namespace Xv6.Log
open Bio Program Runs

def ofCache : Stop → Bool
  | .bgetNoBuffers | .bwriteUnlocked | .brelseUnlocked | .iderwUnlocked | .iderwNothingToDo
  | .incorrectBlockno | .waiting => true
  | _ => false

def StopsInCache {α : Type} (x : BioM α) : Prop :=
  Spec (fun _ => True) x (fun _ _ => True) (fun e _ => ofCache e = true)

namespace StopsInCache
variable {α β : Type}

theorem bind {x : BioM α} {f : α → BioM β} (hx : StopsInCache x) (hf : ∀ a, StopsInCache (f a)) :
    StopsInCache (x >>= f) := Spec.bind hx hf

theorem get : StopsInCache get := fun _ _ => trivial
theorem set (c : Bcache) : StopsInCache (set c) := fun _ _ => trivial
theorem pure (a : α) : StopsInCache (pure a : BioM α) := fun _ _ => trivial
theorem throw {e : Stop} (h : ofCache e = true) : StopsInCache (throw e : BioM α) := fun _ _ => h

theorem acquiresleep (i : Fin NBUF) : StopsInCache (acquiresleep i) := by
  refine bind get (fun c => ?_)
  split
  · exact throw rfl
  · exact set _

theorem bget (b : ℕ) : StopsInCache (bget b) := by
  refine bind get (fun c => ?_)
  split
  · exact bind (set _) (fun _ => bind (acquiresleep _) (fun _ => pure _))
  · split
    · exact bind (set _) (fun _ => bind (acquiresleep _) (fun _ => pure _))
    · exact throw rfl

theorem iderw (i : Fin NBUF) : StopsInCache (iderw i) := by
  refine bind get (fun c => ?_)
  dsimp only
  split
  · exact throw rfl
  · split
    · exact throw rfl
    · split
      · exact throw rfl
      · split
        · exact set _
        · exact set _

theorem bread (b : ℕ) : StopsInCache (bread b) := by
  refine bind (bget b) (fun i => bind get (fun c => ?_))
  split
  · exact bind (iderw i) (fun _ => pure _)
  · exact pure _

theorem bwrite (i : Fin NBUF) : StopsInCache (bwrite i) := by
  refine bind get (fun c => ?_)
  split
  · exact throw rfl
  · exact bind (set _) (fun _ => iderw i)

theorem brelse (i : Fin NBUF) : StopsInCache (brelse i) := by
  refine bind get (fun c => ?_)
  split
  · exact throw rfl
  · dsimp only
    split
    · exact set _
    · exact set _

theorem setData (i : Fin NBUF) (v : Block) : StopsInCache (setData i v) := fun _ _ => trivial

theorem copyBuf (x y : Fin NBUF) : StopsInCache (copyBuf x y) :=
  bind get (fun _ => bind (setData _ _) (fun _ => bind (bwrite _) (fun _ => bind (brelse _) (fun _ => brelse _))))

theorem writeLogBlock (g : Geometry) (lh : LogHeader) (tail : ℕ) : StopsInCache (writeLogBlock g lh tail) :=
  bind (bread _) (fun _ => bind (bread _) (fun _ => copyBuf _ _))

theorem installBlock (g : Geometry) (lh : LogHeader) (tail : ℕ) : StopsInCache (installBlock g lh tail) :=
  bind (bread _) (fun _ => bind (bread _) (fun _ => copyBuf _ _))

theorem writeHead (g : Geometry) (lh : LogHeader) : StopsInCache (writeHead g lh) :=
  bind (bread _) (fun _ => bind get (fun _ => bind (setData _ _) (fun _ => bind (bwrite _) (fun _ => brelse _))))

theorem call {x : BioM α} (hx : StopsInCache x) {s : Sys} {k : α → Bcache → Sys} {e : Stop}
    (h : s.call x k = .error (.stop e)) : ofCache e = true := by
  unfold Sys.call at h
  cases hxc : x s.c with
  | ok a c' => simp [hxc] at h
  | error e' c' =>
    have he := Spec.error hx trivial hxc
    rw [hxc] at h
    cases e' <;> cases h <;> exact he

end StopsInCache

def Calls (s : Sys) (p : Pid) (i : Fin NBUF) (b : ℕ) : Prop :=
  s.phase p = .inOp ∧ s.owner i = some p ∧ (s.c.buf i).blockno = b

theorem step_stop {g : Geometry} {s : Sys} {a : Action} {e : Stop} (h : s.step g a = .error (.stop e)) :
    ofCache e = true ∨
    (∃ p i b, a = .logWrite p i b ∧ Calls s p i b ∧ logCheck g s.outstanding s.lh = some e) ∨
    (∃ p i b, a = .logRecord p b ∧ s.phase p = .logging i ∧ (s.c.buf i).blockno = b ∧
      s.lh.record b = none ∧ e = .headerOverflow) ∨
    (∃ p, a = .endOp p ∧ s.phase p = .inOp ∧ e = .logCommitting) := by
  cases a with
  | beginOp p =>
    simp only [Sys.step,Sys.beginOp] at h
    split at h
    · split at h
      · cases h
      · split at h <;> cases h
    · cases h
  | kill p =>
    simp only [Sys.step,Sys.kill] at h
    split at h <;> cases h
  | bread p b =>
    simp only [Sys.step,Sys.bread] at h
    split at h
    · exact Or.inl ((StopsInCache.bread b).call h)
    · cases h
  | modify p i v =>
    simp only [Sys.step,Sys.modify] at h
    split at h
    · exact Or.inl ((StopsInCache.setData i v).call h)
    · cases h
  | brelse p i =>
    simp only [Sys.step,Sys.brelse] at h
    split at h
    · exact Or.inl ((StopsInCache.brelse i).call h)
    · cases h
  | logWrite p i b =>
    simp only [Sys.step,Sys.logWrite] at h
    split at h
    · rename_i hp
      split at h
      · rename_i e' he
        cases h
        exact Or.inr (Or.inl ⟨p,i,b,rfl,hp,he⟩)
      · cases h
    · cases h
  | logRecord p b =>
    simp only [Sys.step,Sys.logRecord] at h
    split at h
    · rename_i i hp
      split at h
      · rename_i hb
        split at h
        · cases h
        · rename_i hr
          cases h
          exact Or.inr (Or.inr (Or.inl ⟨p,i,b,rfl,hp,hb,hr,rfl⟩))
      · cases h
    · cases h
  | endOp p =>
    simp only [Sys.step,Sys.endOp] at h
    split at h
    · rename_i hp
      split at h
      · cases h
        exact Or.inr (Or.inr (Or.inr ⟨p,rfl,hp,rfl⟩))
      · split at h <;> cases h
    · cases h
  | commitStep p =>
    simp only [Sys.step,Sys.commitStep] at h
    split at h
    · cases h
    · split at h
      · exact Or.inl ((StopsInCache.writeLogBlock g _ _).call h)
      · cases h
    · exact Or.inl ((StopsInCache.writeHead g _).call h)
    · split at h
      · exact Or.inl ((StopsInCache.installBlock g _ _).call h)
      · cases h
    · exact Or.inl ((StopsInCache.writeHead g _).call h)
    · cases h
  | commitDone p =>
    simp only [Sys.step,Sys.commitDone] at h
    split at h <;> cases h

theorem logCheck_tooBig {g : Geometry} {outstanding : ℤ} {lh : LogHeader} :
    logCheck g outstanding lh = some .tooBigTransaction ↔ LOGSIZE ≤ lh.n ∨ g.size-1 ≤ lh.n := by
  unfold logCheck
  constructor
  · intro h
    by_contra hroom
    rw [if_neg hroom] at h
    split at h <;> cases h
  · intro hroom
    exact if_pos hroom

/-- Only `log_write` can stop the kernel for a transaction that is too big. -/
theorem step_tooBig_iff {g : Geometry} {s : Sys} {a : Action} :
    s.step g a = .error (.stop .tooBigTransaction) ↔
      ∃ p i b, a = .logWrite p i b ∧ Calls s p i b ∧ (LOGSIZE ≤ s.lh.n ∨ g.size-1 ≤ s.lh.n) := by
  constructor
  · intro h
    rcases step_stop h with hc | ⟨p,i,b,ha,hp,hk⟩ | ⟨_,_,_,_,_,_,_,he⟩ | ⟨_,_,_,he⟩
    · cases hc
    · exact ⟨p,i,b,ha,hp,logCheck_tooBig.mp hk⟩
    · cases he
    · cases he
  · rintro ⟨p,i,b,rfl,hp,hroom⟩
    unfold Calls at hp
    simp only [Sys.step,Sys.logWrite,if_pos hp,logCheck_tooBig.mpr hroom]

theorem admits_reserved (s : Sys) : Admits MAXOPBLOCKS LOGSIZE s := fun _ h => h

/-- The header count is the number of distinct blocks logged since the last commit. -/
theorem count_eq {g : Geometry} {s₀ s : Sys} {t : List Action} (h₀ : s₀.Initial)
    (h : Run (Ok (Sys.step g)) s₀ t s) {p : Pid} (hp : (s.phase p).active = true) :
    s.lh.n = (loggedSince t).card := by
  obtain ⟨hctl,_,hrec⟩ := ProtocolInv.run h₀ h
  have hl := hrec.listed (hctl.not_committing hp)
  have heq : loggedSince t = s.lh.blocks.toFinset := by
    ext b
    rw [List.mem_toFinset,hl.mem]
  rw [heq,List.toFinset_card_of_nodup hl.nodup,LogHeader.length_blocks]

/-- No call of `log_write` comes after `LOGSIZE-1` distinct blocks were logged since
the last commit. -/
def SpareSlot (s₀ : Sys) (t : List Action) : Prop :=
  ∀ pre p i b s, pre ++ [.logWrite p i b] <+: t → Run (Ok (Sys.step mkfsGeometry)) s₀ pre s →
    Calls s p i b → (loggedSince pre).card < LOGSIZE-1

theorem LogHeader.record_eq_none {lh : LogHeader} {b : ℕ} (hn : lh.n ≤ LOGSIZE) (h : lh.record b = none) :
    lh.n = LOGSIZE ∧ b ∉ lh.blocks := by
  have hi : LOGSIZE ≤ lh.indexOf b := by
    by_contra hi
    simp [LogHeader.record,show lh.indexOf b < LOGSIZE by omega] at h
  have hle := lh.indexOf_le b
  exact ⟨by omega,LogHeader.indexOf_eq_n.mp (by omega)⟩

theorem record_in_bounds {g : Geometry} {s₀ s : Sys} {t : List Action} (h₀ : s₀.Initial)
    (h : Run (Ok (Sys.step g)) s₀ t s) (hw : Within MAXOPBLOCKS t) (a : Action) :
    s.step g a ≠ .error (.stop .headerOverflow) := by
  intro he
  rcases step_stop he with hc | ⟨_,_,_,_,_,hk⟩ | ⟨p,i,b,_,hp,hb,hr,_⟩ | ⟨_,_,_,he⟩
  · cases hc
  · unfold logCheck at hk
    split at hk
    · cases hk
    · split at hk <;> cases hk
  · obtain ⟨hctl,_,hrec⟩ := ProtocolInv.run h₀ h
    obtain ⟨A,hA⟩ := Reserved.run h₀ (fun _ s _ => admits_reserved s) h hw
    have hact : (s.phase p).active = true := by
      rw [hp]
      rfl
    obtain ⟨hn,hnb⟩ := LogHeader.record_eq_none hrec.size hr
    have hl := hrec.listed (hctl.not_committing hact)
    have hdemand := hA.demand
    rw [← Reservation.demand_insert_base ((hA.mem p).mpr hact) (hb ▸ hA.logging p i hp)] at hdemand
    have hcard := Reservation.card_le_demand.trans hdemand
    rw [Finset.card_insert_of_notMem (by rwa [List.mem_toFinset]),List.toFinset_card_of_nodup hl.nodup,
      LogHeader.length_blocks] at hcard
    omega
  · cases he

/-- On a file system built by `mkfs`, operations within their reservation never store
past the header array, and they stop the kernel for want of log space exactly when
`log_write` is called after `LOGSIZE-1` distinct blocks. -/
theorem log_space {s₀ : Sys} {t : List Action} (h₀ : s₀.Initial) (hw : Within MAXOPBLOCKS t) :
    (exec (Sys.step mkfsGeometry) s₀ t ≠ .error (.stop .tooBigTransaction) ↔ SpareSlot s₀ t) ∧
      exec (Sys.step mkfsGeometry) s₀ t ≠ .error (.stop .headerOverflow) := by
  have hroom : ∀ {pre s p i b}, Run (Ok (Sys.step mkfsGeometry)) s₀ pre s → Calls s p i b →
      ((LOGSIZE ≤ s.lh.n ∨ mkfsGeometry.size-1 ≤ s.lh.n) ↔ LOGSIZE-1 ≤ (loggedSince pre).card) := by
    intro pre s p i b hrun hcall
    rw [← count_eq h₀ hrun (p := p) (by rw [hcall.1]; rfl)]
    simp only [mkfsGeometry]
    omega
  refine ⟨⟨?_,?_⟩,?_⟩
  · intro hne pre p i b s hpre hrun hcall
    by_contra hfull
    apply hne
    obtain ⟨post,rfl⟩ := hpre
    have hstep := step_tooBig_iff.mpr ⟨p,i,b,rfl,hcall,(hroom hrun hcall).mpr (by omega)⟩
    rw [exec_append,exec_append,exec_eq_ok.mpr hrun]
    simp only [exec,hstep]
  · intro hspare he
    obtain ⟨pre,a,s,hpre,hrun,hstep⟩ := exec_eq_error he
    obtain ⟨p,i,b,rfl,hcall,hfull⟩ := step_tooBig_iff.mp hstep
    have := hspare pre p i b s hpre hrun hcall
    have := (hroom hrun hcall).mp hfull
    omega
  · intro he
    obtain ⟨pre,a,s,hpre,hrun,hstep⟩ := exec_eq_error he
    refine record_in_bounds h₀ hrun ?_ a hstep
    intro pre' hpre' p
    exact hw pre' (hpre'.trans ((List.prefix_append _ _).trans hpre)) p

theorem opBlocks_subset {p : Pid} {S : Finset ℕ} {t : List Action}
    (h : ∀ a ∈ t, ∀ i b, a = .logWrite p i b → b ∈ S) : opBlocks p t ⊆ S := by
  induction t using List.reverseRecOn with
  | nil => simp [opBlocks]
  | append_singleton t a ih =>
    have hpre := ih (fun a ha => h a (List.mem_append_left _ ha))
    rw [opBlocks_snoc]
    cases a with
    | logWrite q i b =>
      simp only [passed]
      split
      · rename_i hq
        subst hq
        exact Finset.insert_subset (h _ (by simp) i b rfl) hpre
      · exact hpre
    | endOp q =>
      simp only [passed]
      split
      · exact Finset.empty_subset _
      · exact hpre
    | _ => exact hpre

def logOne (k : ℕ) : List Action :=
  let i : Fin NBUF := Fin.ofNat NBUF k
  [.bread (k/10) (100+k),.logWrite (k/10) i (100+k),.logRecord (k/10) (100+k),.brelse (k/10) i]

def threeOps : List Action :=
  [.beginOp 0,.beginOp 1,.beginOp 2] ++ (List.range 30).flatMap logOne

def inOwnRange : Action → Bool
  | .logWrite p _ b => decide (b ∈ Finset.Ico (100+10*p) (100+10*p+MAXOPBLOCKS))
  | _ => true

theorem threeOps_within : Within MAXOPBLOCKS threeOps := by
  have hall : ∀ a ∈ threeOps, inOwnRange a = true := by decide +kernel
  intro pre hpre p
  have hsub : opBlocks p pre ⊆ Finset.Ico (100+10*p) (100+10*p+MAXOPBLOCKS) := by
    apply opBlocks_subset
    rintro a ha i b rfl
    simpa only [inOwnRange,decide_eq_true_eq] using hall _ (hpre.subset ha)
  have hcard := Finset.card_le_card hsub
  rwa [Nat.card_Ico,Nat.add_sub_cancel_left] at hcard

def haltOf (r : Except Halt Sys) : Option Halt :=
  match r with
  | .ok _ => none
  | .error e => some e

theorem eq_error_of_haltOf {r : Except Halt Sys} {e : Halt} (h : haltOf r = some e) : r = .error e := by
  cases r with
  | ok s => cases h
  | error e' =>
    cases h
    rfl

/-- Three operations that use their whole reservation bring the kernel down. -/
theorem threeOps_tooBig : Within MAXOPBLOCKS threeOps ∧
    exec (Sys.step mkfsGeometry) (Sys.booted (fun _ _ => 0)) threeOps = .error (.stop .tooBigTransaction) :=
  ⟨threeOps_within,eq_error_of_haltOf (by decide +kernel)⟩

/-- The same operations up to the twenty-ninth block run through. -/
theorem log_space_before_last :
    SpareSlot (Sys.booted (fun _ _ => 0)) (threeOps.take 119) ∧
      exec (Sys.step mkfsGeometry) (Sys.booted (fun _ _ => 0)) (threeOps.take 119) ≠
        .error (.stop .headerOverflow) := by
  have hw : Within MAXOPBLOCKS (threeOps.take 119) :=
    fun pre hpre => threeOps_within pre (hpre.trans (List.take_prefix _ _))
  obtain ⟨hiff,hbound⟩ := log_space (Sys.booted_initial _) hw
  refine ⟨hiff.mp ?_,hbound⟩
  intro he
  have hnone : haltOf (exec (Sys.step mkfsGeometry) (Sys.booted (fun _ _ => 0)) (threeOps.take 119)) = none := by
    decide +kernel
  rw [he] at hnone
  cases hnone

end Xv6.Log
