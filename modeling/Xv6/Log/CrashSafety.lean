import Xv6.Log.Group

/-! # Crash atomicity of the log

Commit may be cut off between any two of its disk writes, and so may every later
recovery. The recovery that completes leaves the home blocks as they were before
the group or as the group left them.
-/
namespace Xv6.Log
open Bio ByteField Program RedoLog Function

def committed (lh : LogHeader) (b : Block) : Block := encodeHeader b lh
def cleared (lh : LogHeader) (b : Block) : Block := encodeHeader b { lh with n := 0 }

theorem diskBlocks_of_count {b : Block} (h : diskCount b = 0) : diskBlocks b = [] := by
  simp [diskBlocks,h]

theorem diskCount_cleared (lh : LogHeader) (b : Block) : diskCount (cleared lh b) = 0 :=
  diskCount_encodeHeader b (Nat.zero_le _)

section Routines
variable {g : Geometry} {lh : LogHeader}

theorem groupOf_fst (lh : LogHeader) (V : Disk) : (groupOf lh V).map Prod.fst = lh.blocks := by
  simp [groupOf,Function.comp_def]

theorem Logged.length_groupOf (hl : Logged g lh) (V : Disk) : (groupOf lh V).length ≤ g.layout.capacity := by
  simpa [groupOf,Geometry.layout] using hl.room

theorem Logged.home (hl : Logged g lh) (V : Disk) : ∀ w ∈ groupOf lh V, g.layout.Home w.1 := by
  intro w hw
  obtain ⟨b,hb,rfl⟩ := List.mem_map.mp hw
  exact (g.home_iff b).mpr (hl.outside b hb)

theorem Logged.entries_committed (hl : Logged g lh) (V : Disk) (b : Block) :
    g.layout.entries (committed lh b) = (groupOf lh V).map Prod.fst := by
  rw [groupOf_fst]
  exact diskBlocks_encodeHeader b hl.count hl.onDisk

theorem commit_emits (hl : Logged g lh) (hn : 0 < lh.n) (V : Disk) :
    Emits (commit g lh) V
      (g.layout.commitWrites (groupOf lh V) (committed lh (V g.start)) (cleared lh (committed lh (V g.start))))
      (applyWrites V (g.layout.commitWrites (groupOf lh V) (committed lh (V g.start))
        (cleared lh (committed lh (V g.start))))) (fun lh' => lh'.n = 0) := by
  set V1 := applyWrites V (g.layout.logWrites (groupOf lh V)) with hV1
  set V2 := update V1 g.start (committed lh (V g.start)) with hV2
  have hstart1 : V1 g.start = V g.start :=
    (g.layout.log_phase (hl.length_groupOf V) (fun w hw => hw)).1
  obtain ⟨_,hinst⟩ := g.layout.installs_committed (hl.length_groupOf V) (hl.home V)
    (hl.entries_committed V (V g.start)) V
  have hcopies : g.layout.copies V2 lh.blocks = groupOf lh V := by
    rw [← groupOf_fst lh V,← hl.entries_committed V (V g.start)]
    have hhead : V2 g.layout.header = committed lh (V g.start) := update_self _ _ _
    rw [← hhead]
    exact hinst
  have hstart3 : applyWrites V2 (groupOf lh V) g.start = committed lh (V g.start) := by
    have h := (g.layout.log_of_home_writes (d := V2) (hl.home V)).1
    exact h.trans (update_self _ _ _)
  have hw1 := writeLog_emits hl V
  have hw2 := (writeHead_emits g lh V1).1
  rw [hstart1] at hw2
  have hw3 := (installTrans_emits hl V2).1
  rw [hcopies] at hw3
  have hw4 := (writeHead_emits g { lh with n := 0 } (applyWrites V2 (groupOf lh V))).1
  rw [hstart3] at hw4
  have h := hw1.bind (fun _ _ => hw2.bind (fun _ _ => hw3.bind (fun _ _ => hw4.bind (fun _ _ =>
    Emits.pure _ (a := { lh with n := 0 }) (R := fun lh' => lh'.n = 0) rfl))))
  rw [commit,if_pos hn]
  have hfinal : applyWrites V (g.layout.commitWrites (groupOf lh V) (committed lh (V g.start))
      (cleared lh (committed lh (V g.start)))) =
      update (applyWrites V2 (groupOf lh V)) g.start (cleared lh (committed lh (V g.start))) := by
    rw [Layout.commitWrites,applyWrites_append,applyWrites_cons,applyWrites_append]
    rfl
  rw [hfinal]
  exact h

/-- `recover_from_log` issues the writes of the abstract recovery, and returns. -/
theorem recover_emits {V : Disk} (hl : Logged g (headerOf (V g.start) lh)) :
    Emits (recoverFromLog g lh) V
        (g.layout.recoverWrites V (cleared (headerOf (V g.start) lh) (V g.start)))
        (applyWrites V (g.layout.recoverWrites V (cleared (headerOf (V g.start) lh) (V g.start))))
        (fun lh' => lh'.n = 0) ∧
      Returns (recoverFromLog g lh) V := by
  obtain ⟨hr,hr'⟩ := readHead_emits g lh (V := V) hl.count
  have hb : (headerOf (V g.start) lh).blocks = diskBlocks (V g.start) := blocks_headerOf hl.count lh
  have hinst : g.layout.copies V (headerOf (V g.start) lh).blocks = g.layout.installs V := by
    rw [hb]
    rfl
  obtain ⟨hi,hi'⟩ := installTrans_emits hl V
  rw [hinst] at hi
  have hhome : ∀ w ∈ g.layout.installs V, g.layout.Home w.1 := by
    intro w hw
    have hm := g.layout.copies_fst_mem hw
    exact (g.home_iff _).mpr (hl.outside _ (hb ▸ hm))
  have hstart : applyWrites V (g.layout.installs V) g.start = V g.start :=
    (g.layout.log_of_home_writes hhome).1
  obtain ⟨hw,hw'⟩ := writeHead_emits g { headerOf (V g.start) lh with n := 0 }
    (applyWrites V (g.layout.installs V))
  rw [hstart] at hw
  have htail : Emits (do writeHead g { headerOf (V g.start) lh with n := 0 }
                         pure { headerOf (V g.start) lh with n := 0 } : BioM LogHeader)
      (applyWrites V (g.layout.installs V)) [(g.start,cleared (headerOf (V g.start) lh) (V g.start))]
      (applyWrites V (g.layout.recoverWrites V (cleared (headerOf (V g.start) lh) (V g.start))))
      (fun lh' => lh'.n = 0) := by
    have h := hw.bind (fun _ _ => Emits.pure _ (a := { headerOf (V g.start) lh with n := 0 })
      (R := fun lh' => lh'.n = 0) rfl)
    rw [Layout.recoverWrites,applyWrites_append]
    exact h
  constructor
  · have h := hr.bind (f := fun lh1 => do
      installTrans g lh1
      let lh2 := { lh1 with n := 0 }
      writeHead g lh2
      pure lh2) (fun a ha => by subst ha; exact hi.bind (fun _ _ => htail))
    exact h
  · apply Returns.bind hr hr'
    rintro a rfl
    apply Returns.bind hi hi'
    intro _ _
    exact Returns.bind hw hw' (fun _ _ => Returns.pure _ _)

end Routines

def finalState {α : Type} (x : BioM α) (c : Bcache) : Bcache :=
  match x c with
  | .ok _ c' => c'
  | .error _ c' => c'

def CrashDisk {α : Type} (x : BioM α) (c : Bcache) (d : Disk) : Prop :=
  ∃ ws, c.issued ++ ws <+: (finalState x c).issued ∧ d = applyWrites c.disk ws

def RecoveryCrash (g : Geometry) (d d' : Disk) : Prop :=
  CrashDisk (recoverFromLog g .zero) (boot d) d'

theorem Emits.crashDisk {α : Type} {x : BioM α} {V V' : Disk} {ws : List (ℕ × Block)} {R : α → Prop}
    (h : Emits x V ws V' R) {c : Bcache} (hc : Coherent c V) {d : Disk} (hd : CrashDisk x c d) :
    ∃ k, d = applyWrites c.disk (ws.take k) := by
  obtain ⟨vs,hpre,rfl⟩ := hd
  have hx := h c hc
  have hfin : ∃ j, (finalState x c).issued = c.issued ++ ws.take j := by
    unfold finalState
    cases hxc : x c with
    | ok a c' =>
      rw [hxc] at hx
      exact ⟨ws.length,by simpa using hx.2.2.1⟩
    | error e c' =>
      rw [hxc] at hx
      obtain ⟨k,_,hi⟩ := hx
      exact ⟨k,hi⟩
  obtain ⟨j,hj⟩ := hfin
  rw [hj,List.prefix_append_right_inj] at hpre
  have hvs := List.prefix_iff_eq_take.mp hpre
  rw [List.take_take] at hvs
  exact ⟨_,by rw [hvs]⟩

def Sound (g : Geometry) (d : Disk) : Prop := Logged g (headerOf (d g.start) .zero)

theorem Sound.of_count {g : Geometry} {d : Disk} (h : diskCount (d g.start) = 0) : Sound g d := by
  have hb : (headerOf (d g.start) .zero).blocks = [] := by
    rw [blocks_headerOf (by omega),diskBlocks_of_count h]
  constructor
  · change diskCount (d g.start) ≤ LOGSIZE
    omega
  · change diskCount (d g.start) ≤ _
    omega
  · simp [hb]
  · simp [hb]

theorem Logged.sound_committed {g : Geometry} {lh : LogHeader} (hl : Logged g lh) {d : Disk} {b : Block}
    (h : d g.start = committed lh b) : Sound g d := by
  have hcount : diskCount (d g.start) = lh.n := by rw [h,committed,diskCount_encodeHeader b hl.count]
  have hb : (headerOf (d g.start) .zero).blocks = lh.blocks := by
    rw [blocks_headerOf (by rw [hcount]; exact hl.count),h,committed,
      diskBlocks_encodeHeader b hl.count hl.onDisk]
  constructor
  · change diskCount (d g.start) ≤ LOGSIZE
    rw [hcount]
    exact hl.count
  · change diskCount (d g.start) ≤ _
    rw [hcount]
    exact hl.room
  · rw [hb]
    exact hl.outside
  · rw [hb]
    exact hl.onDisk

theorem Sound.ready {g : Geometry} {d : Disk} (h : Sound g d) : g.layout.Ready d := by
  have hb : (headerOf (d g.start) .zero).blocks = diskBlocks (d g.start) := blocks_headerOf h.count _
  refine ⟨?_,?_⟩
  · change (diskBlocks (d g.start)).length ≤ g.size-1
    rw [← hb,LogHeader.length_blocks]
    exact h.room
  · intro a ha
    exact (g.home_iff a).mpr (h.outside a (hb ▸ ha))

theorem Sound.emits {g : Geometry} {d : Disk} (h : Sound g d) :
    Emits (recoverFromLog g .zero) d
        (g.layout.recoverWrites d (cleared (headerOf (d g.start) .zero) (d g.start)))
        (applyWrites d (g.layout.recoverWrites d (cleared (headerOf (d g.start) .zero) (d g.start))))
        (fun lh => lh.n = 0) ∧
      Returns (recoverFromLog g .zero) d := recover_emits h

/-- An interrupted recovery leaves a disk that recovers to the same home blocks. -/
theorem RecoveryCrash.step {g : Geometry} {d d' : Disk} (hd : Sound g d) (hc : RecoveryCrash g d d') :
    Sound g d' ∧ g.layout.HomeEq (g.layout.replay d') (g.layout.replay d) := by
  obtain ⟨k,hk⟩ := hd.emits.1.crashDisk (boot_coherent d) hc
  change d' = applyWrites d _ at hk
  have hclear := diskCount_cleared (headerOf (d g.start) .zero) (d g.start)
  obtain ⟨_,hhome⟩ := g.layout.recover_crash hd.ready (diskBlocks_of_count hclear) k
  rw [← hk] at hhome
  refine ⟨?_,hhome⟩
  rcases applyWrites_cases d ((g.layout.recoverWrites d _).take k) g.start with he | ⟨w,hw,hwa,he⟩
  · unfold Sound
    rw [hk,he]
    exact hd
  · have hw' := List.mem_of_mem_take hw
    rw [Layout.recoverWrites,List.mem_append,List.mem_singleton] at hw'
    rcases hw' with hin | rfl
    · exact absurd hwa (hd.ready.installs_home hin).1
    · apply Sound.of_count
      rw [hk,he]
      exact hclear

theorem RecoveryCrash.run {g : Geometry} {d d' : Disk} (hd : Sound g d)
    (hc : Relation.ReflTransGen (RecoveryCrash g) d d') :
    Sound g d' ∧ g.layout.HomeEq (g.layout.replay d') (g.layout.replay d) := by
  induction hc with
  | refl => exact ⟨hd,fun _ _ => rfl⟩
  | tail _ hstep ih =>
    obtain ⟨hs,he⟩ := RecoveryCrash.step ih.1 hstep
    exact ⟨hs,he.trans ih.2⟩

theorem Sound.recovers {g : Geometry} {d : Disk} (hd : Sound g d) :
    ∃ lh c, recoverFromLog g .zero (boot d) = .ok lh c ∧ diskCount (c.disk g.start) = 0 ∧
      g.layout.HomeEq c.disk (g.layout.replay d) := by
  obtain ⟨hem,hret⟩ := hd.emits
  obtain ⟨lh,c,he⟩ := hret (boot d) (boot_coherent d) (boot_idle d)
  have h := hem (boot d) (boot_coherent d)
  rw [he] at h
  obtain ⟨_,hdisk,_⟩ := h
  change c.disk = applyWrites d _ at hdisk
  refine ⟨lh,c,he,?_,?_⟩
  · rw [hdisk]
    have hh := g.layout.recover_header d (cleared (headerOf (d g.start) .zero) (d g.start))
    change applyWrites d _ g.start = _ at hh
    rw [hh]
    exact diskCount_cleared _ _
  · rw [hdisk]
    exact g.layout.recover_home

theorem applyWrites_groupOf (lh : LogHeader) (V d : Disk) (b : ℕ) :
    applyWrites d (groupOf lh V) b = if b ∈ lh.blocks then V b else d b := by
  have hown : ∀ ws : List ℕ, applyWrites V (ws.map (fun b => (b,V b))) = V := by
    intro ws
    induction ws with
    | nil => rfl
    | cons a ws ih => rw [List.map_cons,applyWrites_cons,update_eq_self,ih]
  split
  · rename_i hb
    have hw : (b,V b) ∈ groupOf lh V := List.mem_map.mpr ⟨b,hb,rfl⟩
    have h := applyWrites_congr (d := d) (e := V) (Or.inl ⟨_,hw,rfl⟩)
    exact h.trans (congrFun (hown lh.blocks) b)
  · rename_i hb
    apply applyWrites_of_notMem
    rintro w hw rfl
    obtain ⟨a,ha,rfl⟩ := List.mem_map.mp hw
    exact hb ha

/-- What a crash inside `commit` leaves behind, in terms of the abstract log. -/
theorem commit_crashDisk {g : Geometry} {lh : LogHeader} (hl : Logged g lh) {c : Bcache} {V d : Disk}
    (hc : Coherent c V) (hcount : diskCount (c.disk g.start) = 0) (hd : CrashDisk (commit g lh) c d) :
    Sound g d ∧ (g.layout.HomeEq (g.layout.replay d) c.disk ∨
      g.layout.HomeEq (g.layout.replay d) (applyWrites c.disk (groupOf lh V))) := by
  by_cases hn : 0 < lh.n
  · obtain ⟨k,rfl⟩ := (commit_emits hl hn V).crashDisk hc hd
    have hclear := diskCount_cleared lh (committed lh (V g.start))
    obtain ⟨_,hhome⟩ := g.layout.commit_crash (hl.length_groupOf V) (hl.home V)
      (hl.entries_committed V (V g.start)) (diskBlocks_of_count hclear) (diskBlocks_of_count hcount) k
    refine ⟨?_,hhome⟩
    rcases applyWrites_cases c.disk ((g.layout.commitWrites (groupOf lh V) (committed lh (V g.start))
      (cleared lh (committed lh (V g.start)))).take k) g.start with he | ⟨w,hw,hwa,he⟩
    · exact Sound.of_count (by rw [he]; exact hcount)
    · have hw' := List.mem_of_mem_take hw
      simp only [Layout.commitWrites,List.mem_append,List.mem_cons,List.not_mem_nil,or_false] at hw'
      rcases hw' with hin | rfl | hin | rfl
      · obtain ⟨i,hi,hwi⟩ := g.layout.logWrites_fst _ hin
        have hlen := hl.length_groupOf V
        exact absurd (hwi.symm.trans hwa) (g.layout.slot_ne_header i (by omega))
      · exact hl.sound_committed he
      · exact absurd hwa (hl.home V w hin).1
      · exact Sound.of_count (by rw [he]; exact hclear)
  · have hcommit : commit g lh = pure lh := if_neg hn
    rw [hcommit] at hd
    obtain ⟨k,rfl⟩ := (Emits.pure V (R := fun _ => True) trivial).crashDisk hc hd
    simp only [List.take_nil,applyWrites_nil]
    refine ⟨Sound.of_count hcount,Or.inl ?_⟩
    rw [g.layout.replay_of_entries_nil (diskBlocks_of_count hcount)]
    exact fun _ _ => rfl

def groupDisk (s t : GroupState) : Disk := fun b => if b ∈ t.lh.blocks then t.c.view b else s.c.disk b

/-- Wherever commit is cut off, and however often recovery is cut off after that,
the recovery that completes leaves all home blocks as before the group or all of
them as the group left them, and clears the header. -/
theorem commit_crash_atomic {g : Geometry} {s t : GroupState} (hs : Quiet g s)
    (hrun : Relation.ReflTransGen (GroupStep g) s t) (hm : t.modified = ∅)
    (hout : ∀ b ∈ t.lh.blocks, g.Outside b) {d : Disk} (hd : CrashDisk (commit g t.lh) t.c d) :
    ∃ target, (target = s.c.disk ∨ target = groupDisk s t) ∧
      ∀ d', Relation.ReflTransGen (RecoveryCrash g) d d' →
        ∃ lh c, recoverFromLog g .zero (boot d') = .ok lh c ∧ diskCount (c.disk g.start) = 0 ∧
          ∀ b, g.Outside b → c.disk b = target b := by
  obtain ⟨V,hV⟩ := Grouped.run hs hrun
  have hc := hV.coherent
  rw [hm,pinned_empty] at hc
  have hl : Logged g t.lh := ⟨hV.count,hV.room,hout,hV.onDisk⟩
  have hcount : diskCount (t.c.disk g.start) = 0 := by
    rw [hV.disk]
    exact hs.header
  obtain ⟨hsound,hcases⟩ := commit_crashDisk hl hc hcount hd
  have htarget : ∃ target, (target = s.c.disk ∨ target = groupDisk s t) ∧
      g.layout.HomeEq (g.layout.replay d) target := by
    rw [hV.disk] at hcases
    rcases hcases with h | h
    · exact ⟨_,Or.inl rfl,h⟩
    · refine ⟨_,Or.inr rfl,fun b hb => (h b hb).trans ?_⟩
      rw [applyWrites_groupOf,groupDisk,hc.view_eq]
  obtain ⟨target,hor,heq⟩ := htarget
  refine ⟨target,hor,?_⟩
  intro d' hd'
  obtain ⟨hsound',hreplay⟩ := RecoveryCrash.run hsound hd'
  obtain ⟨lh,c,hrec,hhead,hhome⟩ := hsound'.recovers
  refine ⟨lh,c,hrec,hhead,?_⟩
  intro b hb
  have hb' := (g.home_iff b).mpr hb
  rw [hhome b hb',hreplay b hb',heq b hb']

def bootGroup : GroupState := ⟨boot (fun _ _ => 0),∅,.zero⟩

theorem bootGroup_quiet : Quiet mkfsGeometry bootGroup :=
  ⟨boot_coherent _,fun _ => rfl,rfl,by decide,rfl⟩

/-- An operation that fills block 100 with sevens. -/
def firstWrite : BioM LogHeader := do
  let i ← bread 100
  setData i fun _ => 7
  let lh ← logWrite mkfsGeometry 1 .zero i
  brelse i
  pure lh

theorem firstWrite_steps {lh : LogHeader} {c : Bcache} (h : firstWrite bootGroup.c = .ok lh c) :
    Relation.ReflTransGen (GroupStep mkfsGeometry) bootGroup ⟨c,∅,lh⟩ := by
  obtain ⟨i,c₁,hread,h1⟩ := bind_eq_ok.mp h
  obtain ⟨_,c₂,hset,h2⟩ := bind_eq_ok.mp h1
  cases hset
  obtain ⟨lh',c₃,hlog,h3⟩ := bind_eq_ok.mp h2
  obtain ⟨_,c₄,hrelease,h4⟩ := bind_eq_ok.mp h3
  cases h4
  have hspec := bread_spec bootGroup_quiet.coherent 100
  rw [hread] at hspec
  have hheld := hspec.2.1
  have hheld' : Held (c₁.setBuf i { c₁.buf i with data := fun _ => 7 }) i 100 := by
    constructor <;> simp [hheld.dev,hheld.blockno,hheld.valid,hheld.locked,hheld.refcnt]
  have hnone : (insert i bootGroup.modified).erase i = ∅ := by simp [bootGroup]
  have hsteps := ((Relation.ReflTransGen.single (GroupStep.read (g := mkfsGeometry) (s := bootGroup) hread)).tail
    (.modify (fun _ => 7) hheld)).tail (.record hheld' hlog)
  dsimp only at hsteps
  rw [hnone] at hsteps
  exact hsteps.tail (.release (Finset.notMem_empty _) hrelease)

/-- The power fails between the write of the header and the installation: recovery finds the block in the log. -/
theorem firstWrite_cutOff : ∃ lh c d lh' c', firstWrite bootGroup.c = .ok lh c ∧ lh.blocks = [100] ∧
    CrashDisk (commit mkfsGeometry lh) c d ∧ diskCount (d 2) = 1 ∧ d 100 = (fun _ => 0) ∧
    recoverFromLog mkfsGeometry .zero (boot d) = .ok lh' c' ∧ c'.disk 100 = fun _ => 7 := by
  have hrun : returns (fun lh c =>
      let d := applyWrites c.disk ((finalState (commit mkfsGeometry lh) c).issued.take 2)
      decide (lh.blocks = [100]) && c.issued.isEmpty && decide (diskCount (d 2) = 1) && decide (d 100 = fun _ => 0) &&
        returns (fun _ c' => decide (c'.disk 100 = fun _ => 7)) (recoverFromLog mkfsGeometry .zero (boot d)))
      (firstWrite bootGroup.c) = true := by
    decide +kernel
  obtain ⟨lh,c,hfirst,hchecks⟩ := exists_of_returns hrun
  simp only [Bool.and_eq_true,decide_eq_true_eq,List.isEmpty_iff] at hchecks
  obtain ⟨⟨⟨⟨hblocks,hissued⟩,hcount⟩,hhome⟩,hrec⟩ := hchecks
  obtain ⟨lh',c',hrec',hseven⟩ := exists_of_returns hrec
  refine ⟨lh,c,_,lh',c',hfirst,hblocks,⟨_,?_,rfl⟩,hcount,hhome,hrec',of_decide_eq_true hseven⟩
  rw [hissued]
  exact List.take_prefix _ _

theorem commit_crash_atomic_mkfs : ∃ t d target, Relation.ReflTransGen (GroupStep mkfsGeometry) bootGroup t ∧
    t.lh.blocks = [100] ∧ CrashDisk (commit mkfsGeometry t.lh) t.c d ∧ diskCount (d 2) = 1 ∧ d 100 = (fun _ => 0) ∧
    (target = bootGroup.c.disk ∨ target = groupDisk bootGroup t) ∧ target 100 = (fun _ => 7) ∧
    ∀ d', Relation.ReflTransGen (RecoveryCrash mkfsGeometry) d d' →
      ∃ lh c, recoverFromLog mkfsGeometry .zero (boot d') = .ok lh c ∧ diskCount (c.disk 2) = 0 ∧
        ∀ b, mkfsGeometry.Outside b → c.disk b = target b := by
  obtain ⟨lh,c,d,lh',c',hfirst,hblocks,hcrash,hcount,hhome,hrec,hseven⟩ := firstWrite_cutOff
  have hrun := firstWrite_steps hfirst
  have hout : mkfsGeometry.Outside 100 := .inr (by decide)
  obtain ⟨target,htarget,hrecovers⟩ := commit_crash_atomic bootGroup_quiet hrun rfl
    (fun b hb => by rw [hblocks,List.mem_singleton] at hb; exact hb ▸ hout) hcrash
  obtain ⟨_,_,hrec',-,hdisk⟩ := hrecovers d .refl
  cases hrec.symm.trans hrec'
  exact ⟨_,d,target,hrun,hblocks,hcrash,hcount,hhome,htarget,(hdisk 100 hout).symm.trans hseven,hrecovers⟩

end Xv6.Log
