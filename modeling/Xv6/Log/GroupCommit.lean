import Xv6.Log.Control

/-! # The group-commit protocol

Outside a commit the header lists the blocks logged since the last one, each once
and each with a dirty buffer; during a commit no operation is active.
-/
namespace Xv6.Log
open Bio Program Runs Function

structure Buffers (s : Sys) : Prop where
  indexed : Indexed s.c
  held : ∀ i p, s.owner i = some p → Held s.c i (s.c.buf i).blockno
  logging : ∀ p i, s.phase p = .logging i → s.owner i = some p

namespace Buffers
variable {s s' : Sys} {p : Pid}

theorem initial (h : s.Initial) : Buffers s := by
  refine ⟨h.indexed,?_,?_⟩
  · intro i p hi
    simp [h.owner i] at hi
  · intro p i hp
    simp [h.phase p] at hp

theorem of_keeps (h : Buffers s) (hc : Indexed s'.c) (hk : KeepsHeld s.c s'.c) (ho : s'.owner = s.owner)
    (hl : ∀ q i, s'.phase q = .logging i → s.phase q = .logging i ∨ s.owner i = some q) : Buffers s' := by
  refine ⟨hc,?_,?_⟩
  · intro i q hi
    rw [ho] at hi
    have hh := hk i _ (h.held i q hi)
    rwa [hh.blockno]
  · intro q i hq
    rw [ho]
    rcases hl q i hq with hq' | hq'
    · exact h.logging q i hq'
    · exact hq'

theorem read (h : Buffers s) {b : ℕ} {i : Fin NBUF} {c' : Bcache} (hr : Bio.bread b s.c = .ok i c') :
    Buffers { s with c := c', owner := Function.update s.owner i (some p) } := by
  obtain ⟨hi,hk,hnew,hl,_⟩ := bread_indexed h.indexed hr
  have hfree : ∀ q, s.owner i ≠ some q := fun q hq => not_held_of_unlocked hl _ (h.held i q hq)
  refine ⟨hi,?_,?_⟩
  · intro j q hj
    dsimp only at hj ⊢
    by_cases hji : j = i
    · subst j
      rwa [hnew.blockno]
    · rw [update_of_ne hji] at hj
      have hh := hk j _ (h.held j q hj)
      rwa [hh.blockno]
  · intro q j hq
    dsimp only at hq ⊢
    have hown := h.logging q j hq
    by_cases hji : j = i
    · subst j
      exact absurd hown (hfree q)
    · rwa [update_of_ne hji]

theorem release (h : Buffers s) {i : Fin NBUF} {c' : Bcache} (hp : s.phase p = .outside ∨ s.phase p = .inOp)
    (ho : s.owner i = some p) (hr : Bio.brelse i s.c = .ok () c') :
    Buffers { s with c := c', owner := Function.update s.owner i none } := by
  rw [brelse_ok hr]
  refine ⟨released_indexed h.indexed i,?_,?_⟩
  · intro j q hj
    dsimp only at hj ⊢
    by_cases hji : j = i
    · subst j
      rw [update_self] at hj
      cases hj
    · rw [update_of_ne hji] at hj
      have hh := released_held (h.held j q hj) hji
      rwa [hh.blockno]
  · intro q j hq
    dsimp only at hq ⊢
    have hown := h.logging q j hq
    by_cases hji : j = i
    · subst j
      rw [ho] at hown
      cases hown
      rw [hq] at hp
      simp at hp
    · rwa [update_of_ne hji]

theorem fill (h : Buffers s) {i : Fin NBUF} (ho : s.owner i = some p) (v : Block) (dirty : Bool) :
    Indexed (filled s.c i v dirty) ∧ KeepsHeld s.c (filled s.c i v dirty) :=
  ⟨h.indexed.filled (h.held i p ho).dev v rfl rfl,filled_keepsHeld s.c i v dirty⟩

theorem step {g : Geometry} {a : Action} (h : Buffers s) (hm : Moves g s a s') : Buffers s' := by
  have hsame : KeepsHeld s.c s.c := fun _ _ hj => hj
  cases hm with
  | sleeps _ => exact h.of_keeps h.indexed hsame rfl (fun q i hq => Or.inl (update_eq hq (by simp)))
  | admitted _ _ _ => exact h.of_keeps h.indexed hsame rfl (fun q i hq => Or.inl (update_eq hq (by simp)))
  | killed _ => exact h.of_keeps h.indexed hsame rfl (fun q i hq => Or.inl (update_eq hq (by simp)))
  | read hr => exact h.read hr
  | @modified p i v ho =>
    obtain ⟨hi,hk⟩ := h.fill ho v (s.c.buf i).dirty
    have he : filled s.c i v (s.c.buf i).dirty = s.c.setBuf i { s.c.buf i with data := v } := by
      rw [filled,← (h.held i p ho).valid]
    rw [he] at hi hk
    exact h.of_keeps hi hk rfl (fun q j hq => Or.inl hq)
  | released hp ho hr => exact h.release hp ho hr
  | @checked p i b _ ho _ _ =>
    refine h.of_keeps h.indexed hsame rfl ?_
    intro q j hq
    by_cases hqp : q = p
    · subst q
      right
      have hq' : Phase.logging i = .logging j := by simpa [Sys.setPhase] using hq
      cases hq'
      exact ho
    · left
      simpa [Sys.setPhase,hqp] using hq
  | @recorded p i b lh' hp _ _ =>
    have ho := h.logging p i hp
    obtain ⟨hi,hk⟩ := h.fill ho (s.c.buf i).data true
    have he : filled s.c i (s.c.buf i).data true = s.c.setBuf i { s.c.buf i with dirty := true } := by
      rw [filled,← (h.held i p ho).valid]
    rw [he] at hi hk
    exact h.of_keeps hi hk rfl (fun q j hq => Or.inl (update_eq hq (by simp)))
  | ended _ _ _ =>
    refine h.of_keeps h.indexed hsame rfl (fun q i hq => Or.inl ?_)
    exact wakeup_eq (s := { s with outstanding := s.outstanding-1 }) (update_eq hq (by simp)) (by simp)
  | last _ _ _ => exact h.of_keeps h.indexed hsame rfl (fun q i hq => Or.inl (update_eq hq (by simp)))
  | commits _ hcall _ _ =>
    obtain ⟨hi,hk⟩ := hcall.keeps h.indexed
    exact h.of_keeps hi hk rfl (fun q i hq => Or.inl (update_eq hq (by simp)))
  | erases _ => exact h.of_keeps h.indexed hsame rfl (fun q i hq => Or.inl (update_eq hq (by simp)))
  | done _ =>
    refine h.of_keeps h.indexed hsame rfl (fun q i hq => Or.inl ?_)
    exact wakeup_eq (s := { s with committing := false }) (update_eq hq (by simp)) (by simp)

end Buffers

def DirtyBlock (c : Bcache) (b : ℕ) : Prop :=
  ∃ i, (c.buf i).dev = ROOTDEV ∧ (c.buf i).blockno = b ∧ (c.buf i).dirty = true

structure Listed (t : List Action) (s : Sys) : Prop where
  nodup : s.lh.blocks.Nodup
  mem : ∀ b, b ∈ s.lh.blocks ↔ b ∈ loggedSince t
  dirty : ∀ b ∈ s.lh.blocks, DirtyBlock s.c b

structure Recorded (t : List Action) (s : Sys) : Prop where
  size : s.lh.n ≤ LOGSIZE
  listed : s.committing = false → Listed t s

theorem DirtyBlock.mono {c c' : Bcache} {b : ℕ} (h : DirtyBlock c b)
    (hk : ∀ j, (c.buf j).dirty = true → (c'.buf j).dirty = true ∧ (c'.buf j).dev = (c.buf j).dev ∧
      (c'.buf j).blockno = (c.buf j).blockno) : DirtyBlock c' b := by
  obtain ⟨i,hdev,hb,hd⟩ := h
  obtain ⟨h1,h2,h3⟩ := hk i hd
  exact ⟨i,h2.trans hdev,h3.trans hb,h1⟩

namespace Recorded
variable {t : List Action} {s s' : Sys} {p : Pid}

theorem initial (h : s.Initial) : Recorded [] s := by
  have hb : s.lh.blocks = [] := by simp [LogHeader.blocks,h.empty]
  refine ⟨by simp [h.empty],fun _ => ⟨?_,?_,?_⟩⟩ <;> simp [hb,loggedSince]

theorem of_same (h : Recorded t s) {a : Action} (ha : loggedSince (t ++ [a]) = loggedSince t)
    (hlh : s'.lh = s.lh) (hc : s'.committing = false → s.committing = false)
    (hk : ∀ j, (s.c.buf j).dirty = true → (s'.c.buf j).dirty = true ∧
      (s'.c.buf j).dev = (s.c.buf j).dev ∧ (s'.c.buf j).blockno = (s.c.buf j).blockno) :
    Recorded (t ++ [a]) s' := by
  refine ⟨by rw [hlh]; exact h.size,fun h0 => ?_⟩
  have hl := h.listed (hc h0)
  refine ⟨by rw [hlh]; exact hl.nodup,?_,?_⟩
  · intro b
    rw [hlh,ha]
    exact hl.mem b
  · intro b hb
    rw [hlh] at hb
    exact (hl.dirty b hb).mono hk

theorem record (h : Recorded t s) (hb : Buffers s) {i : Fin NBUF} {b : ℕ} {lh' : LogHeader}
    (hp : s.phase p = .logging i) (hbn : (s.c.buf i).blockno = b) (hr : s.lh.record b = some lh') :
    Recorded (t ++ [.logRecord p b])
      ({ s with lh := lh', c := s.c.setBuf i { s.c.buf i with dirty := true } }.setPhase p .inOp) := by
  obtain ⟨hblocks,hsize⟩ := LogHeader.record_blocks h.size hr
  have hmem := LogHeader.record_mem h.size hr
  refine ⟨hsize,fun h0 => ?_⟩
  have hl := h.listed h0
  refine ⟨?_,?_,?_⟩
  · change lh'.blocks.Nodup
    rw [hblocks]
    split
    · exact hl.nodup
    · rename_i hnb
      rw [← List.concat_eq_append]
      exact hl.nodup.concat hnb
  · intro a
    simp only [Sys.setPhase,loggedSince_snoc,logged,Finset.mem_insert]
    rw [hmem,hl.mem,or_comm]
  · intro a ha
    rcases (hmem a).mp ha with ha | rfl
    · apply (hl.dirty a ha).mono
      intro j hj
      by_cases hji : j = i
      · subst j
        simp [Sys.setPhase]
      · simp [Sys.setPhase,setBuf_ne _ hji,hj]
    · exact ⟨i,by simpa [Sys.setPhase] using (hb.held i p (hb.logging p i hp)).dev,
        by simpa [Sys.setPhase] using hbn,by simp [Sys.setPhase]⟩

theorem step {g : Geometry} {a : Action} (h : Recorded t s) (hctl : Control s) (hb : Buffers s)
    (hm : Moves g s a s') : Recorded (t ++ [a]) s' := by
  have hsame : ∀ j, (s.c.buf j).dirty = true → (s.c.buf j).dirty = true ∧
      (s.c.buf j).dev = (s.c.buf j).dev ∧ (s.c.buf j).blockno = (s.c.buf j).blockno := fun j hj => ⟨hj,rfl,rfl⟩
  cases hm with
  | sleeps _ => exact h.of_same (by simp [logged]) rfl id hsame
  | admitted _ _ _ => exact h.of_same (by simp [logged]) rfl id hsame
  | killed _ => exact h.of_same (by simp [logged]) rfl id hsame
  | read hr => exact h.of_same (by simp [logged]) rfl id (bread_indexed hb.indexed hr).2.2.2.2
  | @modified p i v _ =>
    refine h.of_same (by simp [logged]) rfl id ?_
    intro j hj
    by_cases hji : j = i
    · subst j
      simpa using hj
    · simp [setBuf_ne _ hji,hj]
  | @released p i c' _ _ hr =>
    refine h.of_same (by simp [logged]) rfl id ?_
    intro j hj
    rw [brelse_ok hr]
    obtain ⟨h1,h2,_,h4,_⟩ := released_sameContents s.c i j
    exact ⟨h4.trans hj,h1,h2⟩
  | checked _ _ _ _ => exact h.of_same (by simp [logged]) rfl id hsame
  | recorded hp hbn hr => exact h.record hb hp hbn hr
  | ended _ _ _ => exact h.of_same (by simp [logged]) rfl id hsame
  | last _ _ _ => exact ⟨h.size,fun h0 => by cases h0⟩
  | @commits p pc _ _ hp _ _ _ =>
    refine ⟨h.size,fun h0 => ?_⟩
    have hc : s.committing = false := h0
    rw [hctl.committer p pc hp] at hc
    cases hc
  | @erases p tail hp =>
    refine ⟨Nat.zero_le _,fun h0 => ?_⟩
    have hc : s.committing = false := h0
    rw [hctl.committer p _ hp] at hc
    cases hc
  | @done p hp =>
    have hn : s.lh.n = 0 := hctl.erased p (Or.inr hp)
    have hnil : s.lh.blocks = [] := by simp [LogHeader.blocks,hn]
    refine ⟨h.size,fun _ => ⟨?_,?_,?_⟩⟩ <;> simp [Sys.setPhase,Sys.wakeup,hnil,logged]

end Recorded

structure ProtocolInv (t : List Action) (s : Sys) : Prop where
  control : Control s
  buffers : Buffers s
  recorded : Recorded t s

theorem ProtocolInv.run {g : Geometry} {s₀ s : Sys} {t : List Action} (h₀ : s₀.Initial)
    (h : Run (Ok (Sys.step g)) s₀ t s) : ProtocolInv t s := by
  refine h.invariant ⟨Control.initial h₀,Buffers.initial h₀,Recorded.initial h₀⟩ ?_
  intro t u a v _ hi hstep
  have hm := step_moves hstep
  exact ⟨hi.control.step hm,hi.buffers.step hm,hi.recorded.step hi.control hi.buffers hm⟩

/-- In every interleaving, a commit excludes operations, so `end_op` cannot find one
running; outside a commit the header lists the blocks logged since the last commit,
each once and cached in one buffer, which is dirty. -/
theorem group_commit {g : Geometry} {s₀ s : Sys} {t : List Action} (h₀ : s₀.Initial)
    (h : Run (Ok (Sys.step g)) s₀ t s) :
    (s.committing = true → s.outstanding = 0 ∧ ∀ p, (s.phase p).active = false) ∧
    (∀ p, s.step g (.endOp p) ≠ .error (.stop .logCommitting)) ∧
    (∀ p pc, s.phase p = .commit pc → ∀ q, (s.phase q).active = false) ∧
    (s.committing = false → s.lh.blocks.Nodup ∧ (∀ b, b ∈ s.lh.blocks ↔ b ∈ loggedSince t) ∧
      ∀ b ∈ s.lh.blocks, ∃! i, (s.c.buf i).dev = ROOTDEV ∧ (s.c.buf i).blockno = b ∧
        (s.c.buf i).dirty = true) := by
  obtain ⟨hctl,hbuf,hrec⟩ := ProtocolInv.run h₀ h
  have hquiet : s.committing = true → ∀ p, (s.phase p).active = false := by
    intro hc
    have hcount := hctl.counted
    rw [hctl.quiet hc] at hcount
    exact hcount.inactive
  refine ⟨fun hc => ⟨hctl.quiet hc,hquiet hc⟩,?_,?_,?_⟩
  · intro p hp
    simp only [Sys.step,Sys.endOp] at hp
    split at hp
    · rename_i hin
      simp only [hctl.not_committing (p := p) (by rw [hin]; rfl),Bool.false_eq_true,↓reduceIte] at hp
      split at hp <;> cases hp
    · cases hp
  · intro p pc hp
    exact hquiet (hctl.committer p pc hp)
  · intro hc
    have hl := hrec.listed hc
    refine ⟨hl.nodup,hl.mem,fun b hb => ?_⟩
    obtain ⟨i,hdev,hbn,hd⟩ := hl.dirty b hb
    refine ⟨i,⟨hdev,hbn,hd⟩,?_⟩
    rintro j ⟨hdev',hbn',_⟩
    exact hbuf.indexed.unique j i hdev' hdev (hbn'.trans hbn.symm)

/-- One process logs a block while another waits to be admitted. -/
theorem group_commit_one_block : ∃ s, Run (Ok (Sys.step mkfsGeometry)) (Sys.booted (fun _ _ => 0))
    [.beginOp 0,.beginOp 1,.beginOp 2,.beginOp 3,.bread 0 100,.logWrite 0 ⟨0,by decide⟩ 100,.logRecord 0 100] s ∧
    s.phase 3 = .asleep ∧ s.committing = false ∧ s.lh.blocks = [100] ∧
    ∃! i, (s.c.buf i).dev = ROOTDEV ∧ (s.c.buf i).blockno = 100 ∧ (s.c.buf i).dirty = true := by
  have hrun : ∃ s, exec (Sys.step mkfsGeometry) (Sys.booted (fun _ _ => 0))
      [.beginOp 0,.beginOp 1,.beginOp 2,.beginOp 3,.bread 0 100,.logWrite 0 ⟨0,by decide⟩ 100,.logRecord 0 100] =
        .ok s ∧ s.phase 3 = .asleep ∧ s.committing = false ∧ s.lh.blocks = [100] :=
    ⟨_,rfl,by decide +kernel,by decide +kernel,by decide +kernel⟩
  obtain ⟨s,he,hph,hc,hb⟩ := hrun
  have hrun := exec_eq_ok.mp he
  obtain ⟨_,_,hdirty⟩ := (group_commit (Sys.booted_initial _) hrun).2.2.2 hc
  exact ⟨s,hrun,hph,hc,hb,hdirty 100 (by rw [hb]; simp)⟩

end Xv6.Log
