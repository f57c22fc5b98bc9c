import Xv6.Library.Reservation
import Xv6.Log.GroupCommit

/-! # Log space reservation

`begin_op` admits an operation when `MAXOPBLOCKS` slots for it and for every
outstanding operation still fit into `LOGSIZE`. `log_write` compares with the space
on disk instead, which is one block smaller because `mkfs` counts the header in.
-/
namespace Xv6.Log
open Bio Program Runs Reservation Function

def Within (M : ℕ) (t : List Action) : Prop :=
  ∀ pre, pre <+: t → ∀ p, (opBlocks p pre).card ≤ M

theorem Within.init {M : ℕ} {t : List Action} {a : Action} (h : Within M (t ++ [a])) : Within M t :=
  fun pre hp => h pre (hp.trans (List.prefix_append _ _))

theorem Within.card {M : ℕ} {t : List Action} (h : Within M t) (p : Pid) : (opBlocks p t).card ≤ M :=
  h t List.prefix_rfl p

structure Reserved (M cap : ℕ) (t : List Action) (s : Sys) (A : Finset Pid) : Prop where
  mem : ∀ p, p ∈ A ↔ (s.phase p).active = true
  card : (A.card : ℤ) = s.outstanding
  outside : ∀ p, p ∉ A → opBlocks p t = ∅
  logging : ∀ p i, s.phase p = .logging i → (s.c.buf i).blockno ∈ opBlocks p t
  demand : demand M s.lh.blocks.toFinset A (fun p => opBlocks p t) ≤ cap

def Admits (M cap : ℕ) (s : Sys) : Prop :=
  s.committing = false → s.lh.n + (s.outstanding+1)*MAXOPBLOCKS ≤ (LOGSIZE : ℤ) →
    s.lh.n + (s.outstanding+1)*M ≤ (cap : ℤ)

namespace Reserved
variable {M cap : ℕ} {t : List Action} {s s' : Sys} {A : Finset Pid} {p : Pid}

theorem initial (h : s.Initial) : Reserved M cap [] s ∅ := by
  have hb : s.lh.blocks = [] := by simp [LogHeader.blocks,h.empty]
  constructor
  · intro p
    simp [h.phase p,Phase.active]
  · simp [h.outstanding]
  · exact fun _ _ => rfl
  · intro p i hp
    simp [h.phase p] at hp
  · simp [Reservation.demand,hb]

theorem of_same (h : Reserved M cap t s A) {a : Action} (ha : ∀ q, opBlocks q (t ++ [a]) = opBlocks q t)
    (hact : ∀ q, (s'.phase q).active = (s.phase q).active) (ho : s'.outstanding = s.outstanding)
    (hl : ∀ q i, s'.phase q = .logging i → s.phase q = .logging i ∧ (s'.c.buf i).blockno = (s.c.buf i).blockno)
    (hlh : s'.lh.blocks ⊆ s.lh.blocks) : Reserved M cap (t ++ [a]) s' A := by
  constructor
  · intro q
    rw [hact,h.mem]
  · rw [ho,h.card]
  · intro q hq
    rw [ha,h.outside q hq]
  · intro q i hq
    obtain ⟨hq',hb⟩ := hl q i hq
    rw [hb,ha]
    exact h.logging q i hq'
  · rw [demand_congr (fun q _ => ha q)]
    have hsub : s'.lh.blocks.toFinset ⊆ s.lh.blocks.toFinset :=
      fun b hb => List.mem_toFinset.mpr (hlh (List.mem_toFinset.mp hb))
    exact (demand_mono hsub).trans h.demand

theorem begun (h : Reserved M cap t s A) (hw : Within M t) (hp : (s.phase p).active = false)
    (hroom : s.lh.n + (s.outstanding+1)*M ≤ (cap : ℤ)) :
    Reserved M cap (t ++ [.beginOp p]) ({ s with outstanding := s.outstanding+1 }.setPhase p .inOp)
      (insert p A) := by
  have hm : p ∉ A := by
    rw [h.mem,hp]
    simp
  have hsame : ∀ q, opBlocks q (t ++ [.beginOp p]) = opBlocks q t := fun q => by simp [passed]
  constructor
  · intro q
    by_cases hq : q = p
    · subst q
      simp [Sys.setPhase,Phase.active]
    · simp [Sys.setPhase,hq,h.mem]
  · rw [Finset.card_insert_of_notMem hm]
    have hc := h.card
    push_cast
    change _ = s.outstanding+1
    omega
  · intro q hq
    rw [hsame]
    exact h.outside q (fun hqA => hq (Finset.mem_insert_of_mem hqA))
  · intro q i hq
    rw [hsame]
    exact h.logging q i (update_eq hq (by simp))
  · rw [demand_congr (fun q _ => hsame q)]
    refine (demand_insert_le hm (h.outside p hm) (fun q _ => hw.card q)).trans ?_
    have hn : s.lh.blocks.toFinset.card ≤ s.lh.n := by
      have := s.lh.blocks.toFinset_card_le
      rwa [s.lh.length_blocks] at this
    change s.lh.blocks.toFinset.card + _ ≤ cap
    rw [← h.card] at hroom
    have hroom' : s.lh.n + (A.card+1)*M ≤ cap := by exact_mod_cast hroom
    rw [mul_comm] at hroom'
    omega

theorem call (h : Reserved M cap t s A) {i : Fin NBUF} {b : ℕ} (hp : s.phase p = .inOp)
    (hb : (s.c.buf i).blockno = b) (hw : Within M (t ++ [.logWrite p i b])) :
    Reserved M cap (t ++ [.logWrite p i b]) (s.setPhase p (.logging i)) A := by
  have hm : p ∈ A := by
    rw [h.mem,hp]
    rfl
  have hself : opBlocks p (t ++ [.logWrite p i b]) = insert b (opBlocks p t) := by simp [passed]
  have hother : ∀ q, q ≠ p → opBlocks q (t ++ [.logWrite p i b]) = opBlocks q t := by
    intro q hq
    simp [passed,Ne.symm hq]
  constructor
  · intro q
    by_cases hq : q = p
    · subst q
      simpa [Sys.setPhase,Phase.active] using hm
    · simp [Sys.setPhase,hq,h.mem]
  · exact h.card
  · intro q hq
    have hqp : q ≠ p := fun he => hq (he ▸ hm)
    rw [hother q hqp]
    exact h.outside q hq
  · intro q j hq
    by_cases hqp : q = p
    · subst q
      have hij : i = j := by simpa [Sys.setPhase] using hq
      subst j
      rw [hself,← hb]
      exact Finset.mem_insert_self _ _
    · rw [hother q hqp]
      exact h.logging q j (by simpa [Sys.setPhase,hqp] using hq)
  · exact (demand_use hm hself (hw.card p) (fun q _ hq => hother q hq)).trans h.demand

theorem record (h : Reserved M cap t s A) {i : Fin NBUF} {b : ℕ} {lh' : LogHeader} (hn : s.lh.n ≤ LOGSIZE)
    (hp : s.phase p = .logging i) (hb : (s.c.buf i).blockno = b) (hr : s.lh.record b = some lh') :
    Reserved M cap (t ++ [.logRecord p b])
      ({ s with lh := lh', c := s.c.setBuf i { s.c.buf i with dirty := true } }.setPhase p .inOp) A := by
  have hm : p ∈ A := by
    rw [h.mem,hp]
    rfl
  have hsame : ∀ q, opBlocks q (t ++ [.logRecord p b]) = opBlocks q t := fun q => by simp [passed]
  have hbase : lh'.blocks.toFinset = insert b s.lh.blocks.toFinset := by
    ext a
    simp [LogHeader.record_mem hn hr,or_comm]
  constructor
  · intro q
    by_cases hq : q = p
    · subst q
      simpa [Sys.setPhase,Phase.active] using hm
    · simp [Sys.setPhase,hq,h.mem]
  · exact h.card
  · intro q hq
    rw [hsame]
    exact h.outside q hq
  · intro q j hq
    rw [hsame]
    have hl := h.logging q j (update_eq hq (by simp))
    rcases setBuf_cases s.c i { s.c.buf i with dirty := true } j with ⟨rfl,he⟩ | ⟨_,he⟩
    · simpa [Sys.setPhase,he] using hl
    · simpa [Sys.setPhase,he] using hl
  · rw [demand_congr (fun q _ => hsame q)]
    change Reservation.demand M lh'.blocks.toFinset A _ ≤ cap
    rw [hbase,demand_insert_base hm (hb ▸ h.logging p i hp)]
    exact h.demand

theorem finish (h : Reserved M cap t s A) (hp : s.phase p = .inOp)
    (hact : ∀ q, (s'.phase q).active = if q = p then false else (s.phase q).active)
    (ho : s'.outstanding = s.outstanding-1) (hlog : ∀ q i, s'.phase q = .logging i → s.phase q = .logging i)
    (hc : s'.c = s.c) (hlh : s'.lh = s.lh) : Reserved M cap (t ++ [.endOp p]) s' (A.erase p) := by
  have hm : p ∈ A := by
    rw [h.mem,hp]
    rfl
  have hother : ∀ q, q ≠ p → opBlocks q (t ++ [.endOp p]) = opBlocks q t := by
    intro q hq
    simp [passed,Ne.symm hq]
  constructor
  · intro q
    rw [hact,Finset.mem_erase,h.mem]
    by_cases hq : q = p
    · simp [hq]
    · simp [hq]
  · have hcard := Finset.card_erase_add_one hm
    have hA := h.card
    omega
  · intro q hq
    by_cases hqp : q = p
    · subst q
      simp [passed]
    · rw [hother q hqp]
      exact h.outside q (fun hqA => hq (Finset.mem_erase.mpr ⟨hqp,hqA⟩))
  · intro q i hq
    have hq' := hlog q i hq
    have hqp : q ≠ p := by
      rintro rfl
      rw [hp] at hq'
      cases hq'
    rw [hother q hqp,hc]
    exact h.logging q i hq'
  · rw [hlh]
    exact (demand_erase (fun q hq => hother q (Finset.ne_of_mem_erase hq))).trans h.demand

theorem of_held (h : Reserved M cap t s A) {a : Action} (hb : Buffers s)
    (ha : ∀ q, opBlocks q (t ++ [a]) = opBlocks q t) (hk : ∀ q i, s.phase q = .logging i → KeepsHeld s.c s'.c)
    (hact : ∀ q, (s'.phase q).active = (s.phase q).active) (ho : s'.outstanding = s.outstanding)
    (hl : ∀ q i, s'.phase q = .logging i → s.phase q = .logging i) (hlh : s'.lh.blocks ⊆ s.lh.blocks) :
    Reserved M cap (t ++ [a]) s' A := by
  refine h.of_same ha hact ho ?_ hlh
  intro q i hq
  have hq' := hl q i hq
  exact ⟨hq',(hk q i hq' i _ (hb.held i q (hb.logging q i hq'))).blockno⟩

theorem step {g : Geometry} {a : Action} (h : Reserved M cap t s A) (hi : ProtocolInv t s)
    (hadm : Admits M cap s) (hw : Within M (t ++ [a])) (hm : Moves g s a s') :
    ∃ A', Reserved M cap (t ++ [a]) s' A' := by
  have hrefl : KeepsHeld s.c s.c := fun _ _ hj => hj
  have hphase : ∀ {p ph}, ph.active = (s.phase p).active →
      ∀ q, (update s.phase p ph q).active = (s.phase q).active := by
    intro p ph hph q
    by_cases hq : q = p
    · subst q
      rw [update_self,hph]
    · rw [update_of_ne hq]
  cases hm with
  | @sleeps p hp =>
    refine ⟨A,h.of_held hi.buffers (fun q => by simp [passed]) (fun _ _ _ => hrefl) (hphase ?_) rfl
      (fun q i hq => update_eq hq (by simp)) (List.Subset.refl _)⟩
    rcases hp with hp | hp <;> rw [hp] <;> rfl
  | @admitted p hp hc hroom =>
    refine ⟨_,h.begun hw.init ?_ (hadm hc hroom)⟩
    rcases hp with hp | hp <;> rw [hp] <;> rfl
  | @killed p hp =>
    exact ⟨A,h.of_held hi.buffers (fun q => by simp [passed]) (fun _ _ _ => hrefl)
      (hphase (by rw [hp]; rfl)) rfl (fun q i hq => update_eq hq (by simp)) (List.Subset.refl _)⟩
  | read hr =>
    exact ⟨A,h.of_held hi.buffers (fun q => by simp [passed])
      (fun _ _ _ => (bread_indexed hi.buffers.indexed hr).2.1) (fun _ => rfl) rfl (fun _ _ hq => hq)
      (List.Subset.refl _)⟩
  | @modified p i v ho =>
    refine ⟨A,h.of_same (fun q => by simp [passed]) (fun _ => rfl) rfl ?_ (List.Subset.refl _)⟩
    intro q j hq
    refine ⟨hq,?_⟩
    rcases setBuf_cases s.c i { s.c.buf i with data := v } j with ⟨rfl,he⟩ | ⟨_,he⟩ <;> simp [he]
  | @released p i c' _ _ hr =>
    refine ⟨A,h.of_same (fun q => by simp [passed]) (fun _ => rfl) rfl ?_ (List.Subset.refl _)⟩
    intro q j hq
    rw [brelse_ok hr]
    exact ⟨hq,(released_sameContents s.c i j).2.1⟩
  | checked hp _ hb _ => exact ⟨A,h.call hp hb hw⟩
  | recorded hp hb hr => exact ⟨A,h.record hi.recorded.size hp hb hr⟩
  | @ended p hp _ _ =>
    refine ⟨_,h.finish hp ?_ rfl ?_ rfl rfl⟩
    · intro q
      by_cases hq : q = p
      · subst q
        simp [Sys.setPhase,Phase.active]
      · simpa [Sys.setPhase,hq] using wakeup_active { s with outstanding := s.outstanding-1 } q
    · intro q i hq
      exact wakeup_eq (s := { s with outstanding := s.outstanding-1 }) (update_eq hq (by simp)) (by simp)
  | @last p hp _ _ =>
    refine ⟨_,h.finish hp ?_ rfl (fun q i hq => update_eq hq (by simp)) rfl rfl⟩
    intro q
    by_cases hq : q = p
    · subst q
      simp [Sys.setPhase,Phase.active]
    · simp [Sys.setPhase,hq]
  | @commits p pc _ _ hp hcall _ _ =>
    exact ⟨A,h.of_held hi.buffers (fun q => by simp [passed])
      (fun _ _ _ => (hcall.keeps hi.buffers.indexed).2) (hphase (by rw [hp]; rfl)) rfl
      (fun q i hq => update_eq hq (by simp)) (List.Subset.refl _)⟩
  | @erases p tail hp =>
    refine ⟨A,h.of_held hi.buffers (fun q => by simp [passed]) (fun _ _ _ => hrefl)
      (hphase (by rw [hp]; rfl)) rfl (fun q i hq => update_eq hq (by simp)) ?_⟩
    simp [Sys.setPhase,LogHeader.blocks]
  | @done p hp =>
    refine ⟨A,h.of_held hi.buffers (fun q => by simp [passed]) (fun _ _ _ => hrefl) ?_ rfl ?_
      (List.Subset.refl _)⟩
    · intro q
      by_cases hq : q = p
      · subst q
        simp [Sys.setPhase,hp,Phase.active]
      · simpa [Sys.setPhase,hq] using wakeup_active { s with committing := false } q
    · intro q i hq
      exact wakeup_eq (s := { s with committing := false }) (update_eq hq (by simp)) (by simp)

theorem run {g : Geometry} {s₀ : Sys} (h₀ : s₀.Initial)
    (hadm : ∀ t s, Run (Ok (Sys.step g)) s₀ t s → Admits M cap s) (h : Run (Ok (Sys.step g)) s₀ t s)
    (hw : Within M t) : ∃ A, Reserved M cap t s A := by
  refine Run.invariant (I := fun t s => Within M t → ∃ A, Reserved M cap t s A)
    (fun _ => ⟨∅,initial h₀⟩) ?_ h hw
  intro t u a v hrun ih hstep hw
  obtain ⟨A,hA⟩ := ih hw.init
  exact hA.step (ProtocolInv.run h₀ hrun) (hadm t u hrun) hw (step_moves hstep)

end Reserved

end Xv6.Log
