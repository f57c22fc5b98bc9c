import Xv6.Log.Moves

/-! # Who is in an operation and who commits

The count of outstanding operations is exact, so a commit starts only when no
process is between `begin_op` and `end_op`, and none can enter while `committing` is set.
-/
namespace Xv6.Log
open Bio Program Runs Function

def Counted (f : Pid → Phase) (n : ℤ) : Prop :=
  ∃ A : Finset Pid, (∀ p, p ∈ A ↔ (f p).active = true) ∧ (A.card : ℤ) = n

namespace Counted
variable {f f' : Pid → Phase} {n : ℤ} {p : Pid} {ph : Phase}

theorem congr (h : Counted f n) (he : ∀ p, (f' p).active = (f p).active) : Counted f' n := by
  obtain ⟨A,hA,hn⟩ := h
  exact ⟨A,fun p => by rw [he,hA],hn⟩

theorem same (h : Counted f n) (he : ph.active = (f p).active) : Counted (Function.update f p ph) n := by
  apply h.congr
  intro q
  by_cases hq : q = p
  · subst q
    rw [update_self,he]
  · rw [update_of_ne hq]

theorem enter (h : Counted f n) (hp : (f p).active = false) (hph : ph.active = true) :
    Counted (Function.update f p ph) (n+1) := by
  obtain ⟨A,hA,hn⟩ := h
  have hm : p ∉ A := fun hm => by
    rw [hA,hp] at hm
    cases hm
  refine ⟨insert p A,?_,by rw [Finset.card_insert_of_notMem hm]; push_cast; omega⟩
  intro q
  by_cases hq : q = p
  · subst q
    simp [hph]
  · simp [hq,hA]

theorem leave (h : Counted f n) (hp : (f p).active = true) (hph : ph.active = false) :
    Counted (Function.update f p ph) (n-1) := by
  obtain ⟨A,hA,hn⟩ := h
  have hm : p ∈ A := (hA p).mpr hp
  have hcard := Finset.card_erase_add_one hm
  refine ⟨A.erase p,?_,by omega⟩
  intro q
  by_cases hq : q = p
  · subst q
    simp [hph]
  · simp [hq,hA]

theorem inactive (h : Counted f 0) (p : Pid) : (f p).active = false := by
  obtain ⟨A,hA,hn⟩ := h
  have hA0 : A = ∅ := Finset.card_eq_zero.mp (by omega)
  rw [← Bool.not_eq_true,← hA,hA0]
  simp

end Counted

theorem wakeup_active (s : Sys) (p : Pid) : (s.wakeup.phase p).active = (s.phase p).active := by
  simp only [Sys.wakeup]
  split
  · rename_i h
    rw [h]
    rfl
  · rfl

theorem wakeup_eq {s : Sys} {p : Pid} {ph : Phase} (h : s.wakeup.phase p = ph) (hw : ph ≠ .woken) :
    s.phase p = ph := by
  simp only [Sys.wakeup] at h
  split at h
  · exact absurd h.symm hw
  · exact h

structure Control (s : Sys) : Prop where
  counted : Counted s.phase s.outstanding
  committer : ∀ p pc, s.phase p = .commit pc → s.committing = true
  one : ∀ p q pc pc', s.phase p = .commit pc → s.phase q = .commit pc' → p = q
  quiet : s.committing = true → s.outstanding = 0
  erased : ∀ p, s.phase p = .commit .eraseHead ∨ s.phase p = .commit .finish → s.lh.n = 0

theorem Control.initial {s : Sys} (h : s.Initial) : Control s := by
  constructor
  · refine ⟨∅,?_,by simp [h.outstanding]⟩
    intro p
    simp [h.phase p,Phase.active]
  · intro p pc hp
    simp [h.phase p] at hp
  · intro p q pc pc' hp
    simp [h.phase p] at hp
  · intro hc
    exact h.outstanding
  · intro p hp
    simp [h.phase p] at hp

theorem update_eq {f : Pid → Phase} {p q : Pid} {ph ph' : Phase} (h : Function.update f p ph q = ph')
    (hne : ph ≠ ph') : f q = ph' := by
  by_cases hq : q = p
  · subst q
    rw [update_self] at h
    exact absurd h hne
  · rwa [update_of_ne hq] at h

namespace Control
variable {s s' : Sys} {p : Pid}

theorem not_committing (h : Control s) (hp : (s.phase p).active = true) : s.committing = false := by
  rw [← Bool.not_eq_true]
  intro hc
  have hcount := h.counted
  rw [h.quiet hc] at hcount
  rw [hcount.inactive p] at hp
  cases hp

theorem of_other (h : Control s) (hcount : Counted s'.phase s'.outstanding)
    (hcommit : ∀ q pc, s'.phase q = .commit pc → s.phase q = .commit pc)
    (hc : s'.committing = s.committing)
    (hkeep : s.committing = true → s'.outstanding = s.outstanding ∧ s'.lh = s.lh) : Control s' := by
  constructor
  · exact hcount
  · intro q pc hq
    rw [hc]
    exact h.committer q pc (hcommit q pc hq)
  · intro q r pc pc' hq hr
    exact h.one q r pc pc' (hcommit q pc hq) (hcommit r pc' hr)
  · intro h1
    rw [hc] at h1
    rw [(hkeep h1).1]
    exact h.quiet h1
  · intro q hq
    have hq' : s.phase q = .commit .eraseHead ∨ s.phase q = .commit .finish :=
      hq.imp (hcommit q _) (hcommit q _)
    have hcm : s.committing = true := by
      rcases hq' with hq' | hq'
      · exact h.committer q _ hq'
      · exact h.committer q _ hq'
    rw [(hkeep hcm).2]
    exact h.erased q hq'

theorem of_commit (h : Control s) {pc pc' : CommitPoint} (hp : s.phase p = .commit pc)
    (hphase : s'.phase = Function.update s.phase p (.commit pc')) (ho : s'.outstanding = s.outstanding)
    (hc : s'.committing = s.committing) (hn : pc' = .eraseHead ∨ pc' = .finish → s'.lh.n = 0) :
    Control s' := by
  have hother : ∀ q qc, s'.phase q = .commit qc → q = p := by
    intro q qc hq
    by_contra hqp
    rw [hphase,update_of_ne hqp] at hq
    exact hqp (h.one q p qc pc hq hp)
  have hcm : s'.committing = true := by
    rw [hc]
    exact h.committer p pc hp
  constructor
  · rw [hphase,ho]
    exact h.counted.same (by rw [hp]; rfl)
  · exact fun _ _ _ => hcm
  · intro q r qc rc hq hr
    rw [hother q qc hq,hother r rc hr]
  · intro _
    rw [ho]
    exact h.quiet (h.committer p pc hp)
  · intro q hq
    apply hn
    have hqp : q = p := by
      rcases hq with hq | hq
      · exact hother q _ hq
      · exact hother q _ hq
    subst q
    rw [hphase,update_self] at hq
    simpa using hq

theorem step {g : Geometry} {a : Action} (h : Control s) (hm : Moves g s a s') : Control s' := by
  cases hm with
  | @sleeps p hp =>
    refine h.of_other (h.counted.same ?_) (fun q pc hq => update_eq hq (by simp)) rfl (fun _ => ⟨rfl,rfl⟩)
    rcases hp with hp | hp <;> rw [hp] <;> rfl
  | @admitted p hp hc _ =>
    refine h.of_other (h.counted.enter ?_ rfl) (fun q pc hq => update_eq hq (by simp)) rfl ?_
    · rcases hp with hp | hp <;> rw [hp] <;> rfl
    · intro hc'
      rw [hc] at hc'
      cases hc'
  | @killed p hp =>
    exact h.of_other (h.counted.same (by rw [hp]; rfl)) (fun q pc hq => update_eq hq (by simp)) rfl
      (fun _ => ⟨rfl,rfl⟩)
  | read _ => exact ⟨h.counted,h.committer,h.one,h.quiet,h.erased⟩
  | modified _ => exact ⟨h.counted,h.committer,h.one,h.quiet,h.erased⟩
  | released _ _ _ => exact ⟨h.counted,h.committer,h.one,h.quiet,h.erased⟩
  | @checked p i b hp _ _ _ =>
    exact h.of_other (h.counted.same (by rw [hp]; rfl)) (fun q pc hq => update_eq hq (by simp)) rfl
      (fun _ => ⟨rfl,rfl⟩)
  | @recorded p i b lh' hp _ _ =>
    refine h.of_other (h.counted.same (by rw [hp]; rfl)) (fun q pc hq => update_eq hq (by simp)) rfl ?_
    intro hc
    rw [h.not_committing (p := p) (by rw [hp]; rfl)] at hc
    cases hc
  | @ended p hp hc _ =>
    have hcount : Counted (update s.phase p .outside) (s.outstanding-1) :=
      h.counted.leave (by rw [hp]; rfl) rfl
    refine h.of_other (hcount.congr ?_) ?_ rfl ?_
    · intro q
      by_cases hq : q = p
      · subst q
        simp [Sys.setPhase]
      · simpa [Sys.setPhase,hq] using wakeup_active { s with outstanding := s.outstanding-1 } q
    · intro q pc hq
      exact wakeup_eq (s := { s with outstanding := s.outstanding-1 }) (update_eq hq (by simp)) (by simp)
    · intro hc'
      rw [hc] at hc'
      cases hc'
  | @last p hp hc h0 =>
    have hnone : ∀ q pc, s.phase q ≠ .commit pc := by
      intro q pc hq
      rw [h.committer q pc hq] at hc
      cases hc
    have hself : ∀ q pc, update s.phase p (.commit .test) q = .commit pc → q = p ∧ pc = .test := by
      intro q pc hq
      by_cases hqp : q = p
      · subst q
        rw [update_self] at hq
        cases hq
        exact ⟨rfl,rfl⟩
      · rw [update_of_ne hqp] at hq
        exact absurd hq (hnone q pc)
    constructor
    · exact h.counted.leave (by rw [hp]; rfl) rfl
    · exact fun _ _ _ => rfl
    · intro q r qc rc hq hr
      rw [(hself q qc hq).1,(hself r rc hr).1]
    · exact fun _ => h0
    · intro q hq
      rcases hq with hq | hq
      · exact absurd (hself q _ hq).2 (by simp)
      · exact absurd (hself q _ hq).2 (by simp)
  | @commits p pc pc' c' hp _ hne hn =>
    refine h.of_commit hp rfl rfl rfl ?_
    rintro (he | hf)
    · exact absurd he hne
    · rcases hn hf with h0 | rfl
      · exact h0
      · exact h.erased p (Or.inl hp)
  | erases hp => exact h.of_commit hp rfl rfl rfl (fun _ => rfl)
  | @done p hp =>
    have hnone : ∀ q pc, update (Sys.wakeup { s with committing := false }).phase p .outside q ≠
        .commit pc := by
      intro q pc hq
      have hq' := wakeup_eq (update_eq hq (by simp)) (by simp)
      have hqp := h.one q p pc .finish hq' hp
      subst q
      rw [update_self] at hq
      cases hq
    constructor
    · have hcount : Counted (update s.phase p .outside) s.outstanding :=
        h.counted.same (by rw [hp]; rfl)
      refine hcount.congr ?_
      intro q
      by_cases hq : q = p
      · subst q
        simp [Sys.setPhase]
      · simpa [Sys.setPhase,hq] using wakeup_active { s with committing := false } q
    · exact fun q pc hq => absurd hq (hnone q pc)
    · exact fun q _ pc _ hq => absurd hq (hnone q pc)
    · intro hc
      cases hc
    · rintro q (hq | hq)
      · exact absurd hq (hnone q _)
      · exact absurd hq (hnone q _)

end Control

end Xv6.Log
