import Xv6.Log.Protocol

/-! # What a step of the log protocol can do

The step function is inverted once. Everything proved about runs goes through
`Moves`, and the calls that `commit` makes on the cache are summarised by what they
leave alone: the shape of the cache and the buffers other processes hold.
-/
namespace Xv6.Log
open Bio Program

inductive CommitCall (g : Geometry) (lh : LogHeader) (c : Bcache) : Bcache → Prop
  | none : CommitCall g lh c c
  | log {tail : ℕ} {c' : Bcache} : writeLogBlock g lh tail c = .ok () c' → CommitCall g lh c c'
  | head {c' : Bcache} : writeHead g lh c = .ok () c' → CommitCall g lh c c'
  | home {tail : ℕ} {c' : Bcache} : installBlock g lh tail c = .ok () c' → CommitCall g lh c c'

open Sys in
inductive Moves (g : Geometry) (s : Sys) : Action → Sys → Prop
  | sleeps {p : Pid} : s.phase p = .outside ∨ s.phase p = .woken →
      Moves g s (.beginOp p) (s.setPhase p .asleep)
  | admitted {p : Pid} : s.phase p = .outside ∨ s.phase p = .woken → s.committing = false →
      s.lh.n + (s.outstanding+1)*MAXOPBLOCKS ≤ (LOGSIZE : ℤ) →
      Moves g s (.beginOp p) ({ s with outstanding := s.outstanding+1 }.setPhase p .inOp)
  | killed {p : Pid} : s.phase p = .asleep → Moves g s (.kill p) (s.setPhase p .woken)
  | read {p : Pid} {b : ℕ} {i : Fin NBUF} {c' : Bcache} : Bio.bread b s.c = .ok i c' →
      Moves g s (.bread p b) { s with c := c', owner := Function.update s.owner i (some p) }
  | modified {p : Pid} {i : Fin NBUF} {v : Block} : s.owner i = some p →
      Moves g s (.modify p i v) { s with c := s.c.setBuf i { s.c.buf i with data := v } }
  | released {p : Pid} {i : Fin NBUF} {c' : Bcache} : s.phase p = .outside ∨ s.phase p = .inOp →
      s.owner i = some p → Bio.brelse i s.c = .ok () c' →
      Moves g s (.brelse p i) { s with c := c', owner := Function.update s.owner i none }
  | checked {p : Pid} {i : Fin NBUF} {b : ℕ} : s.phase p = .inOp → s.owner i = some p →
      (s.c.buf i).blockno = b → logCheck g s.outstanding s.lh = none →
      Moves g s (.logWrite p i b) (s.setPhase p (.logging i))
  | recorded {p : Pid} {i : Fin NBUF} {b : ℕ} {lh' : LogHeader} : s.phase p = .logging i →
      (s.c.buf i).blockno = b → s.lh.record b = some lh' →
      Moves g s (.logRecord p b)
        ({ s with lh := lh', c := s.c.setBuf i { s.c.buf i with dirty := true } }.setPhase p .inOp)
  | ended {p : Pid} : s.phase p = .inOp → s.committing = false → s.outstanding-1 ≠ 0 →
      Moves g s (.endOp p) ({ s with outstanding := s.outstanding-1 }.wakeup.setPhase p .outside)
  | last {p : Pid} : s.phase p = .inOp → s.committing = false → s.outstanding-1 = 0 →
      Moves g s (.endOp p)
        ({ s with outstanding := s.outstanding-1, committing := true }.setPhase p (.commit .test))
  | commits {p : Pid} {pc pc' : CommitPoint} {c' : Bcache} : s.phase p = .commit pc →
      CommitCall g s.lh s.c c' → pc' ≠ .eraseHead → (pc' = .finish → s.lh.n = 0 ∨ pc = .eraseHead) →
      Moves g s (.commitStep p) ({ s with c := c' }.setPhase p (.commit pc'))
  | erases {p : Pid} {tail : ℕ} : s.phase p = .commit (.install tail) →
      Moves g s (.commitStep p) ({ s with lh := { s.lh with n := 0 } }.setPhase p (.commit .eraseHead))
  | done {p : Pid} : s.phase p = .commit .finish →
      Moves g s (.commitDone p) ({ s with committing := false }.wakeup.setPhase p .outside)

theorem Sys.call_ok {α : Type} {s s' : Sys} {x : BioM α} {k : α → Bcache → Sys}
    (h : s.call x k = .ok s') : ∃ a c', x s.c = .ok a c' ∧ s' = k a c' := by
  unfold Sys.call at h
  cases hx : x s.c with
  | ok a c' =>
    simp only [hx,Except.ok.injEq] at h
    exact ⟨a,c',rfl,h.symm⟩
  | error e c' =>
    rw [hx] at h
    cases e <;> cases h

theorem commitStep_moves {g : Geometry} {s s' : Sys} {p : Pid} (h : s.commitStep g p = .ok s') :
    Moves g s (.commitStep p) s' := by
  unfold Sys.commitStep at h
  split at h
  · rename_i hp
    cases h
    refine .commits hp .none (by split <;> simp) ?_
    intro hf
    left
    by_contra hn
    rw [if_pos (by omega)] at hf
    cases hf
  · rename_i tail hp
    split at h
    · obtain ⟨_,c',hx,rfl⟩ := Sys.call_ok h
      exact .commits hp (.log hx) (by simp) (by simp)
    · cases h
      exact .commits hp .none (by simp) (by simp)
  · rename_i hp
    obtain ⟨_,c',hx,rfl⟩ := Sys.call_ok h
    exact .commits hp (.head hx) (by simp) (by simp)
  · rename_i tail hp
    split at h
    · obtain ⟨_,c',hx,rfl⟩ := Sys.call_ok h
      exact .commits hp (.home hx) (by simp) (by simp)
    · cases h
      exact .erases hp
  · rename_i hp
    obtain ⟨_,c',hx,rfl⟩ := Sys.call_ok h
    exact .commits hp (.head hx) (by simp) (fun _ => Or.inr rfl)
  · cases h

theorem logRecord_moves {g : Geometry} {s s' : Sys} {p : Pid} {b : ℕ} (h : s.logRecord p b = .ok s') :
    Moves g s (.logRecord p b) s' := by
  unfold Sys.logRecord at h
  split at h
  · rename_i i hp
    split at h
    · rename_i hb
      split at h
      · rename_i lh' hr
        cases h
        exact .recorded hp hb hr
      · cases h
    · cases h
  · cases h

theorem endOp_moves {g : Geometry} {s s' : Sys} {p : Pid} (h : s.endOp p = .ok s') :
    Moves g s (.endOp p) s' := by
  unfold Sys.endOp at h
  split at h
  · rename_i hp
    dsimp only at h
    split at h
    · cases h
    · rename_i hc
      have hc : s.committing = false := by simpa using hc
      split at h
      · rename_i h0
        cases h
        exact .last hp hc h0
      · rename_i h0
        cases h
        exact .ended hp hc h0
  · cases h

theorem step_moves {g : Geometry} {s s' : Sys} {a : Action} (h : s.step g a = .ok s') : Moves g s a s' := by
  cases a with
  | beginOp p =>
    simp only [Sys.step,Sys.beginOp] at h
    split at h
    · rename_i hp
      split at h
      · cases h
        exact .sleeps hp
      · rename_i hc
        split at h
        · cases h
          exact .sleeps hp
        · rename_i hroom
          cases h
          exact .admitted hp (by simpa using hc) (by omega)
    · cases h
  | kill p =>
    simp only [Sys.step,Sys.kill] at h
    split at h
    · rename_i hp
      cases h
      exact .killed hp
    · cases h
  | bread p b =>
    simp only [Sys.step,Sys.bread] at h
    split at h
    · obtain ⟨i,c',hx,rfl⟩ := Sys.call_ok h
      exact .read hx
    · cases h
  | modify p i v =>
    simp only [Sys.step,Sys.modify] at h
    split at h
    · rename_i hp
      obtain ⟨_,c',hx,rfl⟩ := Sys.call_ok h
      cases hx
      exact .modified hp.2
    · cases h
  | brelse p i =>
    simp only [Sys.step,Sys.brelse] at h
    split at h
    · rename_i hp
      obtain ⟨_,c',hx,rfl⟩ := Sys.call_ok h
      exact .released hp.1 hp.2 hx
    · cases h
  | logWrite p i b =>
    simp only [Sys.step,Sys.logWrite] at h
    split at h
    · rename_i hp
      split at h
      · cases h
      · rename_i hk
        cases h
        exact .checked hp.1 hp.2.1 hp.2.2 hk
    · cases h
  | logRecord p b => exact logRecord_moves h
  | endOp p => exact endOp_moves h
  | commitStep p => exact commitStep_moves h
  | commitDone p =>
    simp only [Sys.step,Sys.commitDone] at h
    split at h
    · rename_i hp
      cases h
      exact .done hp
    · cases h

theorem KeepsHeld.release {c c' : Bcache} {i : Fin NBUF} (hi : ∀ b, ¬ Held c i b) (hk : KeepsHeld c c') :
    KeepsHeld c (released c' i) := by
  intro j b hj
  have hji : j ≠ i := by
    rintro rfl
    exact hi b hj
  exact released_held (hk j b hj) hji

theorem not_held_of_unlocked {c : Bcache} {i : Fin NBUF} (h : (c.buf i).locked = false) (b : ℕ) :
    ¬ Held c i b := by
  intro hi
  rw [hi.locked] at h
  cases h

theorem copyBuf_ok {c c' : Bcache} {dst src : Fin NBUF} {a b : ℕ} (hd : Held c dst a) (hs : Held c src b)
    (hne : dst ≠ src) (h : copyBuf dst src c = .ok () c') :
    c' = released (released (written c dst (c.buf src).data) src) dst := by
  have hw := bwrite_cases hd (c.buf src).data
  by_cases hr : FSSIZE ≤ a
  · rw [if_pos hr] at hw
    rw [copyBuf,bind_of_ok (get_apply c)] at h
    simp only [bind_apply,setData,modify_apply] at hw h
    rw [hw] at h
    cases h
  · rw [if_neg hr] at hw
    have hr1 := brelse_held (written_keepsHeld c dst (c.buf src).data src b hs)
    have hr2 := brelse_held (released_held (written_keepsHeld c dst (c.buf src).data dst a hd) hne)
    rw [copyBuf,bind_of_ok (get_apply c)] at h
    simp only [bind_apply,setData,modify_apply] at hw h
    rw [hw] at h
    dsimp only at h
    rw [hr1] at h
    dsimp only at h
    rw [hr2] at h
    cases h
    rfl

theorem copyCall_keeps {a b : ℕ} {k : Fin NBUF → Fin NBUF → BioM Unit}
    (hk : ∀ x y, k x y = copyBuf x y ∨ k x y = copyBuf y x) {c c' : Bcache} (hc : Indexed c)
    (h : (do let x ← bread a; let y ← bread b; k x y : BioM Unit) c = .ok () c') :
    Indexed c' ∧ KeepsHeld c c' := by
  obtain ⟨x,c1,hx,h⟩ := bind_eq_ok.mp h
  obtain ⟨y,c2,hy,h⟩ := bind_eq_ok.mp h
  obtain ⟨hi1,hk1,hx1,hl1,_⟩ := bread_indexed hc hx
  obtain ⟨hi2,hk2,hy2,hl2,_⟩ := bread_indexed hi1 hy
  have hx2 := hk2 x a hx1
  have hne : x ≠ y := by
    rintro rfl
    rw [hx1.locked] at hl2
    cases hl2
  have hnx := not_held_of_unlocked hl1
  have hny : ∀ d, ¬ Held c y d := fun d hd => not_held_of_unlocked hl2 d (hk1 y d hd)
  have hkeep : ∀ z v, KeepsHeld c (written c2 z v) := fun z v j d hj =>
    written_keepsHeld c2 z v j d (hk2 j d (hk1 j d hj))
  rcases hk x y with he | he
  · rw [he] at h
    rw [copyBuf_ok hx2 hy2 hne h]
    refine ⟨released_indexed (released_indexed (written_indexed hi2 hx2.dev _) _) _,?_⟩
    exact KeepsHeld.release hnx (KeepsHeld.release hny (hkeep _ _))
  · rw [he] at h
    rw [copyBuf_ok hy2 hx2 hne.symm h]
    refine ⟨released_indexed (released_indexed (written_indexed hi2 hy2.dev _) _) _,?_⟩
    exact KeepsHeld.release hny (KeepsHeld.release hnx (hkeep _ _))

theorem writeHead_keeps {g : Geometry} {lh : LogHeader} {c c' : Bcache} (hc : Indexed c)
    (h : writeHead g lh c = .ok () c') : Indexed c' ∧ KeepsHeld c c' := by
  obtain ⟨i,c1,hx,h⟩ := bind_eq_ok.mp h
  obtain ⟨hi1,hk1,hx1,hl1,_⟩ := bread_indexed hc hx
  rw [bind_of_ok (get_apply c1)] at h
  have hw := bwrite_cases hx1 (encodeHeader (c1.buf i).data lh)
  by_cases hr : FSSIZE ≤ g.start
  · rw [if_pos hr] at hw
    simp only [bind_apply,setData,modify_apply] at hw h
    rw [hw] at h
    cases h
  · rw [if_neg hr] at hw
    simp only [bind_apply,setData,modify_apply] at hw h
    rw [hw] at h
    dsimp only at h
    rw [brelse_held (written_keepsHeld c1 i _ i _ hx1)] at h
    cases h
    refine ⟨released_indexed (written_indexed hi1 hx1.dev _) _,?_⟩
    exact KeepsHeld.release (not_held_of_unlocked hl1)
      (fun j d hj => written_keepsHeld c1 i _ j d (hk1 j d hj))

theorem CommitCall.keeps {g : Geometry} {lh : LogHeader} {c c' : Bcache} (hc : Indexed c)
    (h : CommitCall g lh c c') : Indexed c' ∧ KeepsHeld c c' := by
  cases h with
  | none => exact ⟨hc,fun _ _ hj => hj⟩
  | log h => exact copyCall_keeps (fun _ _ => Or.inl rfl) hc h
  | head h => exact writeHead_keeps hc h
  | home h => exact copyCall_keeps (fun _ _ => Or.inr rfl) hc h

end Xv6.Log
