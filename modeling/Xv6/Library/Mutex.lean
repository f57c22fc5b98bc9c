import Mathlib

/-! # Mutual exclusion

Threads move between phases, in some of which they hold a lock. The record of the owner
is exact when the threads in a holding phase are the recorded owner and nobody else.
-/
namespace Xv6.Mutex
open Function
variable {T P : Type*} {has : P → Bool} {phase : T → P} {lock : Option T} {p q : T} {y : P}

def Held (has : P → Bool) (phase : T → P) (lock : Option T) : Prop := ∀ p, has (phase p) = true ↔ lock = some p

theorem Held.eq (h : Held has phase lock) (hp : has (phase p) = true) (hq : has (phase q) = true) : p = q := by
  rw [h q,(h p).mp hp] at hq
  exact Option.some.inj hq

theorem Held.free (h : Held has phase none) (p : T) : has (phase p) = false := by
  refine Bool.eq_false_iff.mpr fun hp => ?_
  have := (h p).mp hp
  cases this

def owner (now before : Bool) (p : T) (old : Option T) : Option T :=
  if now then some p else if before then none else old

variable [DecidableEq T]

/-- A thread that gets the lock must have held it, or the lock was free. -/
theorem Held.move (h : Held has phase lock) (hfree : has y = true → has (phase p) = true ∨ lock = none) :
    Held has (update phase p y) (owner (has y) (has (phase p)) p lock) := by
  intro q
  have hp := h p
  by_cases hq : q = p
  · subst hq
    rw [update_self]
    cases hnow : has y with
    | true => simp [owner]
    | false =>
      cases hbefore : has (phase q) with
      | true => simp [owner]
      | false =>
        rw [hbefore] at hp
        simpa [owner] using hp
  · rw [update_of_ne hq,h q]
    cases hnow : has y with
    | true =>
      have hold : lock ≠ some q := by
        rcases hfree hnow with hb | hn
        · rw [hp.mp hb]
          exact fun he => hq (Option.some.inj he).symm
        · simp [hn]
      simp [owner,hold,Ne.symm hq]
    | false =>
      cases hbefore : has (phase p) with
      | true =>
        rw [hp.mp hbefore]
        simp [owner,Ne.symm hq]
      | false => simp [owner]

theorem Held.stay (h : Held has phase lock) (hsame : has y = has (phase p)) :
    Held has (update phase p y) lock := by
  have hmove := h.move (p := p) (y := y) fun hn => .inl (hsame ▸ hn)
  cases hb : has (phase p) with
  | true =>
    rw [hsame,hb] at hmove
    rw [(h p).mp hb]
    exact hmove
  | false =>
    rw [hsame,hb] at hmove
    exact hmove

theorem Held.acquire (h : Held has phase none) (hnew : has y = true) :
    Held has (update phase p y) (some p) := by
  have hmove := h.move (p := p) (y := y) fun _ => .inr rfl
  rw [hnew] at hmove
  exact hmove

theorem Held.release (h : Held has phase lock) (hold : has (phase p) = true) (hnew : has y = false) :
    Held has (update phase p y) none := by
  have hmove := h.move (p := p) (y := y) fun _ => .inl hold
  rw [hnew,hold] at hmove
  exact hmove

/-- Of several locks, a step changes the owner of one. -/
theorem held_update {L : Type*} [DecidableEq L] {has : L → P → Bool} {holder : L → Option T} {l : L} {o : Option T}
    (h : ∀ m, Held (has m) phase (holder m)) (hl : Held (has l) (update phase p y) o)
    (hother : ∀ m, m ≠ l → has m y = has m (phase p)) (m : L) :
    Held (has m) (update phase p y) (update holder l o m) := by
  by_cases hm : m = l
  · rw [hm,update_self]
    exact hl
  · rw [update_of_ne hm]
    exact (h m).stay (hother m hm)

end Xv6.Mutex
