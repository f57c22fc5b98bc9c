import Mathlib

/-! # Programs with state and failure

A program is a function from a state to an outcome, and a failing outcome still
carries the state the failure happened in. `Spec` speaks about every outcome, so
a specification says both what a program returns and in which ways it may fail.
-/
namespace Xv6.Program
variable {ε σ α β : Type}

def Spec (P : σ → Prop) (x : EStateM ε σ α) (Q : α → σ → Prop) (E : ε → σ → Prop) : Prop :=
  ∀ s, P s → match x s with
    | .ok a t => Q a t
    | .error e t => E e t

theorem bind_apply (x : EStateM ε σ α) (f : α → EStateM ε σ β) (s : σ) :
    (x >>= f) s = match x s with
      | .ok a t => f a t
      | .error e t => .error e t := rfl

theorem bind_of_ok {x : EStateM ε σ α} {f : α → EStateM ε σ β} {s t : σ} {a : α}
    (h : x s = .ok a t) : (x >>= f) s = f a t := by rw [bind_apply,h]

theorem bind_of_error {x : EStateM ε σ α} {f : α → EStateM ε σ β} {s t : σ} {e : ε}
    (h : x s = .error e t) : (x >>= f) s = .error e t := by rw [bind_apply,h]

theorem bind_eq_ok {x : EStateM ε σ α} {f : α → EStateM ε σ β} {s t : σ} {b : β} :
    (x >>= f) s = .ok b t ↔ ∃ a u, x s = .ok a u ∧ f a u = .ok b t := by
  rw [bind_apply]
  constructor
  · intro h
    cases hx : x s with
    | ok a u => exact ⟨a,u,rfl,by simpa only [hx] using h⟩
    | error e u => simp [hx] at h
  · rintro ⟨a,u,hx,hf⟩
    rw [hx]
    exact hf

theorem ok_bind (a : α) (f : α → Except ε β) : (.ok a >>= f) = f a := rfl

theorem bind_ok {x : Except ε α} {f : α → Except ε β} {b : β} (h : x >>= f = .ok b) : ∃ a, x = .ok a ∧ f a = .ok b := by
  cases x with
  | ok a => exact ⟨a,rfl,h⟩
  | error e => cases h

theorem exists_ok {x : Except ε α} {p : α → Bool} (h : x.toOption.any p = true) : ∃ a, x = .ok a ∧ p a = true := by
  cases x with
  | ok a => exact ⟨a,rfl,h⟩
  | error e => cases h

/-- A check of an outcome, for programs that are evaluated. -/
def returns (p : α → σ → Bool) : EStateM.Result ε σ α → Bool
  | .ok a s => p a s
  | .error _ _ => false

theorem exists_of_returns {p : α → σ → Bool} {r : EStateM.Result ε σ α} (h : returns p r = true) :
    ∃ a s, r = .ok a s ∧ p a s = true := by
  cases r with
  | ok a s => exact ⟨a,s,rfl,h⟩
  | error e s => cases h

@[simp] theorem pure_apply (a : α) (s : σ) : (pure a : EStateM ε σ α) s = .ok a s := rfl
@[simp] theorem get_apply (s : σ) : (get : EStateM ε σ σ) s = .ok s s := rfl
@[simp] theorem set_apply (s t : σ) : (set t : EStateM ε σ PUnit) s = .ok ⟨⟩ t := rfl
@[simp] theorem modify_apply (f : σ → σ) (s : σ) :
    (modify f : EStateM ε σ PUnit) s = .ok ⟨⟩ (f s) := rfl
@[simp] theorem throw_apply (e : ε) (s : σ) : (throw e : EStateM ε σ α) s = .error e s := rfl

theorem Spec.pure {P : σ → Prop} {Q : α → σ → Prop} {E : ε → σ → Prop} {a : α}
    (h : ∀ s, P s → Q a s) : Spec P (pure a : EStateM ε σ α) Q E := fun s hs => h s hs

theorem Spec.bind {P : σ → Prop} {x : EStateM ε σ α} {R : α → σ → Prop} {E : ε → σ → Prop}
    {f : α → EStateM ε σ β} {Q : β → σ → Prop}
    (hx : Spec P x R E) (hf : ∀ a, Spec (R a) (f a) Q E) : Spec P (x >>= f) Q E := by
  intro s hs
  have h := hx s hs
  rw [bind_apply]
  cases hxs : x s with
  | ok a t =>
    rw [hxs] at h
    exact hf a t h
  | error e t =>
    rw [hxs] at h
    exact h

theorem Spec.weaken {P P' : σ → Prop} {x : EStateM ε σ α} {Q Q' : α → σ → Prop} {E E' : ε → σ → Prop}
    (h : Spec P x Q E) (hP : ∀ s, P' s → P s) (hQ : ∀ a s, Q a s → Q' a s)
    (hE : ∀ e s, E e s → E' e s) : Spec P' x Q' E' := by
  intro s hs
  have hh := h s (hP s hs)
  cases hx : x s with
  | ok a t =>
    rw [hx] at hh
    exact hQ a t hh
  | error e t =>
    rw [hx] at hh
    exact hE e t hh

theorem Spec.ok {P : σ → Prop} {x : EStateM ε σ α} {Q : α → σ → Prop} {E : ε → σ → Prop}
    (h : Spec P x Q E) {s t : σ} {a : α} (hs : P s) (hx : x s = .ok a t) : Q a t := by
  have hh := h s hs
  rw [hx] at hh
  exact hh

theorem Spec.error {P : σ → Prop} {x : EStateM ε σ α} {Q : α → σ → Prop} {E : ε → σ → Prop}
    (h : Spec P x Q E) {s t : σ} {e : ε} (hs : P s) (hx : x s = .error e t) : E e t := by
  have hh := h s hs
  rw [hx] at hh
  exact hh

section Moves
variable {R E R' E' : σ → σ → Prop} {x : EStateM ε σ α} {f : α → EStateM ε σ β}

def Moves (R E : σ → σ → Prop) (x : EStateM ε σ α) : Prop :=
  ∀ s, match x s with
    | .ok _ t => R s t
    | .error _ t => E s t

theorem Moves.ok (h : Moves R E x) {s t : σ} {a : α} (hx : x s = .ok a t) : R s t := by
  have hh := h s
  rw [hx] at hh
  exact hh

theorem Moves.error (h : Moves R E x) {s t : σ} {e : ε} (hx : x s = .error e t) : E s t := by
  have hh := h s
  rw [hx] at hh
  exact hh

theorem Moves.mono (h : Moves R E x) (hR : ∀ s t, R s t → R' s t) (hE : ∀ s t, E s t → E' s t) :
    Moves R' E' x := by
  intro s
  cases hx : x s with
  | ok a t => exact hR s t (h.ok hx)
  | error e t => exact hE s t (h.error hx)

theorem Moves.bind (hR : ∀ s t u, R s t → R t u → R s u) (hE : ∀ s t u, R s t → E t u → E s u)
    (hx : Moves R E x) (hf : ∀ a, Moves R E (f a)) : Moves R E (x >>= f) := by
  intro s
  rw [bind_apply]
  cases hxs : x s with
  | error e t => exact hx.error hxs
  | ok a t =>
    have h1 := hx.ok hxs
    change match f a t with
      | .ok _ u => R s u
      | .error _ u => E s u
    cases hfa : f a t with
    | ok b u => exact hR s t u h1 ((hf a).ok hfa)
    | error e u => exact hE s t u h1 ((hf a).error hfa)

end Moves

end Xv6.Program
