import Xv6.Library.Program

/-! # Programs that run in step

Two programs over different states that take related states to related states, return
related results and stop with the same errors.
-/
namespace Xv6.Program
variable {ε σ τ α β α' β' : Type} {R : σ → τ → Prop} {S : α → α' → Prop} {T : β → β' → Prop}

def Sim (R : σ → τ → Prop) (S : α → α' → Prop) (x : EStateM ε σ α) (y : EStateM ε τ α') : Prop :=
  ∀ s t, R s t → match x s, y t with
    | .ok a s', .ok b t' => S a b ∧ R s' t'
    | .error e _, .error e' _ => e = e'
    | _, _ => False

theorem Sim.pure {a : α} {b : α'} (h : S a b) : Sim R S (pure a : EStateM ε σ α) (pure b : EStateM ε τ α') :=
  fun _ _ hst => ⟨h,hst⟩

theorem Sim.throw (e : ε) : Sim R S (throw e : EStateM ε σ α) (throw e : EStateM ε τ α') := fun _ _ _ => rfl

theorem Sim.bind {x : EStateM ε σ α} {y : EStateM ε τ α'} {f : α → EStateM ε σ β} {g : α' → EStateM ε τ β'}
    (h : Sim R S x y) (hf : ∀ a b, S a b → Sim R T (f a) (g b)) : Sim R T (x >>= f) (y >>= g) := by
  intro s t hst
  have hxy := h s t hst
  simp only [bind_apply]
  cases hx : x s with
  | ok a s' =>
    cases hy : y t with
    | ok b t' =>
      rw [hx,hy] at hxy
      exact hf a b hxy.1 s' t' hxy.2
    | error e t' =>
      rw [hx,hy] at hxy
      exact hxy.elim
  | error e s' =>
    cases hy : y t with
    | ok b t' =>
      rw [hx,hy] at hxy
      exact hxy.elim
    | error e' t' =>
      rw [hx,hy] at hxy
      exact hxy

theorem Sim.ite {c : Prop} [Decidable c] {x x' : EStateM ε σ α} {y y' : EStateM ε τ α'} (h : Sim R S x y)
    (h' : Sim R S x' y') : Sim R S (if c then x else x') (if c then y else y') := by
  split
  · exact h
  · exact h'

theorem Sim.ok {x : EStateM ε σ α} {y : EStateM ε τ α'} (h : Sim R S x y) {s : σ} {t t' : τ} {b : α'} (hst : R s t)
    (hy : y t = .ok b t') : ∃ a s', x s = .ok a s' ∧ S a b ∧ R s' t' := by
  have hxy := h s t hst
  cases hx : x s with
  | ok a s' =>
    rw [hx,hy] at hxy
    exact ⟨a,s',rfl,hxy⟩
  | error e s' =>
    rw [hx,hy] at hxy
    exact hxy.elim

theorem Sim.error {x : EStateM ε σ α} {y : EStateM ε τ α'} (h : Sim R S x y) {s : σ} {t t' : τ} {e : ε}
    (hst : R s t) (hy : y t = .error e t') : ∃ s', x s = .error e s' := by
  have hxy := h s t hst
  cases hx : x s with
  | ok a s' =>
    rw [hx,hy] at hxy
    exact hxy.elim
  | error e' s' =>
    rw [hx,hy] at hxy
    exact ⟨s',by rw [hxy]⟩

end Xv6.Program
