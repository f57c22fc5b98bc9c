import Xv6.Library.Program

/-! # Executing a program forwards

`Wp x Q E s` says what a program started in `s` may end in: it returns into `Q`, or
it stops with an error that `E` admits. The rules follow the program from its first
statement to its last one.
-/
namespace Xv6.Program
variable {ε σ α β : Type} {x : EStateM ε σ α} {f : α → EStateM ε σ β} {E E' : ε → Prop} {s t : σ}

def Wp (x : EStateM ε σ α) (Q : α → σ → Prop) (E : ε → Prop) (s : σ) : Prop :=
  match x s with
  | .ok a t => Q a t
  | .error e _ => E e

theorem Wp.ok {Q : α → σ → Prop} (h : Wp x Q E s) {a : α} (hx : x s = .ok a t) : Q a t := by
  rw [Wp,hx] at h
  exact h

theorem Wp.error {Q : α → σ → Prop} (h : Wp x Q E s) {e : ε} (hx : x s = .error e t) : E e := by
  rw [Wp,hx] at h
  exact h

theorem Wp.intro {Q : α → σ → Prop} (hok : ∀ a t, x s = .ok a t → Q a t) (herr : ∀ e t, x s = .error e t → E e) :
    Wp x Q E s := by
  unfold Wp
  split
  · exact hok _ _ ‹_›
  · exact herr _ _ ‹_›

theorem Wp.pure {Q : α → σ → Prop} {a : α} (h : Q a s) : Wp (pure a : EStateM ε σ α) Q E s := h

theorem Wp.throw {Q : α → σ → Prop} {e : ε} (h : E e) : Wp (throw e : EStateM ε σ α) Q E s := h

theorem Wp.mono {Q Q' : α → σ → Prop} (h : Wp x Q E s) (hQ : ∀ a t, Q a t → Q' a t) : Wp x Q' E s :=
  Wp.intro (fun _ _ hx => hQ _ _ (h.ok hx)) (fun _ _ hx => h.error hx)

theorem Wp.bind {Q : β → σ → Prop} (h : Wp x (fun a t => Wp (f a) Q E t) E s) : Wp (x >>= f) Q E s := by
  unfold Wp at h ⊢
  rw [bind_apply]
  cases hx : x s with
  | ok a t =>
    rw [hx] at h
    exact h
  | error e t =>
    rw [hx] at h
    exact h

theorem Wp.step {R : α → σ → Prop} {Q : β → σ → Prop} (h : Wp x R E s)
    (hf : ∀ a t, R a t → Wp (f a) Q E t) : Wp (x >>= f) Q E s := (h.mono hf).bind

theorem Wp.ite {c : Prop} [Decidable c] {x y : EStateM ε σ α} {Q : α → σ → Prop}
    (hx : c → Wp x Q E s) (hy : ¬c → Wp y Q E s) : Wp (if c then x else y) Q E s := by
  split
  · exact hx ‹_›
  · exact hy ‹_›

section Within
variable {R : σ → σ → Prop}

def Within (R : σ → σ → Prop) (x : EStateM ε σ α) : Prop := ∀ s a t, x s = .ok a t → R s t

theorem Within.throw (e : ε) : Within R (throw e : EStateM ε σ α) := nofun

theorem Within.modify {g : σ → σ} (h : ∀ s, R s (g s)) : Within R (modify g : EStateM ε σ PUnit) := by
  rintro s a t ⟨⟩
  exact h s

theorem Within.read {f : σ → EStateM ε σ β} (h : ∀ s b t, f s s = .ok b t → R s t) : Within R (get >>= f) := h

theorem Within.get {f : σ → EStateM ε σ β} (h : ∀ s, Within R (f s)) : Within R (get >>= f) :=
  .read fun s b t => h s s b t

theorem Within.ite {c : Prop} [Decidable c] {x y : EStateM ε σ α} (hx : c → Within R x) (hy : ¬c → Within R y) :
    Within R (if c then x else y) := by
  split
  · exact hx ‹_›
  · exact hy ‹_›

variable [IsPreorder σ R]

theorem Within.pure (a : α) : Within R (pure a : EStateM ε σ α) := by
  rintro s a t ⟨⟩
  exact refl s

theorem Within.bind (hx : Within R x) (hf : ∀ a, Within R (f a)) : Within R (x >>= f) := by
  intro s b u h
  obtain ⟨a,t,hxs,hfa⟩ := bind_eq_ok.mp h
  exact IsTrans.trans _ _ _ (hx s a t hxs) (hf a t b u hfa)

end Within

end Xv6.Program
