import Mathlib

/-! # Runs of a labelled transition system

A run is the list of labels taken from a start state, extended at its end. An
invariant may depend on the labels taken so far, so that it can speak about the
history of a run as well as about its last state.
-/
namespace Xv6.Runs
variable {σ α ε : Type*}

inductive Run (Step : σ → α → σ → Prop) (s : σ) : List α → σ → Prop
  | nil : Run Step s [] s
  | snoc {t : List α} {u v : σ} {a : α} : Run Step s t u → Step u a v → Run Step s (t ++ [a]) v

variable {Step : σ → α → σ → Prop} {s u v : σ} {t : List α}

/-- What holds at the start and is kept by every step from a state of the run holds at its end. -/
theorem Run.invariant {I : List α → σ → Prop} (h0 : I [] s)
    (hstep : ∀ t u a v, Run Step s t u → I t u → Step u a v → I (t ++ [a]) v) (h : Run Step s t u) :
    I t u := by
  induction h with
  | nil => exact h0
  | snoc hrun hlast ih => exact hstep _ _ _ _ hrun ih hlast

theorem Run.nil_eq (h : Run Step s [] u) : u = s := by
  generalize ht : ([] : List α) = t at h
  cases h with
  | nil => rfl
  | snoc => exact absurd ht.symm (List.append_ne_nil_of_right_ne_nil _ (List.cons_ne_nil _ _))

theorem Run.last {a : α} (h : Run Step s (t ++ [a]) v) : ∃ u, Run Step s t u ∧ Step u a v := by
  generalize ht : t ++ [a] = t' at h
  cases h with
  | nil => exact absurd ht (List.append_ne_nil_of_right_ne_nil _ (List.cons_ne_nil _ _))
  | snoc hrun hlast =>
    obtain ⟨rfl,hsame⟩ := List.append_inj' ht rfl
    cases hsame
    exact ⟨_,hrun,hlast⟩

theorem Run.upto {t' : List α} (h : Run Step s t u) (hp : t' <+: t) : ∃ u', Run Step s t' u' := by
  induction h with
  | nil =>
    rw [List.prefix_nil.mp hp]
    exact ⟨s,.nil⟩
  | snoc hrun hlast ih =>
    rcases List.prefix_concat_iff.mp hp with rfl | hp'
    · exact ⟨_,hrun.snoc hlast⟩
    · exact ih hp'

theorem Run.mono {Step' : σ → α → σ → Prop} (hsub : ∀ u a v, Step u a v → Step' u a v) (h : Run Step s t u) :
    Run Step' s t u := by
  induction h with
  | nil => exact .nil
  | snoc _ hlast ih => exact ih.snoc (hsub _ _ _ hlast)

theorem Run.append {t' : List α} (h : Run Step s t u) (h' : Run Step u t' v) : Run Step s (t ++ t') v := by
  induction h' with
  | nil =>
    rw [List.append_nil]
    exact h
  | snoc _ hlast ih =>
    rw [← List.append_assoc]
    exact ih.snoc hlast

theorem Run.cons {a : α} (h : Step s a u) (h' : Run Step u t v) : Run Step s (a :: t) v :=
  (Run.nil.snoc h).append h'

/-- The labels taken by steps that are computed where they are possible. -/
theorem Run.of_foldlM {next : σ → α → Option σ} (h : t.foldlM next s = some u) :
    Run (fun s a s' => next s a = some s') s t u := by
  induction t using List.reverseRecOn generalizing u with
  | nil =>
    cases h
    exact .nil
  | append_singleton t a ih =>
    rw [List.foldlM_append] at h
    obtain ⟨v,hv,h⟩ := Option.bind_eq_some_iff.mp h
    rw [List.foldlM_cons] at h
    obtain ⟨w,hw,h⟩ := Option.bind_eq_some_iff.mp h
    cases h
    exact (ih hv).snoc hw

/-- The same for steps that are taken only where a condition holds. -/
theorem Run.of_foldlM_guard {next : σ → α → Option σ} {P : σ → α → Prop} [∀ s a, Decidable (P s a)]
    (h : t.foldlM (fun s a => if P s a then next s a else none) s = some u) :
    Run (fun s a s' => P s a ∧ next s a = some s') s t u := by
  refine (Run.of_foldlM h).mono fun u a v hstep => ?_
  split at hstep
  · rename_i hP
    exact ⟨hP,hstep⟩
  · cases hstep

def Ok (step : σ → α → Except ε σ) (s : σ) (a : α) (s' : σ) : Prop := step s a = .ok s'

def exec (step : σ → α → Except ε σ) (s : σ) : List α → Except ε σ
  | [] => .ok s
  | a :: t => match step s a with
    | .ok s' => exec step s' t
    | .error e => .error e

variable {step : σ → α → Except ε σ}

theorem exec_append (t₁ t₂ : List α) :
    exec step s (t₁ ++ t₂) = match exec step s t₁ with
      | .ok s' => exec step s' t₂
      | .error e => .error e := by
  induction t₁ generalizing s with
  | nil => rfl
  | cons a t₁ ih =>
    simp only [List.cons_append,exec]
    cases step s a with
    | ok s' => exact ih
    | error e => rfl

theorem exec_eq_ok : exec step s t = .ok u ↔ Run (Ok step) s t u := by
  constructor
  · intro h
    induction t using List.reverseRecOn generalizing u with
    | nil =>
      cases h
      exact .nil
    | append_singleton t a ih =>
      rw [exec_append] at h
      cases ht : exec step s t with
      | error e => simp [ht] at h
      | ok v =>
        simp only [ht,exec] at h
        cases ha : step v a with
        | error e => simp [ha] at h
        | ok w =>
          simp only [ha,Except.ok.injEq] at h
          subst h
          exact (ih ht).snoc ha
  · intro h
    induction h with
    | nil => rfl
    | snoc _ hlast ih =>
      rw [exec_append,ih]
      simp only [exec]
      rw [show step _ _ = _ from hlast]

theorem exec_eq_error {e : ε} (h : exec step s t = .error e) :
    ∃ t' a u, t' ++ [a] <+: t ∧ Run (Ok step) s t' u ∧ step u a = .error e := by
  induction t using List.reverseRecOn with
  | nil => cases h
  | append_singleton t a ih =>
    rw [exec_append] at h
    cases ht : exec step s t with
    | error e' =>
      simp only [ht,Except.error.injEq] at h
      subst h
      obtain ⟨t',b,u,hp,hrun,hb⟩ := ih ht
      exact ⟨t',b,u,hp.trans (List.prefix_append _ _),hrun,hb⟩
    | ok v =>
      simp only [ht,exec] at h
      cases ha : step v a with
      | ok w => simp [ha] at h
      | error e' =>
        simp only [ha,Except.error.injEq] at h
        subst h
        exact ⟨t,a,v,List.prefix_rfl,exec_eq_ok.mp ht,ha⟩

end Xv6.Runs
