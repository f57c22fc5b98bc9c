import Mathlib

/-! # Tokens that are handed out and given back

Tokens are numbered in the order in which they are handed out. Each one is with at most
one owner, and one that has been given back is with nobody and is never given back again.
-/
namespace Xv6
variable {ι : Type*} {next : ℕ} {held held' : ι → List ℕ} {freed freed' : List ℕ} {i : ι}

structure Tokens (next : ℕ) (held : ι → List ℕ) (freed : List ℕ) : Prop where
  bound : ∀ i, ∀ x ∈ held i, x < next
  past : ∀ x ∈ freed, x < next
  apart : ∀ i j x, x ∈ held i → x ∈ held j → i = j
  nodup : ∀ i, (held i).Nodup
  kept : ∀ i, ∀ x ∈ held i, x ∉ freed
  once : freed.Nodup

theorem Tokens.congr (h : Tokens next held freed) (hheld : ∀ j, held' j = held j) (hfreed : freed'.Perm freed) :
    Tokens next held' freed' := by
  have hsame : held' = held := funext hheld
  subst hsame
  refine ⟨h.bound,?_,h.apart,h.nodup,?_,hfreed.nodup_iff.mpr h.once⟩
  · exact fun x hx => h.past x (hfreed.mem_iff.mp hx)
  · exact fun j x hx hc => h.kept j x hx (hfreed.mem_iff.mp hc)

theorem Tokens.take (h : Tokens next held freed) (hi : held' i = held i ++ [next])
    (hother : ∀ j, j ≠ i → held' j = held j) : Tokens (next+1) held' freed := by
  have hmem : ∀ {j x}, x ∈ held' j → x ∈ held j ∨ j = i ∧ x = next := by
    intro j x hx
    by_cases hj : j = i
    · subst hj
      rw [hi] at hx
      rcases List.mem_append.mp hx with hx | hx
      · exact .inl hx
      · exact .inr ⟨rfl,List.mem_singleton.mp hx⟩
    · rw [hother j hj] at hx
      exact .inl hx
  refine ⟨?_,?_,?_,?_,?_,h.once⟩
  · intro j x hx
    rcases hmem hx with hx | ⟨-,rfl⟩
    · exact (h.bound j x hx).trans (Nat.lt_succ_self _)
    · exact Nat.lt_succ_self _
  · exact fun x hx => (h.past x hx).trans (Nat.lt_succ_self _)
  · intro j k x hj hk
    rcases hmem hj with hj | ⟨rfl,rfl⟩
    · rcases hmem hk with hk | ⟨rfl,rfl⟩
      · exact h.apart j k x hj hk
      · exact absurd (h.bound j x hj) (Nat.lt_irrefl _)
    · rcases hmem hk with hk | ⟨rfl,-⟩
      · exact absurd (h.bound k x hk) (Nat.lt_irrefl _)
      · rfl
  · intro j
    by_cases hj : j = i
    · subst hj
      rw [hi]
      refine List.nodup_append.mpr ⟨h.nodup j,List.nodup_singleton _,?_⟩
      rintro x hx y hy rfl
      rw [List.mem_singleton.mp hy] at hx
      exact Nat.lt_irrefl _ (h.bound j next hx)
    · rw [hother j hj]
      exact h.nodup j
  · intro j x hx hc
    rcases hmem hx with hx | ⟨-,rfl⟩
    · exact h.kept j x hx hc
    · exact Nat.lt_irrefl _ (h.past x hc)

theorem Tokens.drop (h : Tokens next held freed) (hi : held' i = []) (hother : ∀ j, j ≠ i → held' j = held j)
    (hfreed : freed'.Perm (freed ++ held i)) : Tokens next held' freed' := by
  have hmem : ∀ {j x}, x ∈ held' j → j ≠ i ∧ x ∈ held j := by
    intro j x hx
    have hj : j ≠ i := by
      rintro rfl
      rw [hi] at hx
      cases hx
    rw [hother j hj] at hx
    exact ⟨hj,hx⟩
  have hgone : ∀ {x}, x ∈ freed' → x ∈ freed ∨ x ∈ held i := fun hx => List.mem_append.mp (hfreed.mem_iff.mp hx)
  refine ⟨?_,?_,?_,?_,?_,?_⟩
  · exact fun j x hx => h.bound j x (hmem hx).2
  · intro x hx
    rcases hgone hx with hx | hx
    · exact h.past x hx
    · exact h.bound i x hx
  · exact fun j k x hj hk => h.apart j k x (hmem hj).2 (hmem hk).2
  · intro j
    by_cases hj : j = i
    · subst hj
      rw [hi]
      exact List.nodup_nil
    · rw [hother j hj]
      exact h.nodup j
  · intro j x hx hc
    obtain ⟨hj,hx⟩ := hmem hx
    rcases hgone hc with hc | hc
    · exact h.kept j x hx hc
    · exact hj (h.apart j i x hx hc)
  · refine hfreed.nodup_iff.mpr (List.nodup_append.mpr ⟨h.once,h.nodup i,?_⟩)
    rintro x hx y hy rfl
    exact h.kept i x hy hx

end Xv6
