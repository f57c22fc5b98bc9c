import Mathlib

/-! # Counting the entries of a table

How many entries of a finite table pass a test, and how the number changes with one entry.
-/
namespace Xv6.Tally
open Function
variable {α β : Type*} [Fintype α]

def tally (f : α → β) (test : β → Bool) : ℕ := (Finset.univ.filter fun a => test (f a) = true).card

theorem tally_eq_sum (f : α → β) (test : β → Bool) : tally f test = ∑ a, (test (f a)).toNat := by
  rw [tally,Finset.card_filter]
  refine Finset.sum_congr rfl fun a _ => ?_
  cases test (f a) <;> rfl

theorem tally_update [DecidableEq α] (f : α → β) (test : β → Bool) (i : α) (v : β) :
    tally (Function.update f i v) test+(test (f i)).toNat = tally f test+(test v).toNat := by
  have hsum : ∀ g : α → β, ∑ a, (test (g a)).toNat = (test (g i)).toNat+∑ a ∈ Finset.univ.erase i, (test (g a)).toNat :=
    fun g => (Finset.add_sum_erase _ _ (Finset.mem_univ i)).symm
  have hrest : ∑ a ∈ Finset.univ.erase i, (test (update f i v a)).toNat =
      ∑ a ∈ Finset.univ.erase i, (test (f a)).toNat :=
    Finset.sum_congr rfl fun a ha => by rw [update_of_ne (Finset.ne_of_mem_erase ha)]
  rw [tally_eq_sum,tally_eq_sum,hsum,hsum f,hrest,update_self]
  omega

theorem tally_pos {f : α → β} {test : β → Bool} {i : α} (h : test (f i) = true) : 0 < tally f test :=
  Finset.card_pos.mpr ⟨i,by simpa using h⟩

theorem tally_eq_zero {f : α → β} {test : β → Bool} (h : ∀ i, test (f i) = false) : tally f test = 0 :=
  Finset.card_eq_zero.mpr (Finset.filter_eq_empty_iff.mpr fun i _ => by simp [h i])

end Xv6.Tally
