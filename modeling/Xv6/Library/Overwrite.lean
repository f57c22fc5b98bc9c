import Mathlib

/-! # Overwriting a part of a list

A part of a list is replaced by another list of the same length; where it reaches past the end, the
list grows.
-/
namespace Xv6.Overwrite
variable {α : Type*} {old a b : List α} {off : ℕ}

def overwrite (old : List α) (off : ℕ) (src : List α) : List α := old.take off ++ src ++ old.drop (off+src.length)

@[simp] theorem overwrite_nil (old : List α) (off : ℕ) : overwrite old off [] = old := by
  rw [overwrite,List.append_nil,List.length_nil,Nat.add_zero,List.take_append_drop]

theorem length_overwrite (h : off ≤ old.length) : (overwrite old off a).length = max old.length (off+a.length) := by
  simp only [overwrite,List.length_append,List.length_take,List.length_drop]
  omega

theorem getElem?_overwrite (h : off ≤ old.length) (k : ℕ) :
    (overwrite old off a)[k]? = if off ≤ k ∧ k < off+a.length then a[k-off]? else old[k]? := by
  have htake : (old.take off).length = off := by rw [List.length_take,Nat.min_eq_left h]
  rw [overwrite,List.append_assoc]
  by_cases hlo : k < off
  · rw [if_neg (by omega),List.getElem?_append_left (by omega),List.getElem?_take_of_lt hlo]
  · rw [List.getElem?_append_right (by omega),htake]
    by_cases hhi : k < off+a.length
    · rw [if_pos ⟨by omega,hhi⟩,List.getElem?_append_left (by omega)]
    · rw [if_neg (by omega),List.getElem?_append_right (by omega),List.getElem?_drop]
      congr 1
      omega

theorem overwrite_append (h : off ≤ old.length) :
    overwrite (overwrite old off a) (off+a.length) b = overwrite old off (a ++ b) := by
  have h' : off+a.length ≤ (overwrite old off a).length := by
    rw [length_overwrite h]
    omega
  refine List.ext_getElem? fun k => ?_
  rw [getElem?_overwrite h',getElem?_overwrite h,getElem?_overwrite h,List.length_append]
  by_cases hb : off+a.length ≤ k ∧ k < off+a.length+b.length
  · rw [if_pos hb,if_pos (by omega),List.getElem?_append_right (by omega)]
    congr 1
    omega
  · rw [if_neg hb]
    by_cases ha : off ≤ k ∧ k < off+a.length
    · rw [if_pos ha,if_pos (by omega),List.getElem?_append_left (by omega)]
    · rw [if_neg ha,if_neg (by omega)]

theorem overwrite_length (old a : List α) : overwrite old old.length a = old ++ a := by
  rw [overwrite,List.take_length,List.drop_eq_nil_of_le (by omega),List.append_nil]

end Xv6.Overwrite
