import Mathlib

/-! # Reserving room for sets that grow

Clients add elements to a common set, each client at most `M` of them. The demand
counts the elements in use together with what the current clients may still add; it
moves only when a client is admitted.
-/
namespace Xv6.Reservation
variable {P B : Type*} [DecidableEq P] [DecidableEq B]

def demand (M : ℕ) (base : Finset B) (A : Finset P) (used : P → Finset B) : ℕ :=
  (base ∪ A.biUnion used).card + ∑ p ∈ A, (M - (used p).card)

variable {M : ℕ} {base base' : Finset B} {A : Finset P} {used used' : P → Finset B} {p : P} {b : B}

omit [DecidableEq P] in
theorem card_le_demand : base.card ≤ demand M base A used :=
  le_trans (Finset.card_le_card Finset.subset_union_left) (Nat.le_add_right _ _)

omit [DecidableEq P] in
theorem demand_congr (h : ∀ q ∈ A, used' q = used q) : demand M base A used' = demand M base A used := by
  unfold demand
  rw [Finset.biUnion_congr rfl h,Finset.sum_congr rfl (fun q hq => by rw [h q hq])]

omit [DecidableEq P] in
theorem demand_mono (h : base' ⊆ base) : demand M base' A used ≤ demand M base A used :=
  Nat.add_le_add_right (Finset.card_le_card (Finset.union_subset_union_left h)) _

omit [DecidableEq P] in
theorem demand_insert_base (hp : p ∈ A) (hb : b ∈ used p) :
    demand M (insert b base) A used = demand M base A used := by
  unfold demand
  rw [Finset.insert_union,Finset.insert_eq_self.mpr]
  exact Finset.mem_union_right _ (Finset.mem_biUnion.mpr ⟨p,hp,hb⟩)

theorem demand_erase (h : ∀ q ∈ A.erase p, used' q = used q) :
    demand M base (A.erase p) used' ≤ demand M base A used := by
  rw [demand_congr h]
  unfold demand
  have hsub := Finset.erase_subset p A
  have hunion := Finset.union_subset_union_right (s := base)
    (Finset.biUnion_subset_biUnion_of_subset_left used hsub)
  exact Nat.add_le_add (Finset.card_le_card hunion) (Finset.sum_le_sum_of_subset hsub)

/-- A client within its limit pays for a new element out of its reservation. -/
theorem demand_use (hp : p ∈ A) (hself : used' p = insert b (used p)) (hlim : (used' p).card ≤ M)
    (hother : ∀ q ∈ A, q ≠ p → used' q = used q) : demand M base A used' ≤ demand M base A used := by
  by_cases hb : b ∈ used p
  · apply le_of_eq
    apply demand_congr
    intro q hq
    by_cases hqp : q = p
    · subst q
      rw [hself,Finset.insert_eq_self.mpr hb]
    · exact hother q hq hqp
  · have hcard : (used' p).card = (used p).card + 1 := by rw [hself,Finset.card_insert_of_notMem hb]
    have hunion : base ∪ A.biUnion used' ⊆ insert b (base ∪ A.biUnion used) := by
      intro x hx
      rcases Finset.mem_union.mp hx with hx | hx
      · exact Finset.mem_insert_of_mem (Finset.mem_union_left _ hx)
      · obtain ⟨q,hq,hxq⟩ := Finset.mem_biUnion.mp hx
        by_cases hqp : q = p
        · subst q
          rw [hself] at hxq
          rcases Finset.mem_insert.mp hxq with rfl | hxq
          · exact Finset.mem_insert_self _ _
          · exact Finset.mem_insert_of_mem (Finset.mem_union_right _ (Finset.mem_biUnion.mpr ⟨p,hp,hxq⟩))
        · rw [hother q hq hqp] at hxq
          exact Finset.mem_insert_of_mem (Finset.mem_union_right _ (Finset.mem_biUnion.mpr ⟨q,hq,hxq⟩))
    have hle := (Finset.card_le_card hunion).trans (Finset.card_insert_le _ _)
    have hsum : ∑ q ∈ A.erase p, (M - (used' q).card) = ∑ q ∈ A.erase p, (M - (used q).card) := by
      apply Finset.sum_congr rfl
      intro q hq
      rw [hother q (Finset.mem_of_mem_erase hq) (Finset.ne_of_mem_erase hq)]
    unfold demand
    rw [← Finset.add_sum_erase A (fun q => M - (used' q).card) hp,
      ← Finset.add_sum_erase A (fun q => M - (used q).card) hp,hsum]
    omega

/-- Admission: every client, the new one included, may come to hold `M` elements. -/
theorem demand_insert_le (hp : p ∉ A) (hempty : used p = ∅) (hlim : ∀ q ∈ A, (used q).card ≤ M) :
    demand M base (insert p A) used ≤ base.card + M*(A.card+1) := by
  have hunion : base ∪ (insert p A).biUnion used = base ∪ A.biUnion used := by
    rw [Finset.biUnion_insert,hempty,Finset.empty_union]
  have hcard : (base ∪ A.biUnion used).card ≤ base.card + ∑ q ∈ A, (used q).card :=
    (Finset.card_union_le _ _).trans (Nat.add_le_add_left Finset.card_biUnion_le _)
  have hsum : ∑ q ∈ A, (used q).card + ∑ q ∈ A, (M - (used q).card) = M*A.card := by
    rw [← Finset.sum_add_distrib,Finset.sum_congr rfl (fun q hq => Nat.add_sub_cancel' (hlim q hq)),
      Finset.sum_const,smul_eq_mul,mul_comm]
  unfold demand
  rw [hunion,Finset.sum_insert hp,hempty,Finset.card_empty,Nat.sub_zero,Nat.mul_add,Nat.mul_one]
  omega

end Xv6.Reservation
