import Xv6.Strings.Memmove

/-! # Copying a string

`strncpy` copies a string and fills the rest of the field with zeros. The source is read while the
field is written; an access to an address without a page is a fault.
-/
namespace Xv6.Strings
open Function

section Functions
variable (mapped : Addr → Bool)

def strncpyFill : ℕ → Addr → Memory → Option Memory
  | 0, _, m => some m
  | n + 1, s, m => if mapped s then strncpyFill n (s+1) (Function.update m s 0) else none

def strncpy : ℕ → Addr → Addr → Memory → Option Memory
  | 0, _, _, m => some m
  | n + 1, s, t, m =>
    if mapped t && mapped s then
      if m t = 0 then strncpyFill mapped n (s+1) (Function.update m s (m t))
      else strncpy n (s+1) (t+1) (Function.update m s (m t))
    else none

end Functions

section Spec
variable {mapped : Addr → Bool} {n i : ℕ} {s t a : Addr} {m m' : Memory}

def field (m : Memory) (s t : Addr) (i : ℕ) : UInt8 :=
  if ∀ j ≤ i, fetched m s t j ≠ 0 then fetched m s t i else 0

theorem strncpyFill_frame (h : strncpyFill mapped n s m = some m') (ha : ∀ i < n, a ≠ shift s i) : m' a = m a := by
  induction n generalizing s m with
  | zero =>
    cases h
    rfl
  | succ n ih =>
    rw [strncpyFill] at h
    split at h
    · rw [ih h fun i hi => ?_,update_of_ne]
      · have h0 := ha 0 (Nat.succ_pos n)
        rwa [shift_zero] at h0
      · rw [← shift_succ]
        exact ha (i+1) (Nat.succ_lt_succ hi)
    · cases h

theorem strncpyFill_apply (hs : s.toNat+n ≤ 2^32) (h : strncpyFill mapped n s m = some m') (hi : i < n) :
    m' (shift s i) = 0 := by
  induction n generalizing s m i with
  | zero => omega
  | succ n ih =>
    rw [strncpyFill] at h
    split at h
    · cases i with
      | zero =>
        rw [shift_zero,strncpyFill_frame h fun j hj => ?_,update_self]
        rw [← shift_succ,ne_comm,ne_eq,shift_eq_iff (by omega)]
        omega
      | succ i =>
        have hs' : (s+1).toNat = s.toNat+1 := toNat_succ (by omega)
        rw [shift_succ]
        exact ih (by omega) h (by omega)
    · cases h

theorem strncpyFill_ok (hmapped : ∀ i < n, mapped (shift s i) = true) (m : Memory) :
    ∃ m', strncpyFill mapped n s m = some m' := by
  induction n generalizing s m with
  | zero => exact ⟨m,rfl⟩
  | succ n ih =>
    have hfirst := hmapped 0 (Nat.succ_pos n)
    rw [shift_zero] at hfirst
    rw [strncpyFill,if_pos hfirst]
    refine ih (fun i hi => ?_) _
    rw [← shift_succ]
    exact hmapped (i+1) (Nat.succ_lt_succ hi)

theorem strncpy_frame (h : strncpy mapped n s t m = some m') (ha : ∀ i < n, a ≠ shift s i) : m' a = m a := by
  induction n generalizing s t m with
  | zero =>
    cases h
    rfl
  | succ n ih =>
    have h0 := ha 0 (Nat.succ_pos n)
    rw [shift_zero] at h0
    have hrest : ∀ i < n, a ≠ shift (s+1) i := by
      intro i hi
      rw [← shift_succ]
      exact ha (i+1) (Nat.succ_lt_succ hi)
    rw [strncpy] at h
    split at h
    · split at h
      · rw [strncpyFill_frame h hrest,update_of_ne h0]
      · rw [ih h hrest,update_of_ne h0]
    · cases h

theorem field_zero (m : Memory) (s t : Addr) : field m s t 0 = m t := by
  unfold field
  split
  · exact fetched_zero m s t
  · rename_i hc
    rw [← fetched_zero m s t]
    by_contra hne
    refine hc fun j hj => ?_
    rw [Nat.le_zero.mp hj]
    exact Ne.symm hne

theorem field_step (hs : s.toNat+1 < 2^32) (ht : t.toNat+(i+1) < 2^32) (hne : m t ≠ 0) :
    field (Function.update m s (m t)) (s+1) (t+1) i = field m s t (i+1) := by
  have hstep : ∀ j ≤ i, fetched (update m s (m t)) (s+1) (t+1) j = fetched m s t (j+1) :=
    fun j hj => fetched_step hs (by omega)
  have hiff : (∀ j ≤ i, fetched (update m s (m t)) (s+1) (t+1) j ≠ 0) ↔ ∀ j ≤ i+1, fetched m s t j ≠ 0 := by
    constructor
    · intro h j hj
      cases j with
      | zero => rwa [fetched_zero]
      | succ j =>
        rw [← hstep j (by omega)]
        exact h j (by omega)
    · intro h j hj
      rw [hstep j hj]
      exact h (j+1) (by omega)
  unfold field
  rw [hstep i (Nat.le_refl i)]
  by_cases hall : ∀ j ≤ i+1, fetched m s t j ≠ 0
  · rw [if_pos hall,if_pos (hiff.mpr hall)]
  · rw [if_neg hall,if_neg fun hc => hall (hiff.mp hc)]

theorem field_after_end (hzero : m t = 0) (i : ℕ) : field m s t i = 0 := by
  refine if_neg fun h => h 0 (Nat.zero_le i) ?_
  rw [fetched_zero,hzero]

theorem strncpy_apply (hs : s.toNat+n ≤ 2^32) (ht : t.toNat+n ≤ 2^32) (h : strncpy mapped n s t m = some m') (hi : i < n) :
    m' (shift s i) = field m s t i := by
  induction n generalizing s t m i with
  | zero => omega
  | succ n ih =>
    have hfirst : ∀ j < n, s ≠ shift (s+1) j := by
      intro j hj
      rw [← shift_succ,ne_comm,ne_eq,shift_eq_iff (by omega)]
      omega
    rw [strncpy] at h
    split at h
    · split at h
      · rename_i hzero
        rw [field_after_end hzero]
        cases i with
        | zero => rw [shift_zero,strncpyFill_frame h hfirst,update_self,hzero]
        | succ i =>
          have hs' : (s+1).toNat = s.toNat+1 := toNat_succ (by omega)
          rw [shift_succ]
          exact strncpyFill_apply (by omega) h (by omega)
      · rename_i hne
        cases i with
        | zero => rw [shift_zero,strncpy_frame h hfirst,update_self,field_zero]
        | succ i =>
          have hs' : (s+1).toNat = s.toNat+1 := toNat_succ (by omega)
          have ht' : (t+1).toNat = t.toNat+1 := toNat_succ (by omega)
          rw [shift_succ,ih (by omega) (by omega) h (by omega),field_step (by omega) (by omega) hne]
    · cases h

/-- The call comes back if and only if the bytes that it reads and those that it writes have pages. -/
theorem strncpy_ok (hs : s.toNat+n ≤ 2^32) (ht : t.toNat+n ≤ 2^32) (hmapped : ∀ i < n, mapped (shift s i) = true) :
    (∃ m', strncpy mapped n s t m = some m') ↔
      ∀ i < n, (∀ j < i, fetched m s t j ≠ 0) → mapped (shift t i) = true := by
  induction n generalizing s t m with
  | zero => exact ⟨fun _ i hi => absurd hi (Nat.not_lt_zero i),fun _ => ⟨m,rfl⟩⟩
  | succ n ih =>
    have hfirst := hmapped 0 (Nat.succ_pos n)
    rw [shift_zero] at hfirst
    have hrest : ∀ i < n, mapped (shift (s+1) i) = true := by
      intro i hi
      rw [← shift_succ]
      exact hmapped (i+1) (Nat.succ_lt_succ hi)
    rw [strncpy,hfirst,Bool.and_true]
    by_cases hread : mapped t = true
    · rw [if_pos hread]
      by_cases hzero : m t = 0
      · rw [if_pos hzero]
        refine ⟨fun _ i hi hbefore => ?_,fun _ => strncpyFill_ok hrest _⟩
        cases i with
        | zero => rwa [shift_zero]
        | succ i => exact absurd ((fetched_zero m s t).trans hzero) (hbefore 0 (Nat.succ_pos i))
      · rw [if_neg hzero]
        by_cases hn : n = 0
        · subst hn
          refine ⟨fun _ i hi _ => ?_,fun _ => ⟨_,rfl⟩⟩
          obtain rfl := Nat.lt_one_iff.mp hi
          rwa [shift_zero]
        · have hs' : (s+1).toNat = s.toNat+1 := toNat_succ (by omega)
          have ht' : (t+1).toNat = t.toNat+1 := toNat_succ (by omega)
          rw [ih (by omega) (by omega) hrest]
          constructor
          · intro h i hi hbefore
            cases i with
            | zero => rwa [shift_zero]
            | succ i =>
              rw [shift_succ]
              refine h i (by omega) fun j hj => ?_
              rw [fetched_step (by omega) (by omega)]
              exact hbefore (j+1) (by omega)
          · intro h i hi hbefore
            rw [← shift_succ]
            refine h (i+1) (by omega) fun j hj => ?_
            cases j with
            | zero => rwa [fetched_zero]
            | succ j =>
              rw [← fetched_step (by omega) (by omega)]
              exact hbefore j (by omega)
    · rw [if_neg hread]
      refine ⟨fun ⟨_,h⟩ => (nomatch h),fun h => absurd (h 0 (Nat.succ_pos n) fun j hj => absurd hj (Nat.not_lt_zero j)) ?_⟩
      rwa [shift_zero]

end Spec
end Xv6.Strings
