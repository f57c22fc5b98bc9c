import Mathlib

/-! # Tables of slots

A table is a list of slots that is searched from the front. A new item goes into a slot that is vacant,
or behind the last one.
-/
namespace Xv6.SlotTable
variable {α : Type*} {p : α → Bool} {ds : List α} {k : ℕ} {a : α}

def put (ds : List α) (k : ℕ) (a : α) : List α := if k < ds.length then ds.set k a else ds ++ [a]

def vacancy (vacant : α → Bool) (ds : List α) : ℕ := (ds.findIdx? vacant).getD ds.length

theorem vacancy_le (vacant : α → Bool) (ds : List α) : vacancy vacant ds ≤ ds.length := by
  unfold vacancy
  cases h : ds.findIdx? vacant with
  | none => exact Nat.le_refl _
  | some k =>
    obtain ⟨hk,-⟩ := List.findIdx?_eq_some_iff_getElem.mp h
    exact hk.le

theorem vacant_of_getElem? {vacant : α → Bool} (h : ds[vacancy vacant ds]? = some a) : vacant a = true := by
  unfold vacancy at h
  cases hfind : ds.findIdx? vacant with
  | none =>
    rw [hfind,Option.getD_none,List.getElem?_eq_none (Nat.le_refl _)] at h
    cases h
  | some k =>
    obtain ⟨hk,hvacant,-⟩ := List.findIdx?_eq_some_iff_getElem.mp hfind
    rw [hfind,Option.getD_some,List.getElem?_eq_getElem hk] at h
    cases h
    exact hvacant

theorem taken_of_vacancy {vacant : α → Bool} (h : vacancy vacant ds = ds.length) : ∀ a ∈ ds, vacant a = false := by
  unfold vacancy at h
  cases hfind : ds.findIdx? vacant with
  | none => exact List.findIdx?_eq_none_iff.mp hfind
  | some k =>
    obtain ⟨hk,-⟩ := List.findIdx?_eq_some_iff_getElem.mp hfind
    rw [hfind] at h
    exact absurd h hk.ne

theorem getElem?_put (hk : k ≤ ds.length) (j : ℕ) : (put ds k a)[j]? = if j = k then some a else ds[j]? := by
  unfold put
  split
  · rename_i hlt
    rw [List.getElem?_set]
    split
    · rename_i he
      rw [if_pos he.symm]
    · rename_i hne
      rw [if_neg (Ne.symm hne)]
  · have hlen : k = ds.length := by omega
    rw [List.getElem?_append,hlen]
    split
    · rw [if_neg (by omega)]
    · by_cases hj : j = ds.length
      · rw [if_pos hj,hj,Nat.sub_self]
        rfl
      · rw [if_neg hj,List.getElem?_eq_none (by rw [List.length_singleton]; omega),List.getElem?_eq_none (by omega)]

theorem length_put (hk : k ≤ ds.length) : (put ds k a).length = max ds.length (k+1) := by
  unfold put
  split
  · rw [List.length_set]
    omega
  · rw [List.length_append,List.length_singleton]
    omega

theorem put_put (hk : k ≤ ds.length) (a b : α) : put (put ds k a) k b = put ds k b := by
  have hk' : k ≤ (put ds k a).length := by
    rw [length_put hk]
    omega
  refine List.ext_getElem? fun j => ?_
  rw [getElem?_put hk',getElem?_put hk,getElem?_put hk]
  split <;> rfl

theorem findIdx?_eq_some_iff : ds.findIdx? p = some k ↔
    (∃ a, ds[k]? = some a ∧ p a = true) ∧ ∀ j < k, ∀ a, ds[j]? = some a → p a = false := by
  rw [List.findIdx?_eq_some_iff_getElem]
  constructor
  · rintro ⟨hk,hp,hbefore⟩
    refine ⟨⟨_,List.getElem?_eq_getElem hk,hp⟩,fun j hj a ha => ?_⟩
    obtain ⟨hlt,rfl⟩ := List.getElem?_eq_some_iff.mp ha
    exact Bool.eq_false_iff.mpr (hbefore j hj)
  · rintro ⟨⟨a,ha,hp⟩,hbefore⟩
    obtain ⟨hk,rfl⟩ := List.getElem?_eq_some_iff.mp ha
    exact ⟨hk,hp,fun j hj => Bool.eq_false_iff.mp (hbefore j hj _ (List.getElem?_eq_getElem _))⟩

theorem findIdx?_eq_none_iff : ds.findIdx? p = none ↔ ∀ (j : ℕ) a, ds[j]? = some a → p a = false := by
  rw [List.findIdx?_eq_none_iff]
  exact ⟨fun h j a ha => h a (List.mem_of_getElem? ha),fun h a ha => by
    obtain ⟨j,hj⟩ := List.getElem?_of_mem ha
    exact h j a hj⟩

theorem findIdx?_put_of_false (hk : k ≤ ds.length) (hold : ∀ b, ds[k]? = some b → p b = false) (hnew : p a = false) :
    (put ds k a).findIdx? p = ds.findIdx? p := by
  have hsame : ∀ (j : ℕ) b, (put ds k a)[j]? = some b → p b = true → ds[j]? = some b := by
    intro j b hb hp
    rw [getElem?_put hk] at hb
    split at hb
    · cases hb
      rw [hnew] at hp
      cases hp
    · exact hb
  have hback : ∀ (j : ℕ) b, ds[j]? = some b → p b = true → (put ds k a)[j]? = some b := by
    intro j b hb hp
    rw [getElem?_put hk]
    split
    · rename_i hj
      rw [hj] at hb
      rw [hold b hb] at hp
      cases hp
    · exact hb
  refine Option.ext fun i => ?_
  rw [findIdx?_eq_some_iff,findIdx?_eq_some_iff]
  constructor
  · rintro ⟨⟨b,hb,hp⟩,hbefore⟩
    refine ⟨⟨b,hsame i b hb hp,hp⟩,fun j hj c hc => Bool.eq_false_iff.mpr fun hpc => ?_⟩
    exact Bool.eq_false_iff.mp (hbefore j hj c (hback j c hc hpc)) hpc
  · rintro ⟨⟨b,hb,hp⟩,hbefore⟩
    refine ⟨⟨b,hback i b hb hp,hp⟩,fun j hj c hc => Bool.eq_false_iff.mpr fun hpc => ?_⟩
    exact Bool.eq_false_iff.mp (hbefore j hj c (hsame j c hc hpc)) hpc

theorem findIdx?_put_self (hk : k ≤ ds.length) (hnone : ds.findIdx? p = none) (hnew : p a = true) :
    (put ds k a).findIdx? p = some k := by
  rw [findIdx?_eq_some_iff]
  refine ⟨⟨a,by rw [getElem?_put hk,if_pos rfl],hnew⟩,fun j hj b hb => ?_⟩
  rw [getElem?_put hk,if_neg (by omega)] at hb
  exact findIdx?_eq_none_iff.mp hnone j b hb

end Xv6.SlotTable
