import Mathlib

/-! # Linked lists in a pool of nodes

The nodes are named by a type `ι` and `next` gives the successor of each. `Linked`
says which nodes a pointer leads to. The list is determined by the pointer, and it
changes in the expected way when a node is pushed or unlinked.
-/
namespace Xv6.NodePool
open Function
variable {ι : Type*}

def Linked (next : ι → Option ι) : Option ι → List ι → Prop
  | p, [] => p = none
  | p, j :: l => p = some j ∧ Linked next (next j) l

def follow (next : ι → Option ι) : ℕ → Option ι → List ι
  | 0, _ => []
  | _+1, none => []
  | fuel+1, some j => j :: follow next fuel (next j)

def last (next : ι → Option ι) : ℕ → ι → ι
  | 0, j => j
  | fuel+1, j => match next j with
    | none => j
    | some k => last next fuel k

variable {next next' : ι → Option ι} {p : Option ι} {l l' : List ι} {j k : ι}

@[simp] theorem linked_nil : Linked next p [] ↔ p = none := Iff.rfl
@[simp] theorem linked_cons : Linked next p (j :: l) ↔ p = some j ∧ Linked next (next j) l := Iff.rfl

theorem Linked.congr (h : Linked next p l) (he : ∀ j ∈ l, next' j = next j) : Linked next' p l := by
  induction l generalizing p with
  | nil => exact h
  | cons j l ih =>
    refine ⟨h.1,?_⟩
    rw [he j List.mem_cons_self]
    exact ih h.2 (fun i hi => he i (List.mem_cons_of_mem _ hi))

theorem Linked.follow (h : Linked next p l) {fuel : ℕ} (hf : l.length ≤ fuel) :
    follow next fuel p = l := by
  induction l generalizing p fuel with
  | nil =>
    rw [linked_nil.mp h]
    cases fuel <;> rfl
  | cons j l ih =>
    obtain ⟨rfl,h⟩ := h
    cases fuel with
    | zero => simp at hf
    | succ fuel => rw [NodePool.follow,ih h (by simpa using hf)]

theorem Linked.last (h : Linked next (some j) (l ++ [k])) {fuel : ℕ} (hf : l.length ≤ fuel) :
    last next fuel j = k := by
  induction l generalizing j fuel with
  | nil =>
    obtain ⟨hj,hnone⟩ := h
    cases hj
    cases fuel with
    | zero => rfl
    | succ fuel =>
      simp only [NodePool.last]
      rw [linked_nil.mp hnone]
  | cons i l ih =>
    obtain ⟨hj,h⟩ := h
    cases hj
    cases fuel with
    | zero => simp at hf
    | succ fuel =>
      simp only [NodePool.last]
      cases hn : next i with
      | none =>
        rw [hn] at h
        cases l <;> simp at h
      | some m =>
        rw [hn] at h
        exact ih h (by simpa using hf)

theorem Linked.length_le [Fintype ι] [DecidableEq ι] (hnd : l.Nodup) : l.length ≤ Fintype.card ι := by
  rw [← List.toFinset_card_of_nodup hnd]
  exact Finset.card_le_univ _

theorem Linked.next_mem_tail (h : Linked next p (k :: l)) (hj : j ∈ k :: l) {m : ι} (hm : next j = some m) : m ∈ l := by
  induction l generalizing p k with
  | nil =>
    obtain ⟨-,hend⟩ := h
    rw [List.mem_singleton.mp hj] at hm
    rw [hm] at hend
    cases hend
  | cons i l ih =>
    obtain ⟨-,hi,htail⟩ := h
    rcases List.mem_cons.mp hj with rfl | hj
    · rw [hm] at hi
      cases hi
      exact List.mem_cons_self
    · exact List.mem_cons_of_mem _ (ih ⟨hi,htail⟩ hj)

theorem Linked.next_mem (h : Linked next p l) (hj : j ∈ l) (hk : next j = some k) : k ∈ l := by
  cases l with
  | nil => cases hj
  | cons i l => exact List.mem_cons_of_mem _ (h.next_mem_tail hj hk)

section Change
variable [DecidableEq ι]

theorem Linked.update_of_notMem (h : Linked next p l) (hj : j ∉ l) (q : Option ι) :
    Linked (Function.update next j q) p l := by
  apply h.congr
  intro i hi
  have hij : i ≠ j := fun he => hj (he ▸ hi)
  exact update_of_ne hij _ _

theorem Linked.push (h : Linked next p l) (hj : j ∉ l) : Linked (Function.update next j p) (some j) (j :: l) := by
  refine ⟨rfl,?_⟩
  rw [update_self]
  exact h.update_of_notMem hj p

theorem Linked.snoc (h : Linked next p (l ++ [j])) (hnd : (l ++ [j]).Nodup) (hk : k ∉ l ++ [j]) (hlast : next k = none) :
    Linked (Function.update next j (some k)) p (l ++ [j,k]) := by
  induction l generalizing p with
  | nil =>
    have hkj : k ≠ j := fun he => hk (by simp [he])
    refine ⟨h.1,?_,?_⟩
    · rw [update_self]
    · rw [update_of_ne hkj]
      exact hlast
  | cons i l ih =>
    obtain ⟨hp,hi⟩ := h
    obtain ⟨hni,hnd⟩ := List.nodup_cons.mp hnd
    refine ⟨hp,?_⟩
    have hij : i ≠ j := fun he => hni (by simp [he])
    rw [update_of_ne hij]
    exact ih hi hnd (fun hm => hk (List.mem_cons_of_mem _ hm))

theorem Linked.unlink {l₁ l₂ : List ι} (h : Linked next p (l₁ ++ j :: k :: l₂))
    (hnd : (l₁ ++ j :: k :: l₂).Nodup) :
    Linked (Function.update next j (next k)) p (l₁ ++ j :: l₂) := by
  induction l₁ generalizing p with
  | nil =>
    obtain ⟨hp,hj,hk⟩ := h
    refine ⟨hp,?_⟩
    rw [update_self]
    apply hk.update_of_notMem
    have := (List.nodup_cons.mp hnd).1
    exact fun hm => this (List.mem_cons_of_mem _ hm)
  | cons i l₁ ih =>
    obtain ⟨hp,hi⟩ := h
    obtain ⟨hni,hnd⟩ := List.nodup_cons.mp hnd
    refine ⟨hp,?_⟩
    have hij : i ≠ j := fun he => hni (by simp [he])
    rw [update_of_ne hij]
    exact ih hi hnd

end Change
end Xv6.NodePool
