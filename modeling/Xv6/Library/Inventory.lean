import Mathlib

/-! # What a list of places holds

Each place holds at most one item. The items of all the places form a list, and filling or
emptying one place puts one item in front of it or takes one away, up to the order.
-/
namespace Xv6.Inventory
open Function
variable {ι β : Type*} {l : List ι} {g g' : ι → Option β} {i j : ι} {b : β}

def items (l : List ι) (g : ι → Option β) : List β := l.filterMap g

theorem mem_items : b ∈ items l g ↔ ∃ i ∈ l, g i = some b := List.mem_filterMap

theorem items_congr (h : ∀ i ∈ l, g' i = g i) : items l g' = items l g := List.filterMap_congr h

theorem items_cons (i : ι) (l : List ι) (g : ι → Option β) : items (i :: l) g = (g i).toList ++ items l g := by
  rw [items,List.filterMap_cons]
  cases g i <;> rfl

theorem items_append (l l' : List ι) (g : ι → Option β) : items (l ++ l') g = items l g ++ items l' g :=
  List.filterMap_append

theorem items_map {κ : Type*} (l : List κ) (k : κ → ι) (g : ι → Option β) : items (l.map k) g = items l fun i => g (k i) :=
  List.filterMap_map

/-- The number of the items, where the places that hold one are known by their numbers. -/
theorem length_items_finRange {n : ℕ} {g : Fin n → Option β} {A : Finset ℕ} (hA : ∀ k ∈ A, k < n)
    (h : ∀ k, (g k).isSome ↔ k.val ∈ A) : (items (List.finRange n) g).length = A.card := by
  have hmap : ((List.finRange n).filter fun k => (g k).isSome).toFinset.map Fin.valEmbedding = A := by
    ext k
    simp only [Finset.mem_map,List.mem_toFinset,List.mem_filter,List.mem_finRange,true_and,h,Fin.valEmbedding_apply]
    exact ⟨fun ⟨d,hd,hk⟩ => hk ▸ hd,fun hk => ⟨⟨k,hA k hk⟩,hk,rfl⟩⟩
  rw [items,List.length_filterMap_eq_countP,List.countP_eq_length_filter,← hmap,Finset.card_map,
    List.toFinset_card_of_nodup ((List.nodup_finRange n).filter _)]

theorem items_inj (h : (items l g).Nodup) (hi : i ∈ l) (hj : j ∈ l) (hgi : g i = some b) (hgj : g j = some b) :
    i = j := by
  induction l with
  | nil => cases hi
  | cons k l ih =>
    rw [items_cons,List.nodup_append] at h
    obtain ⟨-,hrest,hapart⟩ := h
    have hhead : ∀ {m}, m ∈ l → g m = some b → g k = some b → False := by
      intro m hm hgm hgk
      exact hapart b (by simp [hgk]) b (mem_items.mpr ⟨m,hm,hgm⟩) rfl
    rcases List.mem_cons.mp hi with hik | hi' <;> rcases List.mem_cons.mp hj with hjk | hj'
    · exact hik.trans hjk.symm
    · exact (hhead hj' hgj (hik ▸ hgi)).elim
    · exact (hhead hi' hgi (hjk ▸ hgj)).elim
    · exact ih hrest hi' hj'

variable [DecidableEq ι]

theorem items_put (hl : l.Nodup) (hi : i ∈ l) (hempty : g i = none) (b : β) :
    (items l (Function.update g i (some b))).Perm (b :: items l g) := by
  induction l with
  | nil => cases hi
  | cons k l ih =>
    obtain ⟨hk,hl⟩ := List.nodup_cons.mp hl
    rw [items_cons,items_cons]
    by_cases hik : i = k
    · subst hik
      have hrest : items l (update g i (some b)) = items l g :=
        items_congr fun m hm => update_of_ne (fun he : m = i => hk (he ▸ hm)) _ _
      rw [update_self,hrest,hempty]
      rfl
    · rw [update_of_ne (Ne.symm hik)]
      have hmem := (List.mem_cons.mp hi).resolve_left hik
      exact ((ih hl hmem).append_left _).trans List.perm_middle

theorem items_take (hl : l.Nodup) (hi : i ∈ l) (hfull : g i = some b) :
    (items l g).Perm (b :: items l (Function.update g i none)) := by
  have h := items_put hl hi (update_self i none g) b
  rw [update_idem,← hfull,update_eq_self] at h
  exact h

end Xv6.Inventory
