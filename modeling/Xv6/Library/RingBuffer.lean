import Mathlib

/-! # Ring buffers with free-running counters

The two counters only count up and wrap at `2^w`; the place of an item in the buffer is
its number modulo the capacity. As long as the capacity divides `2^w`, wrapping does
not move any item.
-/
namespace Xv6.RingBuffer
open Function
variable {α : Type*} {w c : ℕ} [NeZero c] {data : Fin c → α} {r n : BitVec w} {xs : List α} {x : α}

def place (c : ℕ) [NeZero c] (n : BitVec w) : Fin c := Fin.ofNat c n.toNat

structure Holds (data : Fin c → α) (r n : BitVec w) (xs : List α) : Prop where
  length : xs.length ≤ c
  count : n = r+BitVec.ofNat w xs.length
  item : ∀ k (hk : k < xs.length), data (place c (r+BitVec.ofNat w k)) = xs.get ⟨k,hk⟩

theorem place_add (hc : c ∣ 2^w) (r : BitVec w) (k : ℕ) :
    (place c (r+BitVec.ofNat w k)).val = (r.toNat+k) % c := by
  change (r+BitVec.ofNat w k).toNat % c = _
  rw [BitVec.toNat_add,BitVec.toNat_ofNat,Nat.add_mod_mod,Nat.mod_mod_of_dvd _ hc]

theorem place_injective (hc : c ∣ 2^w) {i k : ℕ} (hi : i < c) (hk : k < c)
    (h : place c (r+BitVec.ofNat w i) = place c (r+BitVec.ofNat w k)) : i = k := by
  have hv := congrArg Fin.val h
  rw [place_add hc,place_add hc] at hv
  have hmod : i ≡ k [MOD c] := Nat.ModEq.add_left_cancel' r.toNat hv
  exact Nat.ModEq.eq_of_lt_of_lt hmod hi hk

theorem holds_nil (data : Fin c → α) (r : BitVec w) : Holds data r r [] := by
  refine ⟨Nat.zero_le _,by simp,?_⟩
  intro k hk
  cases hk

theorem Holds.difference (h : Holds data r n xs) (hw : c < 2^w) : (n-r).toNat = xs.length := by
  have := h.length
  rw [h.count,BitVec.add_comm,BitVec.add_sub_cancel,BitVec.toNat_ofNat,Nat.mod_eq_of_lt (by omega)]

theorem Holds.empty_iff (h : Holds data r n xs) (hw : c < 2^w) : r = n ↔ xs = [] := by
  rw [← List.length_eq_zero_iff,← h.difference hw]
  constructor
  · rintro rfl
    simp
  · intro hz
    have hd : n-r = 0#w := BitVec.eq_of_toNat_eq (by simpa using hz)
    rw [← BitVec.sub_add_cancel n r,hd,BitVec.zero_add]

theorem Holds.full_iff (h : Holds data r n xs) (hw : c < 2^w) : n = r+BitVec.ofNat w c ↔ xs.length = c := by
  have hd := h.difference hw
  constructor
  · rintro rfl
    rw [BitVec.add_comm,BitVec.add_sub_cancel,BitVec.toNat_ofNat,Nat.mod_eq_of_lt hw] at hd
    exact hd.symm
  · intro hl
    rw [h.count,hl]

theorem Holds.push (h : Holds data r n xs) (hc : c ∣ 2^w) (hroom : xs.length < c) (x : α) :
    Holds (Function.update data (place c n) x) r (n+1) (xs ++ [x]) := by
  refine ⟨by simpa using hroom,?_,?_⟩
  · rw [h.count,List.length_append,List.length_singleton,BitVec.ofNat_add,BitVec.add_assoc]
    rfl
  · intro k hk
    rw [List.length_append,List.length_singleton] at hk
    by_cases hlast : k = xs.length
    · subst hlast
      rw [h.count,update_self]
      simp
    · have hk' : k < xs.length := by omega
      have hne : place c (r+BitVec.ofNat w k) ≠ place c n := by
        rw [h.count]
        exact fun he => hlast (place_injective hc (by omega) hroom he)
      rw [update_of_ne hne,h.item k hk']
      simp [List.getElem_append_left hk']

theorem Holds.pop (h : Holds data r n (x :: xs)) : data (place c r) = x ∧ Holds data (r+1) n xs := by
  have hfirst := h.item 0 (by simp)
  rw [BitVec.add_zero] at hfirst
  have hnext : ∀ k, r+1+BitVec.ofNat w k = r+BitVec.ofNat w (k+1) := by
    intro k
    rw [Nat.add_comm k 1,BitVec.ofNat_add,BitVec.add_assoc]
    rfl
  refine ⟨hfirst,?_,?_,?_⟩
  · have := h.length
    rw [List.length_cons] at this
    omega
  · rw [hnext,h.count,List.length_cons]
  · intro k hk
    rw [hnext,h.item (k+1) (by simpa using hk)]
    rfl

theorem Holds.pop_last (h : Holds data r n (xs ++ [x])) : data (place c (n-1)) = x ∧ Holds data r (n-1) xs := by
  have hn : n-1 = r+BitVec.ofNat w xs.length := by
    rw [h.count,List.length_append,List.length_singleton,BitVec.ofNat_add,← BitVec.add_assoc]
    exact BitVec.add_sub_cancel _ _
  have hlen := h.length
  rw [List.length_append,List.length_singleton] at hlen
  refine ⟨?_,by omega,hn,?_⟩
  · rw [hn,h.item xs.length (by simp)]
    simp
  · intro k hk
    rw [h.item k (by rw [List.length_append]; omega)]
    simp [List.getElem_append_left hk]

theorem Holds.window (h : Holds data r n xs) {i j : ℕ} (hij : i ≤ j) (hj : j ≤ xs.length) :
    ((List.range (j-i)).map fun k => data (place c (r+BitVec.ofNat w i+BitVec.ofNat w k))) = (xs.drop i).take (j-i) := by
  apply List.ext_getElem
  · simp only [List.length_map,List.length_range,List.length_take,List.length_drop]
    omega
  · intro k hk hk'
    simp only [List.length_map,List.length_range] at hk
    rw [List.getElem_map,List.getElem_range,BitVec.add_assoc,← BitVec.ofNat_add,h.item (i+k) (by omega)]
    simp

end Xv6.RingBuffer
