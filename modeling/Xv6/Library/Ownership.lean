import Mathlib

/-! # Places that own what they name

Every place of a table names nothing, written `0`, or an item of a pool. Items are handed
out to places: no item is named by two places, and a named item is marked as in use.
-/
namespace Xv6.Ownership
open Function
variable {S B : Type*} [Zero B] {pool : Set B} {addr : S → B} {used : B → Prop} {x y : S} {b : B}

structure Owned (pool : Set B) (addr : S → B) (used : B → Prop) : Prop where
  inj : ∀ x y, addr x ≠ 0 → addr x = addr y → x = y
  pool : ∀ x, addr x ≠ 0 → addr x ∈ pool
  used : ∀ x, addr x ≠ 0 → used (addr x)

theorem Owned.unnamed (h : Owned pool addr used) (hb : ¬used b) (hb0 : b ≠ 0) (x : S) : addr x ≠ b := by
  rintro rfl
  exact hb (h.used x hb0)

variable [DecidableEq S]

theorem Owned.assign (h : Owned pool addr used) (hx : addr x = 0) (hb : ¬used b) (hpool : b ∈ pool)
    {used' : B → Prop} (hnew : used' b) (hold : ∀ c, used c → used' c) :
    Owned pool (Function.update addr x b) used' := by
  have hcase : ∀ y, update addr x b y ≠ 0 →
      y = x ∧ update addr x b y = b ∨ y ≠ x ∧ addr y ≠ 0 ∧ update addr x b y = addr y := by
    intro y hy
    by_cases he : y = x
    · exact .inl ⟨he,by rw [he,update_self]⟩
    · rw [update_of_ne he] at hy ⊢
      exact .inr ⟨he,hy,rfl⟩
  refine ⟨?_,?_,?_⟩
  · intro y z hy hyz
    have hz : update addr x b z ≠ 0 := hyz ▸ hy
    obtain ⟨rfl,hyb⟩ | ⟨hyx,hy0,hya⟩ := hcase y hy <;> obtain ⟨rfl,hzb⟩ | ⟨hzx,hz0,hza⟩ := hcase z hz
    · rfl
    · have hb0 : b ≠ 0 := fun h0 => hy (hyb.trans h0)
      exact absurd (hza.symm.trans (hyz.symm.trans hyb)) (h.unnamed hb hb0 z)
    · have hb0 : b ≠ 0 := fun h0 => hz (hzb.trans h0)
      exact absurd (hya.symm.trans (hyz.trans hzb)) (h.unnamed hb hb0 y)
    · exact h.inj y z hy0 (hya.symm.trans (hyz.trans hza))
  · intro y hy
    obtain ⟨-,hyb⟩ | ⟨-,hy0,hya⟩ := hcase y hy
    · rwa [hyb]
    · rw [hya]
      exact h.pool y hy0
  · intro y hy
    obtain ⟨-,hyb⟩ | ⟨-,hy0,hya⟩ := hcase y hy
    · rwa [hyb]
    · rw [hya]
      exact hold _ (h.used y hy0)

end Xv6.Ownership
