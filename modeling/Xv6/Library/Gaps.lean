import Mathlib

/-! # First fit

The least position from a base on where a block of a given size meets none of the busy
intervals. A busy interval that meets the block at the base can be skipped.
-/
namespace Xv6.Gaps
variable {α : Type*} [AddCommMonoid α] [LinearOrder α]

def Clear (busy : Set (α × α)) (n a : α) : Prop := ∀ b ∈ busy, a+n ≤ b.1 ∨ b.2 ≤ a

def FirstFit (busy : Set (α × α)) (n base a : α) : Prop := IsLeast {x | base ≤ x ∧ Clear busy n x} a

variable {busy : Set (α × α)} {n base a x : α} {b : α × α}

theorem FirstFit.le (h : FirstFit busy n base a) : base ≤ a := h.1.1

theorem FirstFit.clear (h : FirstFit busy n base a) : Clear busy n a := h.1.2

theorem FirstFit.unique {a' : α} (h : FirstFit busy n base a) (h' : FirstFit busy n base a') : a = a' :=
  IsLeast.unique h h'

theorem Clear.firstFit (h : Clear busy n base) : FirstFit busy n base base := ⟨⟨le_rfl,h⟩,fun _ hx => hx.1⟩

/-- Where the order is well founded, a clear position has a first fit before it. -/
theorem Clear.exists_firstFit [WellFoundedLT α] (h : Clear busy n a) (hbase : base ≤ a) :
    ∃ x, FirstFit busy n base x ∧ x ≤ a := by
  obtain ⟨x,hx,hmin⟩ := WellFounded.has_min wellFounded_lt {x | base ≤ x ∧ Clear busy n x} ⟨a,hbase,h⟩
  have hleast : ∀ y, base ≤ y ∧ Clear busy n y → x ≤ y := fun y hy => not_lt.mp (hmin y hy)
  exact ⟨x,⟨hx,hleast⟩,hleast a ⟨hbase,h⟩⟩

section Skip
variable [IsOrderedAddMonoid α]

/-- No block that starts at or behind the base fits before the end of an interval in its way. -/
theorem Clear.skip (h : Clear busy n a) (hb : b ∈ busy) (hbase : base ≤ a) (hx : b.1 ≤ x) (hn : x < base+n) :
    b.2 ≤ a := by
  refine (h b hb).resolve_left fun hle => ?_
  have hlt : x < a+n := lt_of_lt_of_le hn (by gcongr)
  exact absurd (hlt.trans_le hle) (not_lt_of_ge hx)

theorem firstFit_skip (hb : b ∈ busy) (hend : base ≤ b.2) (hx : b.1 ≤ x) (hn : x < base+n) :
    FirstFit busy n base a ↔ FirstFit busy n b.2 a := by
  have hset : {y | base ≤ y ∧ Clear busy n y} = {y | b.2 ≤ y ∧ Clear busy n y} := by
    ext y
    exact ⟨fun hy => ⟨hy.2.skip hb hy.1 hx hn,hy.2⟩,fun hy => ⟨hend.trans hy.1,hy.2⟩⟩
  rw [FirstFit,hset,FirstFit]

end Skip
end Xv6.Gaps
