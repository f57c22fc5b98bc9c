import Xv6.Kernel.PageFaults
import Xv6.Kernel.WindowTables

/-! # The loops of an unmapping

The frames behind the pages of a range are freed up to the first page without one, and
the entries of all pages are cleared.
-/
namespace Xv6.Kernel
open Wmap Program
variable {s s' : Ctx} {a x : Word} {pd : PageDir} {n : ℕ}

section Ranges

def pagesOf (length : Word) : ℕ := (length.toNat+4095)/4096

def InPages (a : Word) (n : ℕ) (x : Word) : Prop := ∃ k < n, x.toNat/4096 = (pageAt a k).toNat/4096

theorem inPages_succ : InPages a (n+1) x ↔ x.toNat/4096 = a.toNat/4096 ∨ InPages (a+4096) n x := by
  constructor
  · rintro ⟨k,hk,hx⟩
    cases k with
    | zero =>
      rw [pageAt_zero] at hx
      exact .inl hx
    | succ k => exact .inr ⟨k,by omega,by rw [pageAt_succ]; exact hx⟩
  · rintro (hx | ⟨k,hk,hx⟩)
    · exact ⟨0,by omega,by rw [pageAt_zero]; exact hx⟩
    · exact ⟨k+1,by omega,by rw [← pageAt_succ]; exact hx⟩

theorem inPages_iff (ha : a.toNat % 4096 = 0) (hend : a.toNat+4096*n ≤ 2^32) :
    InPages a n x ↔ a.toNat ≤ x.toNat ∧ x.toNat < a.toNat+4096*n := by
  have hx := x.isLt
  constructor
  · rintro ⟨k,hk,hpage⟩
    rw [pageAt_toNat (by omega)] at hpage
    omega
  · rintro ⟨h1,h2⟩
    refine ⟨x.toNat/4096-a.toNat/4096,by omega,?_⟩
    rw [pageAt_toNat (by omega)]
    omega

end Ranges

section Freeing

def Mem.owns (m : Mem) (f : Frame) : Prop := m.image.lo ≤ f ∧ f < PHYSTOP

def Mem.freeing (m : Mem) : List Frame → Mem
  | [] => m
  | f :: fs => Mem.freeing { m with page := Function.update m.page f (fun _ => 1), freelist := f :: m.freelist } fs

theorem freelist_freeing (m : Mem) (fs : List Frame) : (m.freeing fs).freelist.Perm (fs ++ m.freelist) := by
  induction fs generalizing m with
  | nil => exact .rfl
  | cons f fs ih => exact (ih _).trans (List.perm_middle)

theorem page_freeing (m : Mem) {fs : List Frame} {f : Frame} (hf : f ∉ fs) : (m.freeing fs).page f = m.page f := by
  induction fs generalizing m with
  | nil => rfl
  | cons g fs ih =>
    rw [Mem.freeing,ih _ fun h => hf (List.mem_cons_of_mem _ h)]
    exact Function.update_of_ne (fun h : f = g => hf (h ▸ List.mem_cons_self)) _ _

theorem image_freeing (m : Mem) (fs : List Frame) : (m.freeing fs).image = m.image := by
  induction fs generalizing m with
  | nil => rfl
  | cons g fs ih => exact ih _

theorem kfree_owns {f : Frame} (h : s.mem.owns f) : kfree f s = .ok () { s with mem := s.mem.freeing [f] } := by
  unfold kfree
  rw [get_bind_apply,if_neg fun hout => hout.elim (Nat.not_lt.mpr h.1) (Nat.not_le.mpr h.2)]
  rfl

/-- A loop over pages from `a` to `limit` takes `n` rounds and does not overflow. -/
structure Visits (limit a : Word) (n : ℕ) : Prop where
  bound : a.toNat+4096*n < 2^32
  inside : ∀ k < n, a.toNat+4096*k < limit.toNat
  outside : limit.toNat ≤ a.toNat+4096*n

theorem Visits.zero {limit : Word} (h : Visits limit a 0) : ¬ a < limit := by
  have := h.outside
  rw [BitVec.not_lt,BitVec.le_def]
  omega

theorem Visits.lt {limit : Word} (h : Visits limit a (n+1)) : a < limit := by
  have := h.inside 0 (by omega)
  rw [BitVec.lt_def]
  omega

theorem Visits.next {limit : Word} (h : Visits limit a (n+1)) : Visits limit (a+4096) n := by
  have hbound := h.bound
  have hnat : (a+4096).toNat = a.toNat+4096 := by
    rw [BitVec.toNat_add,page_toNat]
    omega
  refine ⟨by omega,fun k hk => ?_,?_⟩
  · have := h.inside (k+1) (by omega)
    omega
  · have := h.outside
    omega

end Freeing

section Clearing

def PageDir.clearing (pd : PageDir) : ℕ → Word → PageDir
  | 0, _ => pd
  | n+1, a => PageDir.clearing (pd.setPte a .zero) n (a+4096)

end Clearing
end Xv6.Kernel
