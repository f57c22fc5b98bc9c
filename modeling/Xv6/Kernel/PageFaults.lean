import Xv6.Kernel.AddressSpace
import Xv6.Kernel.CallEffects
import Xv6.Kernel.Placement

/-! # Page faults that load a page

What the page fault handler does for a page without a page table: it takes a frame for
the page and one for the page table, as far as there are any.
-/
namespace Xv6.Kernel
open Wmap Program
variable {s s' s₁ : Ctx} {x a start : Word} {p : Ptr} {f g : Frame} {fs : List Frame} {pd : PageDir}

section Addresses

/-- The page that the handler loads for an address of a mapping that starts at a page boundary. -/
theorem faultPage_eq (hpage : start.toNat % 4096 = 0) (hle : start.toNat ≤ x.toNat) (hx : x.toNat < 2^31) :
    faultPage start x = PGROUNDDOWN x := by
  have hoff : (x-start).toNat = x.toNat-start.toNat := by
    rw [BitVec.toNat_sub]
    omega
  have hrem : ((x-start).srem 4096).toNat = (x.toNat-start.toNat) % 4096 := by
    by_cases hzero : x.toNat = start.toNat
    · rw [BitVec.eq_of_toNat_eq hzero,BitVec.sub_self,Nat.sub_self]
      rfl
    · rw [srem_page,hoff]
      rw [BitVec.toInt_eq_toNat_of_lt (by omega)]
      omega
  have hdown : (x-start-(x-start).srem 4096).toNat = (x.toNat-start.toNat)/4096*4096 := by
    rw [BitVec.toNat_sub,hrem,hoff]
    omega
  apply BitVec.eq_of_toNat_eq
  change (start+(x-start-(x-start).srem 4096)).toNat = _
  rw [BitVec.toNat_add,hdown,PGROUNDDOWN_toNat]
  omega

theorem PDX_PGROUNDDOWN (x : Word) : PDX (PGROUNDDOWN x) = PDX x := by
  apply Fin.ext
  rw [PDX_val,PDX_val,PGROUNDDOWN_toNat]
  omega

theorem PTX_PGROUNDDOWN (x : Word) : PTX (PGROUNDDOWN x) = PTX x := by
  apply Fin.ext
  rw [PTX_val,PTX_val,PGROUNDDOWN_toNat]
  omega

end Addresses

section Loading

def PageDir.withPage (pd : PageDir) (x : Word) (f g : Frame) : PageDir :=
  (pd.addTable (PGROUNDDOWN x) g).setPte (PGROUNDDOWN x) ⟨f,true,true,true⟩

theorem walkpgdir_withPage (pd : PageDir) (a y : Word) (f g : Frame) :
    walkpgdir (pd.withPage a f g) y = if PDX y = PDX a then
      if PTX y = PTX a then some ⟨f,true,true,true⟩ else some .zero else walkpgdir pd y := by
  rw [PageDir.withPage,walkpgdir_setPte,PDX_PGROUNDDOWN,PTX_PGROUNDDOWN]
  by_cases hd : PDX y = PDX a
  · by_cases ht : PTX y = PTX a
    · simp [PageDir.addTable,PDX_PGROUNDDOWN,hd,ht]
    · simp [walkpgdir,PageDir.addTable,PDX_PGROUNDDOWN,hd,ht]
  · simp [walkpgdir,PageDir.addTable,PDX_PGROUNDDOWN,hd]

theorem translate_withPage (pd : PageDir) (x : Word) (f g : Frame) :
    translate (pd.withPage x f g) .userRead x = some f := by
  rw [translate,walkpgdir_withPage,if_pos rfl,if_pos rfl]
  rfl

theorem mapLoop_first {n : ℕ} (hnone : pd.pde (PDX a) = none) (hfree : s.mem.freelist = g :: fs) :
    mapLoop true true (n+1) pd (PGROUNDDOWN a) f s =
      mapLoop true true n (pd.withPage a f g) (PGROUNDDOWN a+4096) (f+1)
        { s with mem := { s.mem with freelist := fs } } := by
  have hpte : walkpgdir (pd.addTable (PGROUNDDOWN a) g) (PGROUNDDOWN a) = some .zero := by
    simp [walkpgdir,PageDir.addTable]
  exact mapLoop_succ (walkpgdirAlloc_new (by rwa [PDX_PGROUNDDOWN]) hfree) hpte

theorem mapLoop_starved {n : ℕ} (hnone : pd.pde (PDX a) = none) (hfree : s.mem.freelist = []) :
    mapLoop true true (n+1) pd (PGROUNDDOWN a) f s = .ok (false,pd) s :=
  mapLoop_refused (walkpgdirAlloc_starved (by rwa [PDX_PGROUNDDOWN]) hfree)

end Loading
end Xv6.Kernel
