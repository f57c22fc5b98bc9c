import Xv6.Kernel.PageMap

/-! # New address spaces

The kernel part of an address space lies behind the user's half, and the copy of a
process's pages ends at the size of the process. Both succeed when the free list is
long enough for the pages and for every page table.
-/
namespace Xv6.Kernel
open Wmap Program
variable {va size i sz : Word} {pd pd' d d' : PageDir} {s s' : Ctx} {f : Frame} {w u b : Bool} {c : ℕ}
  {S : Finset (Fin NPDENTRIES)}

section Ranges

theorem mappages_eq (hsize : 0 < size.toNat) (hend : va.toNat+size.toNat ≤ 2^32) :
    mappages pd va size f w u =
      mapLoop w u ((va.toNat+size.toNat-1)/4096-va.toNat/4096+1) pd (PGROUNDDOWN va) f := by
  have hlast : (va+size-1).toNat = va.toNat+size.toNat-1 := by
    have hone : (1 : Word).toNat = 1 := rfl
    rw [BitVec.toNat_sub,BitVec.toNat_add,hone]
    omega
  have hpages : (PGROUNDDOWN (va+size-1)-PGROUNDDOWN va).toNat/4096 =
      (va.toNat+size.toNat-1)/4096-va.toNat/4096 := by
    rw [BitVec.toNat_sub,PGROUNDDOWN_toNat,PGROUNDDOWN_toNat,hlast]
    omega
  change mapLoop w u ((PGROUNDDOWN (va+size-1)-PGROUNDDOWN va).toNat/4096+1) pd (PGROUNDDOWN va) f = _
  rw [hpages]

theorem page_fits (halign : i.toNat % 4096 = 0) : i.toNat+(4096 : Word).toNat ≤ 2^32 := by
  have := i.isLt
  rw [page_toNat]
  omega

theorem PGROUNDDOWN_of_aligned (halign : va.toNat % 4096 = 0) : PGROUNDDOWN va = va := by
  apply BitVec.eq_of_toNat_eq
  rw [PGROUNDDOWN_toNat]
  omega

theorem mappages_one (halign : va.toNat % 4096 = 0) (pd : PageDir) (f : Frame) (w u : Bool) :
    mappages pd va 4096 f w u = mapLoop w u 1 pd va f := by
  rw [mappages_eq (by decide) (page_fits halign),PGROUNDDOWN_of_aligned halign,page_toNat]
  congr 1
  omega

theorem mappages_succeeds (hsize : 0 < size.toNat) (hend : va.toNat+size.toNat ≤ 2^32)
    (hS : ∀ x : Word, va.toNat/4096 ≤ x.toNat/4096 → x.toNat/4096 ≤ (va.toNat+size.toNat-1)/4096 → PDX x ∈ S)
    (hfree : ∀ x, pd.present x → va.toNat/4096 ≤ x.toNat/4096 → (va.toNat+size.toNat-1)/4096 < x.toNat/4096)
    (hroom : absent S pd+c ≤ s.mem.freelist.length) :
    ∃ pd' s', mappages pd va size f w u s = .ok (true,pd') s' ∧ absent S pd'+c ≤ s'.mem.freelist.length ∧
      ∀ x, pd'.present x →
        pd.present x ∨ va.toNat/4096 ≤ x.toNat/4096 ∧ x.toNat/4096 ≤ (va.toNat+size.toNat-1)/4096 := by
  rw [mappages_eq hsize hend]
  have hbase := PGROUNDDOWN_toNat va
  have hat : ∀ k < (va.toNat+size.toNat-1)/4096-va.toNat/4096+1,
      (pageAt (PGROUNDDOWN va) k).toNat = va.toNat/4096*4096+4096*k := fun k hk => by
    rw [pageAt_toNat (by omega),hbase]
  obtain ⟨pd',s',hrun,hroom',hpres⟩ := mapLoop_succeeds (w := w) (u := u) (f := f)
    (n := (va.toNat+size.toNat-1)/4096-va.toNat/4096+1) (a := PGROUNDDOWN va) (by omega)
    (fun k hk => hS _ (by rw [hat k hk]; omega) (by rw [hat k hk]; omega)) (fun k hk hp => by
      have := hat k hk
      have := hfree _ hp (by omega)
      omega) hroom
  refine ⟨pd',s',hrun,hroom',fun x hx => ?_⟩
  rcases hpres x hx with hx | hx
  · exact .inl hx
  · right
    omega

end Ranges

section KernelPart

structure Kmap.Upper (k : Kmap) : Prop where
  virt : 2^31 ≤ k.virt.toNat
  pages : k.virt.toNat % 4096 = 0
  size : 0 < k.size.toNat
  limit : k.virt.toNat+k.size.toNat ≤ 2^32

def Kmap.covers (k : Kmap) (x : Word) : Prop :=
  k.virt.toNat ≤ x.toNat ∧ x.toNat/4096 ≤ (k.virt.toNat+k.size.toNat-1)/4096

def Kmap.Before (k l : Kmap) : Prop := k.virt.toNat+k.size.toNat ≤ l.virt.toNat

/-- The sizes of the second and third range and the start of the third one, as numbers. -/
theorem kmap_sizes {data : ℕ} (htext : 0x100 < data) (hdata : data < 0xE000) :
    (BitVec.ofNat 32 (data*PGSIZE)-0x100000).toNat = data*4096-0x100000 ∧
    (0x80000000+BitVec.ofNat 32 (data*PGSIZE)).toNat = 0x80000000+data*4096 ∧
    (0xE000000-BitVec.ofNat 32 (data*PGSIZE)).toNat = 0xE000000-data*4096 := by
  have hsize : (BitVec.ofNat 32 (data*PGSIZE)).toNat = data*4096 := by
    change data*4096 % 2^32 = _
    omega
  have h1 : (0x80000000 : Word).toNat = 0x80000000 := rfl
  have h2 : (0x100000 : Word).toNat = 0x100000 := rfl
  have h4 : (0xE000000 : Word).toNat = 0xE000000 := rfl
  refine ⟨?_,?_,?_⟩
  · rw [BitVec.toNat_sub,hsize,h2]
    omega
  · rw [BitVec.toNat_add,hsize,h1]
    omega
  · rw [BitVec.toNat_sub,hsize,h4]
    omega

theorem kmap_numbers : (0x80000000 : Word).toNat = 0x80000000 ∧ (0x100000 : Word).toNat = 0x100000 ∧
    (0x80100000 : Word).toNat = 0x80100000 ∧ (0xFE000000 : Word).toNat = 0xFE000000 ∧
    (0x2000000 : Word).toNat = 0x2000000 := ⟨rfl,rfl,rfl,rfl,rfl⟩

theorem kmap_upper {data : ℕ} (htext : 0x100 < data) (hdata : data < 0xE000) :
    (∀ k ∈ kmap data, k.Upper) ∧ (kmap data).Pairwise Kmap.Before := by
  obtain ⟨htextSize,hvirt,hdataSize⟩ := kmap_sizes htext hdata
  obtain ⟨h1,h2,h3,h5,h6⟩ := kmap_numbers
  constructor
  · intro k hk
    simp only [kmap,List.mem_cons,List.not_mem_nil,or_false] at hk
    rcases hk with rfl | rfl | rfl | rfl <;> constructor <;>
      simp only [h1,h2,h3,h5,h6,htextSize,hvirt,hdataSize] <;> omega
  · simp only [kmap,List.pairwise_cons,List.mem_cons,List.not_mem_nil,or_false,forall_eq_or_imp,forall_eq,
      Kmap.Before,h1,h2,h3,h5,htextSize,hvirt,hdataSize,IsEmpty.forall_iff,implies_true,List.Pairwise.nil,
      and_true]
    refine ⟨⟨?_,?_,?_⟩,⟨?_,?_⟩,?_⟩ <;> omega

theorem Image.kmap_upper (im : Image) : (∀ k ∈ kmap im.data, k.Upper) ∧ (kmap im.data).Pairwise Kmap.Before :=
  Kernel.kmap_upper im.text (Nat.lt_of_le_of_lt im.data_le im.lo_lt)

theorem mapRanges_succeeds {ks : List Kmap} (hks : ∀ k ∈ ks, k.Upper) (hsep : ks.Pairwise Kmap.Before)
    (hS : ∀ k ∈ ks, ∀ x, Kmap.covers k x → PDX x ∈ S)
    (hfree : ∀ x, pd.present x → ∀ k ∈ ks, x.toNat/4096 < k.virt.toNat/4096)
    (hroom : absent S pd+c ≤ s.mem.freelist.length) :
    ∃ pd' s', mapRanges ks pd s = .ok (true,pd') s' ∧ absent S pd'+c ≤ s'.mem.freelist.length ∧
      ∀ x, pd'.present x → pd.present x ∨ 2^31 ≤ x.toNat := by
  induction ks generalizing pd s with
  | nil => exact ⟨pd,s,rfl,hroom,fun x hx => .inl hx⟩
  | cons k ks ih =>
    have hk := hks k (List.mem_cons_self ..)
    have hvirt := hk.virt
    have hpages := hk.pages
    obtain ⟨hbefore,hsep⟩ := List.pairwise_cons.mp hsep
    obtain ⟨pd₁,s₁,h1,hroom₁,hpres₁⟩ := mappages_succeeds (f := k.phys) (w := k.w) (u := false) hk.size hk.limit
      (fun x hlo hhi => hS k (List.mem_cons_self ..) x ⟨by omega,hhi⟩) (fun x hx hlo => by have := hfree x hx k (List.mem_cons_self ..); omega) hroom
    obtain ⟨pd',s',h2,hroom',hpres'⟩ := ih (fun k hk => hks k (List.mem_cons_of_mem _ hk)) hsep
      (fun k hk => hS k (List.mem_cons_of_mem _ hk)) (fun x hx l hl => by
      have hl' : k.virt.toNat+k.size.toNat ≤ l.virt.toNat := hbefore l hl
      have := (hks l (List.mem_cons_of_mem _ hl)).pages
      have := hk.size
      rcases hpres₁ x hx with hx | ⟨-,hx⟩
      · exact hfree x hx l (List.mem_cons_of_mem _ hl)
      · omega) hroom₁
    refine ⟨pd',s',?_,hroom',fun x hx => ?_⟩
    · unfold mapRanges
      rw [bind_of_ok h1]
      exact h2
    · rcases hpres' x hx with hx | hx
      · rcases hpres₁ x hx with hx | ⟨hx,-⟩
        · exact .inl hx
        · right
          omega
      · exact .inr hx

/-- A frame for the directory and one for each page table are all that is needed. -/
theorem setupkvm_succeeds (hS : ∀ k ∈ kmap s.mem.image.data, ∀ x, Kmap.covers k x → PDX x ∈ S)
    (hroom : 1+S.card+c ≤ s.mem.freelist.length) :
    ∃ pd s', setupkvm s = .ok (some pd) s' ∧ absent S pd+c ≤ s'.mem.freelist.length ∧
      ∀ x, pd.present x → 2^31 ≤ x.toNat := by
  obtain ⟨f,fs,hf⟩ := List.exists_cons_of_length_pos (by omega : 0 < s.mem.freelist.length)
  rw [hf,List.length_cons] at hroom
  have habs : absent S ⟨f,fun _ => none⟩ ≤ S.card := Finset.card_filter_le _ _
  have hnone : ∀ x, ¬ (⟨f,fun _ => none⟩ : PageDir).present x := by
    rintro x ⟨pte,hw,-⟩
    cases hw
  obtain ⟨hupper,hsep⟩ := s.mem.image.kmap_upper
  have hroom₀ : absent S ⟨f,fun _ => none⟩+c ≤ fs.length := by omega
  obtain ⟨pd,s',h1,hroom',hpres⟩ := mapRanges_succeeds (s := { s with mem := { s.mem with freelist := fs } })
    hupper hsep hS (fun x hx => absurd hx (hnone x)) hroom₀
  refine ⟨pd,s',?_,hroom',fun x hx => (hpres x hx).resolve_left (hnone x)⟩
  unfold setupkvm
  rw [bind_apply,kalloc_apply,hf]
  dsimp only
  rw [bind_apply,get_apply]
  dsimp only
  rw [bind_of_ok h1]
  rfl

end KernelPart

section Copy

/-- With frames to spare the page at the end of the user's pages can be mapped, and it is their new end. -/
theorem mappages_next {j : ℕ} (hj : i.toNat = 4096*j) (hlow : i.toNat < 2^31) (hS : PDX i ∈ S)
    (hfree : ∀ x, d.present x → x.toNat/4096 < j ∨ 2^31 ≤ x.toNat) (hroom : absent S d+c ≤ s.mem.freelist.length) :
    ∃ d' s', mappages d i 4096 f w u s = .ok (true,d') s' ∧ absent S d'+c ≤ s'.mem.freelist.length ∧
      (i+4096).toNat = 4096*(j+1) ∧ ∀ x, d'.present x → x.toNat/4096 < j+1 ∨ 2^31 ≤ x.toNat := by
  have hsame : ∀ x : Word, i.toNat/4096 ≤ x.toNat/4096 → x.toNat/4096 ≤ (i.toNat+(4096 : Word).toNat-1)/4096 → PDX x ∈ S := by
    intro x hlo hhi
    rw [page_toNat] at hhi
    rwa [(page_indices (show x.toNat/4096 = i.toNat/4096 by omega)).1]
  have hlater : ∀ x, d.present x → i.toNat/4096 ≤ x.toNat/4096 →
      (i.toNat+(4096 : Word).toNat-1)/4096 < x.toNat/4096 := by
    intro x hx hlo
    have := hfree x hx
    rw [page_toNat]
    omega
  obtain ⟨d',s',hrun,hroom',hpres⟩ := mappages_succeeds (by decide) (page_fits (by omega)) hsame hlater hroom
  have hnext := page_succ (a := i) (by omega)
  refine ⟨d',s',hrun,hroom',by omega,fun x hx => ?_⟩
  rcases hpres x hx with hx | ⟨-,hx⟩
  · have := hfree x hx
    omega
  · rw [page_toNat] at hx
    omega

/-- One round of the loop: the page is copied to the first free frame, which is then mapped or given back. -/
theorem copyLoop_round {fuel : ℕ} {pte : Pte} {fs : List Frame} (hlt : i < sz) (hw : walkpgdir pd i = some pte)
    (hp : pte.p = true) (hf : s.mem.freelist = f :: fs) : copyLoop pd sz (fuel+1) d i s = (do
      let (done,d) ← mappages d i 4096 f pte.w pte.u
      if done then copyLoop pd sz fuel d (i+4096)
      else
        kfree f
        freevm d
        pure none : KernelM (Option PageDir)) { s with mem := { s.mem with
          page := Function.update s.mem.page f (s.mem.page pte.frame)
          freelist := fs } } := by
  rw [copyLoop,if_pos hlt,hw]
  dsimp only
  rw [if_pos hp,bind_apply,kalloc_apply,hf]
  rfl

theorem copyLoop_succeeds {fuel n j : ℕ} (hj : i.toNat = 4096*j) (hn : (sz.toNat+4095)/4096 = j+n)
    (hfuel : n < fuel) (hsz : sz.toNat ≤ 2^31)
    (hparent : ∀ x : Word, x.toNat < sz.toNat → x.toNat % 4096 = 0 → pd.present x)
    (hfree : ∀ x, d.present x → x.toNat/4096 < j ∨ 2^31 ≤ x.toNat)
    (hroom : absent Finset.univ d+n+c ≤ s.mem.freelist.length) :
    ∃ d' s', copyLoop pd sz fuel d i s = .ok (some d') s' ∧ c ≤ s'.mem.freelist.length := by
  induction n generalizing fuel j d i s with
  | zero =>
    obtain ⟨fuel,rfl⟩ : ∃ k, fuel = k+1 := ⟨fuel-1,by omega⟩
    have hlt : ¬ i < sz := by
      rw [BitVec.lt_def]
      omega
    refine ⟨d,s,?_,by omega⟩
    unfold copyLoop
    rw [if_neg hlt]
    rfl
  | succ n ih =>
    obtain ⟨fuel,rfl⟩ : ∃ k, fuel = k+1 := ⟨fuel-1,by omega⟩
    have hlt : i < sz := by
      rw [BitVec.lt_def]
      omega
    obtain ⟨pte,hw,hp⟩ := hparent i (BitVec.lt_def.mp hlt) (by omega)
    obtain ⟨f,fs,hf⟩ := List.exists_cons_of_length_pos (by omega : 0 < s.mem.freelist.length)
    rw [hf,List.length_cons] at hroom
    obtain ⟨d₁,s₁,h1,hroom₁,hnext,hfree'⟩ := mappages_next (f := f) (w := pte.w) (u := pte.u)
      (s := { s with mem := { s.mem with
        page := Function.update s.mem.page f (s.mem.page pte.frame)
        freelist := fs } }) hj (by omega) (Finset.mem_univ _) hfree
      (by omega : absent Finset.univ d+(n+c) ≤ fs.length)
    obtain ⟨d',s',h2,hroom'⟩ := ih hnext (by omega) (by omega : n < fuel) hfree'
      (by omega : absent Finset.univ d₁+n+c ≤ s₁.mem.freelist.length)
    refine ⟨d',s',?_,hroom'⟩
    rw [copyLoop_round hlt hw hp hf,bind_of_ok h1]
    exact h2

theorem copyuvm_succeeds (hsz : sz.toNat ≤ 2^31)
    (hparent : ∀ x : Word, x.toNat < sz.toNat → x.toNat % 4096 = 0 → pd.present x)
    (hroom : 1025+((sz.toNat+4095)/4096+c) ≤ s.mem.freelist.length) :
    ∃ d' s', copyuvm pd sz s = .ok (some d') s' ∧ c ≤ s'.mem.freelist.length := by
  have hcard : (Finset.univ : Finset (Fin NPDENTRIES)).card = 1024 := Finset.card_fin _
  obtain ⟨d,s₁,h1,hroom₁,hpres⟩ := setupkvm_succeeds (S := Finset.univ) (s := s) (c := (sz.toNat+4095)/4096+c)
    (fun _ _ _ _ => Finset.mem_univ _) (by omega)
  have hfuel : (sz.toNat+4095)/4096 < allPages := by
    unfold allPages
    omega
  obtain ⟨d',s',h2,hroom'⟩ := copyLoop_succeeds (c := c) (i := 0) (j := 0) (s := s₁) (by decide)
    (Nat.zero_add _).symm hfuel hsz hparent (fun x hx => .inr (hpres x hx)) (by omega)
  refine ⟨d',s',?_,hroom'⟩
  unfold copyuvm
  rw [bind_of_ok h1]
  exact h2

end Copy
end Xv6.Kernel
