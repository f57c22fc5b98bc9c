import Xv6.Vm.Allocation

/-! # Images

A directory whose user pages are those below a size. The size tells how many frames it takes: one
for itself and one for each page and each page table. So whether an image can be built at all
depends on its size and on the number of free frames only.
-/
namespace Xv6.Vm
open Wmap Kernel Program Inventory
variable {s₀ s s' : Ctx} {pd pd' : PageDir} {sz newsz x : Word} {used : List Frame} {c : ℕ}

section Images

/-- The user pages of `pd` are those below `sz`, and only they have page tables. -/
structure Imaged (pd : PageDir) (sz : Word) : Prop where
  limit : sz.toNat < 2^31
  pages : ∀ x : Word, x.toNat/4096*4096 < sz.toNat → (entry pd x).p = true ∧ (entry pd x).u = true
  rest : ∀ x : Word, x.toNat < 2^31 → sz.toNat ≤ x.toNat/4096*4096 → (entry pd x).p = false
  tables : ∀ x : Word, x.toNat < 2^31 → ((pd.pde (PDX x)).isSome ↔ x.toNat/2^22*2^22 < sz.toNat)
  kernel : KernelHalf pd

theorem imaged_zero (hkernel : KernelHalf pd) (hlow : ∀ d, d.val < 512 → pd.pde d = none) : Imaged pd 0 := by
  have hnone : ∀ x : Word, x.toNat < 2^31 → pd.pde (PDX x) = none := fun x hx => hlow _ (by rw [PDX_val]; omega)
  have hzero : (0 : Word).toNat = 0 := rfl
  refine ⟨by decide,fun x hx => by omega,fun x hx _ => ?_,fun x hx => ?_,hkernel⟩
  · rw [entry,walkpgdir,hnone x hx]
    rfl
  · rw [hnone x hx,hzero]
    simp

theorem tableStart {b : ℕ} (h : b*2^22 < 2^32) : (BitVec.ofNat 32 (b*2^22)).toNat = b*2^22 := by
  rw [BitVec.toNat_ofNat]
  omega

theorem tableStart_le (y : Word) : y.toNat/2^22*2^22 ≤ y.toNat/4096*4096 := by omega

theorem Imaged.grow (h : Imaged pd sz) (hle : sz ≤ newsz) (hlt : newsz < KERNBASE)
    (halloc : Allocated (PGROUNDUP sz) newsz pd s pd' s') : Imaged pd' newsz := by
  have hlimit := h.limit
  have hnew : newsz.toNat < 2^31 := BitVec.lt_def.mp hlt
  have hle' : sz.toNat ≤ newsz.toNat := BitVec.le_def.mp hle
  have hspans : ∀ y, Spans (PGROUNDUP sz) newsz y ↔ (sz.toNat+4095)/4096*4096 ≤ y.toNat/4096*4096 ∧
      y.toNat/4096*4096 < newsz.toNat := by
    intro y
    rw [Spans,PGROUNDUP_toNat (by omega)]
  refine ⟨hnew,fun x hx => ?_,fun x hx hge => ?_,fun x hx => ?_,?_⟩
  · by_cases hold : x.toNat/4096*4096 < sz.toNat
    · rw [halloc.old x (by rw [hspans]; omega)]
      exact h.pages x hold
    · have hflags := halloc.flags x (by rw [hspans]; omega)
      exact ⟨hflags.1,hflags.2.2⟩
  · rw [halloc.old x (by rw [hspans]; omega)]
    exact h.rest x hx (by omega)
  · rw [halloc.table,h.tables x hx]
    constructor
    · rintro (hold | ⟨y,hy,hd⟩)
      · exact Nat.lt_of_lt_of_le hold hle'
      · have hd := congrArg Fin.val hd
        rw [PDX_val,PDX_val] at hd
        have hy := ((hspans y).mp hy).2
        rw [hd]
        exact Nat.lt_of_le_of_lt (tableStart_le y) hy
    · intro hbase
      by_cases hold : x.toNat/2^22*2^22 < sz.toNat
      · exact .inl hold
      · right
        have hy := tableStart (b := x.toNat/2^22) (by omega)
        refine ⟨BitVec.ofNat 32 (x.toNat/2^22*2^22),?_,?_⟩
        · rw [hspans,hy]
          omega
        · apply Fin.ext
          rw [PDX_val,PDX_val,hy]
          omega
  · refine h.kernel.keep (fun x hx => halloc.old x ?_) fun x hx => ?_
    · rw [hspans]
      omega
    · rw [halloc.table]
      refine or_iff_left ?_
      rintro ⟨y,hy,hd⟩
      have hy := (hspans y).mp hy
      exact table_upper (by omega) hx hd

theorem rangeFrames_owned {f : Frame} (hlt : newsz < KERNBASE) (hf : f ∈ rangeFrames pd sz newsz) : f ∈ owned pd := by
  obtain ⟨x,hx,hp,rfl⟩ := hf
  have hhi := hx.2
  have hnew : newsz.toNat < 2^31 := BitVec.lt_def.mp hlt
  rw [BitVec.lt_def,PGROUNDDOWN_toNat] at hhi
  exact entry_owned (by omega) hp

end Images

section Counting

/-- The frames of an image: its directory, the 64 page tables of the kernel's half, its pages and
their page tables. -/
def framesFor (sz : Word) : ℕ := 65+(sz.toNat+4095)/4096+(sz.toNat+(2^22-1))/2^22

theorem framesFor_mono (h : sz ≤ newsz) : framesFor sz ≤ framesFor newsz := by
  have h' : sz.toNat ≤ newsz.toNat := BitVec.le_def.mp h
  unfold framesFor
  omega

def kernelTables : Finset ℕ := Finset.Ico 512 568 ∪ Finset.Ico 1016 1024

theorem mem_kernelTables {d : ℕ} : d ∈ kernelTables ↔ 512 ≤ d ∧ d < 568 ∨ 1016 ≤ d ∧ d < 1024 := by
  rw [kernelTables,Finset.mem_union,Finset.mem_Ico,Finset.mem_Ico]

theorem card_kernelTables : kernelTables.card = 64 := by
  rw [kernelTables,Finset.card_union_of_disjoint,Nat.card_Ico,Nat.card_Ico]
  refine Finset.disjoint_left.mpr fun d hd hd' => ?_
  rw [Finset.mem_Ico] at hd hd'
  omega

theorem Imaged.table_iff (h : Imaged pd sz) (d : Fin NPDENTRIES) :
    (pd.pde d).isSome ↔ d.val*2^22 < sz.toNat ∨ d.val ∈ kernelTables := by
  have hd := d.isLt
  have hentries : NPDENTRIES = 1024 := rfl
  have hlimit := h.limit
  have hx := tableStart (b := d.val) (by omega)
  have hpdx : PDX (BitVec.ofNat 32 (d.val*2^22)) = d := Fin.ext (by rw [PDX_val,hx]; omega)
  rw [mem_kernelTables]
  by_cases hlow : d.val*2^22 < 2^31
  · have htable := h.tables _ (hx.trans_lt hlow)
    rw [hpdx,hx] at htable
    rw [htable]
    omega
  · have htable := h.kernel.tables (BitVec.ofNat 32 (d.val*2^22)) (by omega)
    rw [hpdx,kernelMapped,hx] at htable
    rw [htable]
    omega

theorem Imaged.page_iff (h : Imaged pd sz) (k : Fin UPAGES) : (holds pd (.page k)).isSome ↔ 4096*k.val < sz.toNat := by
  have hk := pageAt_page k
  have hlimit := h.limit
  have hpages : UPAGES = 2^19 := rfl
  have hlt := k.isLt
  have hholds : (holds pd (.page k)).isSome ↔ (entry pd (pageAt 0 k.val)).p = true := by
    change (frameOf (walkpgdir pd (pageAt 0 k.val))).isSome ↔ _
    unfold entry
    cases walkpgdir pd (pageAt 0 k.val) with
    | none => simp [frameOf,Pte.zero]
    | some pte => by_cases hp : pte.p = true <;> simp [frameOf,hp]
  rw [hholds]
  constructor
  · intro hp
    by_contra hge
    rw [h.rest _ (by omega) (by omega)] at hp
    cases hp
  · intro hin
    exact (h.pages _ (by omega)).1

theorem Imaged.length_owned (h : Imaged pd sz) : (owned pd).length = framesFor sz := by
  have hlimit := h.limit
  have hsize : UPAGES = 2^19 ∧ NPDENTRIES = 1024 := ⟨rfl,rfl⟩
  have hpages : (pageFrames pd).length = (sz.toNat+4095)/4096 := by
    rw [pageFrames,length_items_finRange (A := Finset.range ((sz.toNat+4095)/4096)),Finset.card_range]
    · intro k hk
      rw [Finset.mem_range] at hk
      omega
    · intro k
      rw [h.page_iff,Finset.mem_range]
      omega
  have htables : (tableFrames pd).length = (sz.toNat+(2^22-1))/2^22+64 := by
    rw [tableFrames,length_items_finRange (A := Finset.range ((sz.toNat+(2^22-1))/2^22) ∪ kernelTables),
      Finset.card_union_of_disjoint,Finset.card_range,card_kernelTables]
    · refine Finset.disjoint_left.mpr fun d hd hd' => ?_
      rw [Finset.mem_range] at hd
      rw [mem_kernelTables] at hd'
      omega
    · intro d hd
      rw [Finset.mem_union,Finset.mem_range,mem_kernelTables] at hd
      omega
    · intro d
      rw [Option.isSome_map,h.table_iff,Finset.mem_union,Finset.mem_range]
      refine or_congr_left ?_
      omega
  rw [(owned_split pd).length_eq,List.length_append,List.length_append,hpages,htables]
  unfold framesFor
  change _+(_+1) = _
  omega

/-- What an image has taken and what is still free were free before. -/
theorem Imaged.frames (h : Imaged pd sz) (hbuild : Building s₀ s [] pd) :
    framesFor sz+s.mem.freelist.length = s₀.mem.freelist.length := by
  have hlength := hbuild.frames.length_eq
  rw [List.nil_append,List.length_append,h.length_owned] at hlength
  exact hlength.symm

end Counting

section Growing

def lowTables (sz : Word) : Finset (Fin NPDENTRIES) := Finset.univ.filter fun d => d.val*2^22 < sz.toNat

theorem mem_lowTables (hx : x.toNat < sz.toNat) : PDX x ∈ lowTables sz := by
  rw [lowTables,Finset.mem_filter,PDX_val]
  exact ⟨Finset.mem_univ _,by omega⟩

theorem Imaged.absent_le (h : Imaged pd sz) (newsz : Word) :
    absent (lowTables newsz) pd ≤ (newsz.toNat+(2^22-1))/2^22-(sz.toNat+(2^22-1))/2^22 := by
  rw [← Nat.card_Ico,absent]
  refine Finset.card_le_card_of_injOn Fin.val (fun d hd => ?_) Fin.val_injective.injOn
  rw [Finset.mem_coe,lowTables,Finset.mem_filter,Finset.mem_filter,Option.isNone_iff_eq_none,← Option.not_isSome_iff_eq_none,
    h.table_iff] at hd
  rw [Finset.mem_coe,Finset.mem_Ico]
  omega

/-- A frame for every page and every missing page table is all that is needed. -/
theorem allocLoop_succeeds {S : Finset (Fin NPDENTRIES)} {oldsz a : Word} {fuel n j : ℕ} (hj : a.toNat = 4096*j)
    (hn : (newsz.toNat+4095)/4096 = j+n) (hfuel : n < fuel) (hsz : newsz.toNat ≤ 2^31)
    (hS : ∀ x : Word, x.toNat < newsz.toNat → PDX x ∈ S)
    (hfree : ∀ x, pd.present x → x.toNat/4096 < j ∨ 2^31 ≤ x.toNat) (hroom : absent S pd+n ≤ s.mem.freelist.length) :
    ∃ pd' s', allocLoop oldsz newsz fuel pd a s = .ok (newsz,pd') s' := by
  induction n generalizing fuel j pd a s with
  | zero =>
    obtain ⟨fuel,rfl⟩ : ∃ k, fuel = k+1 := ⟨fuel-1,by omega⟩
    have hlt : ¬ a < newsz := by
      rw [BitVec.lt_def]
      omega
    refine ⟨pd,s,?_⟩
    unfold allocLoop
    rw [if_neg hlt]
    rfl
  | succ n ih =>
    obtain ⟨fuel,rfl⟩ : ∃ k, fuel = k+1 := ⟨fuel-1,by omega⟩
    have hlt : a < newsz := by
      rw [BitVec.lt_def]
      omega
    obtain ⟨f,fs,hf⟩ := List.exists_cons_of_length_pos (by omega : 0 < s.mem.freelist.length)
    rw [hf,List.length_cons] at hroom
    have halloc : kalloc s = .ok (some f) { s with mem := { s.mem with freelist := fs } } := by
      rw [kalloc_apply,hf]
    obtain ⟨pd₁,s₁,hmap,hroom₁,hnext,hfree'⟩ := mappages_next (c := n) (f := f) (w := true) (u := true)
      (s := { s with mem := { s.mem with
        page := Function.update s.mem.page f (fun _ => 0)
        freelist := fs } }) hj (by omega) (hS a (BitVec.lt_def.mp hlt)) hfree
      (by omega : absent S pd+n ≤ fs.length)
    obtain ⟨pd',s',hrest⟩ := ih hnext (by omega) (by omega : n < fuel) hfree' hroom₁
    refine ⟨pd',s',?_⟩
    unfold allocLoop
    rw [if_pos hlt,bind_of_ok halloc]
    dsimp only
    rw [bind_apply]
    change (mappages pd a 4096 f true true >>= fun x => _) _ = _
    rw [bind_of_ok hmap]
    exact hrest

/-- An image can grow below `KERNBASE` as far as there are frames for it. -/
theorem Imaged.allocuvm_succeeds (h : Imaged pd sz) (hbuild : Building s₀ s [] pd) (hle : sz ≤ newsz) (hlt : newsz < KERNBASE)
    (hroom : framesFor newsz ≤ s₀.mem.freelist.length) : ∃ pd' s', allocuvm pd sz newsz s = .ok (newsz,pd') s' := by
  have hlimit := h.limit
  have hnew : newsz.toNat < 2^31 := BitVec.lt_def.mp hlt
  have hle' : sz.toNat ≤ newsz.toNat := BitVec.le_def.mp hle
  have hup := PGROUNDUP_toNat (a := sz) (by omega)
  have hframes := h.frames hbuild
  have habsent := h.absent_le newsz
  unfold framesFor at hframes hroom
  unfold Vm.allocuvm
  rw [if_neg (BitVec.not_le.mpr hlt),if_neg (BitVec.not_lt.mpr hle)]
  refine allocLoop_succeeds (j := (sz.toNat+4095)/4096) (n := (newsz.toNat+4095)/4096-(sz.toNat+4095)/4096) (by omega)
    (by omega) (by unfold allPages; omega) (by omega) (fun x => mem_lowTables) (fun x hx => ?_) (by omega)
  by_contra hout
  have hp := h.rest x (by omega) (by omega)
  rw [present_iff_entry.mp hx] at hp
  cases hp

def grownSize (sz newsz : Word) : Word := if newsz < sz then sz else newsz

theorem le_grownSize (sz newsz : Word) : sz ≤ grownSize sz newsz ∧ newsz ≤ grownSize sz newsz := by
  unfold grownSize
  split
  · exact ⟨BitVec.le_refl _,BitVec.le_of_lt ‹_›⟩
  · exact ⟨BitVec.not_lt.mp ‹_›,BitVec.le_refl _⟩

/-- An image grows to the size asked for, or it is refused: because of the size, or for want of frames. -/
theorem Imaged.allocuvm (h : Imaged pd sz) (hbuild : Building s₀ s [] pd) (hsound : SoundFree s₀ used) (newsz : Word) :
    ∃ r pd' s', allocuvm pd sz newsz s = .ok (r,pd') s' ∧ Building s₀ s' [] pd' ∧
      (r ≠ 0 → Imaged pd' r ∧ newsz < KERNBASE ∧ r = grownSize sz newsz) ∧
      (newsz < KERNBASE → framesFor (grownSize sz newsz) ≤ s₀.mem.freelist.length → r = grownSize sz newsz) := by
  by_cases hlt : newsz < KERNBASE
  · by_cases hle : sz ≤ newsz
    · have hsize : grownSize sz newsz = newsz := if_neg (BitVec.not_lt.mpr hle)
      rcases allocuvm_cases (hbuild.accounted hsound) hle hlt with ⟨pd',s',hrun,hdone⟩ | ⟨pd',s',hrun,hundone⟩
      · refine ⟨newsz,pd',s',hrun,hbuild.step hdone.conserves fun f hf => hbuild.mem_free hf,fun _ => ?_,fun _ _ => hsize.symm⟩
        exact ⟨h.grow hle hlt hdone,hlt,hsize.symm⟩
      · refine ⟨0,pd',s',hrun,hbuild.step hundone.conserves fun f hf => ?_,fun hne => absurd rfl hne,fun _ hroom => ?_⟩
        · rcases hf with hf | hf
          · exact hbuild.mem_free hf
          · exact hbuild.mem_owned (rangeFrames_owned hlt hf)
        · rw [hsize] at hroom ⊢
          obtain ⟨pd₁,s₁,hrun₁⟩ := h.allocuvm_succeeds hbuild hle hlt hroom
          rw [hrun] at hrun₁
          cases hrun₁
          rfl
    · have hsmall := BitVec.not_le.mp hle
      refine ⟨sz,pd,s,?_,hbuild,fun _ => ⟨h,hlt,(if_pos hsmall).symm⟩,fun _ _ => (if_pos hsmall).symm⟩
      unfold Vm.allocuvm
      rw [if_neg (BitVec.not_le.mpr hlt),if_pos hsmall]
      rfl
  · refine ⟨0,pd,s,?_,hbuild,fun hne => absurd rfl hne,fun hlt' => absurd hlt' hlt⟩
    unfold Vm.allocuvm
    rw [if_pos (BitVec.not_lt.mp hlt)]
    rfl

/-- An empty image can be had if there are frames for the directory and the kernel's page tables. -/
theorem setupkvm_room (howns : ∀ f ∈ s.mem.freelist, s.mem.owns f) (hroom : framesFor 0 ≤ s.mem.freelist.length) :
    ∃ pd s', setupkvm s = .ok (some pd) s' ∧ Building s s' [] pd ∧ Imaged pd 0 := by
  have hcard : (Finset.univ.filter fun d : Fin NPDENTRIES => d.val ∈ kernelTables).card ≤ kernelTables.card :=
    Finset.card_le_card_of_injOn Fin.val (fun d hd => (Finset.mem_filter.mp hd).2) Fin.val_injective.injOn
  have hframes : framesFor 0 = 65 := rfl
  rw [card_kernelTables] at hcard
  obtain ⟨pd,s',hrun,-⟩ := setupkvm_succeeds (S := Finset.univ.filter fun d => d.val ∈ kernelTables) (c := 0) (s := s)
    (fun k hk x hx => by
      have hmapped := (Image.kmap_covers s.mem.image x).mp ⟨k,hk,hx⟩
      have := x.isLt
      unfold kernelMapped at hmapped
      rw [Finset.mem_filter,mem_kernelTables,PDX_val]
      exact ⟨Finset.mem_univ _,by omega⟩) (by omega)
  refine ⟨pd,s',hrun,?_⟩
  rcases setupkvm_cases howns with ⟨pd₁,s₁,hrun₁,hbuild,hkernel,hempty⟩ | ⟨s₁,hrun₁,-⟩
  · rw [hrun] at hrun₁
    cases hrun₁
    exact ⟨hbuild,imaged_zero hkernel hempty⟩
  · rw [hrun] at hrun₁
    cases hrun₁

end Growing
end Xv6.Vm
