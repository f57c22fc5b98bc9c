import Xv6.Vm.Mapping

/-! # New address spaces

An address space is built from frames of the free list. While it is built, the frames taken
so far are in the hands of the caller or belong to it, so that `freevm` can give all of them
back. Its kernel part is the same one for every process.
-/
namespace Xv6.Vm
open Wmap Kernel Program Inventory
variable {s₀ s s' : Ctx} {hand hand' : List Frame} {pd pd' : PageDir} {B : Set Frame} {f : Frame} {x : Word}
  {ks : List Kmap}

section Accounts

/-- The free frames of `s₀` are in the hands of the caller, in the address space or free, and no
other page has changed. -/
structure Building (s₀ s : Ctx) (hand : List Frame) (pd : PageDir) : Prop where
  mem : MemOnly s₀ s
  frames : s₀.mem.freelist.Perm (hand ++ (owned pd ++ s.mem.freelist))
  pages : ∀ f, f ∉ s₀.mem.freelist → s.mem.page f = s₀.mem.page f

structure Returned (s₀ s : Ctx) : Prop where
  mem : MemOnly s₀ s
  frames : s₀.mem.freelist.Perm s.mem.freelist
  pages : ∀ f, f ∉ s₀.mem.freelist → s.mem.page f = s₀.mem.page f

theorem Returned.refl (s : Ctx) : Returned s s := ⟨.refl s,.rfl,fun _ _ => rfl⟩

theorem Building.step (h : Building s₀ s hand pd) (hstep : Conserves B hand pd s hand' pd' s')
    (hB : ∀ f ∈ B, f ∈ s₀.mem.freelist) : Building s₀ s' hand' pd' where
  mem := h.mem.trans hstep.mem
  frames := h.frames.trans hstep.frames
  pages f hf := (hstep.pages f fun hin => hf (hB f hin)).trans (h.pages f hf)

theorem Building.step_empty (h : Building s₀ s hand pd) (hstep : Conserves ∅ hand pd s hand' pd' s') :
    Building s₀ s' hand' pd' := h.step hstep fun _ hf => hf.elim

theorem Building.mem_hand (h : Building s₀ s hand pd) (hf : f ∈ hand) : f ∈ s₀.mem.freelist :=
  h.frames.mem_iff.mpr (List.mem_append_left _ hf)

theorem Building.mem_owned (h : Building s₀ s hand pd) (hf : f ∈ owned pd) : f ∈ s₀.mem.freelist :=
  h.frames.mem_iff.mpr (List.mem_append_right _ (List.mem_append_left _ hf))

theorem Building.mem_free (h : Building s₀ s hand pd) (hf : f ∈ s.mem.freelist) : f ∈ s₀.mem.freelist :=
  h.frames.mem_iff.mpr (List.mem_append_right _ (List.mem_append_right _ hf))

theorem Building.owns (h : Building s₀ s hand pd) (howns : ∀ f ∈ s₀.mem.freelist, s₀.mem.owns f)
    (hf : f ∈ s₀.mem.freelist) : s.mem.owns f := by
  unfold Mem.owns
  rw [h.mem.image]
  exact howns f hf

theorem owned_blank (f : Frame) : (owned ⟨f,fun _ => none⟩).Perm [f] := by
  have hholds : holds ⟨f,fun _ => none⟩ = Function.update (fun _ => none) .directory (some f) := by
    funext p
    cases p with
    | directory => rfl
    | table d => rfl
    | page k => rfl
  have hnone : items places (fun _ => (none : Option Frame)) = [] := List.filterMap_eq_nil_iff.mpr fun _ _ => rfl
  rw [owned,hholds]
  refine (items_put nodup_places (mem_places _) rfl f).trans ?_
  rw [hnone]

theorem Building.fresh {fs : List Frame} (hfree : s.mem.freelist = f :: fs) :
    Building s { s with mem := { s.mem with freelist := fs } } [] ⟨f,fun _ => none⟩ where
  mem := ⟨rfl,rfl⟩
  frames := by
    rw [hfree]
    exact ((owned_blank f).symm.append_right fs)
  pages _ _ := rfl

theorem Building.freevm (h : Building s₀ s [] pd) (howns : ∀ f ∈ s₀.mem.freelist, s₀.mem.owns f) :
    ∃ s', freevm pd s = .ok () s' ∧ Returned s₀ s' := by
  obtain ⟨l,hl,hrun⟩ := freevm_ok (s := s) fun f hf => h.owns howns (h.mem_owned hf)
  refine ⟨_,hrun,h.mem.trans ⟨image_freeing _ _,rfl⟩,?_,fun f hf => ?_⟩
  · refine h.frames.trans ?_
    rw [List.nil_append]
    exact (hl.symm.append_right _).trans (freelist_freeing _ _).symm
  · have hout : f ∉ l := fun hin => hf (h.mem_owned (hl.mem_iff.mp hin))
    exact (page_freeing _ hout).trans (h.pages f hf)

end Accounts

section KernelPart

/-- The addresses of the kernel's half that are mapped for every process: physical memory up to
`PHYSTOP`, and the devices. -/
def kernelMapped (x : Word) : Prop := 2^31 ≤ x.toNat ∧ (x.toNat < 0x8E000000 ∨ 0xFE000000 ≤ x.toNat)

theorem kmap_covers {data : ℕ} (htext : 0x100 < data) (hdata : data < 0xE000) (x : Word) :
    (∃ k ∈ kmap data, Kmap.covers k x) ↔ kernelMapped x := by
  obtain ⟨htextSize,hvirt,hdataSize⟩ := kmap_sizes htext hdata
  have hx := x.isLt
  obtain ⟨h1,h2,h3,h5,h6⟩ := kmap_numbers
  simp only [kmap,List.mem_cons,List.not_mem_nil,or_false,exists_eq_or_imp,exists_eq_left,Kmap.covers,kernelMapped,
    h1,h2,h3,h5,h6,htextSize,hvirt,hdataSize]
  omega

theorem Image.kmap_covers (im : Image) (x : Word) : (∃ k ∈ kmap im.data, Kmap.covers k x) ↔ kernelMapped x :=
  Vm.kmap_covers im.text (Nat.lt_of_le_of_lt im.data_le im.lo_lt) x

theorem mapRanges_entries (hks : ∀ k ∈ ks, k.Upper) (h : mapRanges ks pd s = .ok (true,pd') s') :
    (∀ x, (entry pd' x).p = true ↔ (entry pd x).p = true ∨ ∃ k ∈ ks, Kmap.covers k x) ∧
    (∀ x, (entry pd' x).u = true → (entry pd x).u = true) ∧
    ∀ d, (pd'.pde d).isSome ↔ (pd.pde d).isSome ∨ ∃ k ∈ ks, ∃ x, Kmap.covers k x ∧ PDX x = d := by
  induction ks generalizing pd s with
  | nil =>
    cases h
    exact ⟨by simp,fun _ hx => hx,by simp⟩
  | cons k ks ih =>
    obtain ⟨⟨done,pd₁⟩,s₁,h1,h2⟩ := bind_eq_ok.mp h
    have hk := hks k List.mem_cons_self
    dsimp only at h2
    cases done with
    | false => cases h2
    | true =>
      rw [mappages_eq hk.size hk.limit,PGROUNDDOWN_of_aligned hk.pages] at h1
      have hsize := hk.size
      have hlimit := hk.limit
      have hpages := hk.pages
      have hend : k.virt.toNat+4096*((k.virt.toNat+k.size.toNat-1)/4096-k.virt.toNat/4096+1) ≤ 2^32 := by omega
      have hcover : ∀ x, InPages k.virt ((k.virt.toNat+k.size.toNat-1)/4096-k.virt.toNat/4096+1) x ↔ Kmap.covers k x := by
        intro x
        rw [inPages_iff hpages hend,Kmap.covers]
        omega
      obtain ⟨hin,hout,hdir⟩ := mapLoop_entries hend h1
      have hin' : ∀ x, Kmap.covers k x → (entry pd₁ x).p = true ∧ (entry pd₁ x).u = false := by
        intro x hx
        obtain ⟨j,hj,hpage⟩ := (hcover x).mpr hx
        rw [entry_page hpage,hin j hj]
        exact ⟨rfl,rfl⟩
      have hout' : ∀ x, ¬ Kmap.covers k x → entry pd₁ x = entry pd x :=
        fun x hx => hout x fun hin => hx ((hcover x).mp hin)
      obtain ⟨hpres,huser,htables⟩ := ih (fun k hk => hks k (List.mem_cons_of_mem _ hk)) h2
      refine ⟨fun x => ?_,fun x hx => ?_,fun d => ?_⟩
      · rw [hpres]
        by_cases hx : Kmap.covers k x
        · simp [hx,(hin' x hx).1]
        · simp [hx,hout' x hx]
      · have hx₁ := huser x hx
        by_cases hc : Kmap.covers k x
        · rw [(hin' x hc).2] at hx₁
          cases hx₁
        · rwa [hout' x hc] at hx₁
      · rw [htables,hdir,or_assoc]
        refine or_congr_right ⟨?_,?_⟩
        · rintro (⟨j,hj,rfl⟩ | ⟨l,hl,hx⟩)
          · exact ⟨k,List.mem_cons_self,_,(hcover _).mp ⟨j,hj,rfl⟩,rfl⟩
          · exact ⟨l,List.mem_cons_of_mem _ hl,hx⟩
        · rintro ⟨l,hl,x,hx,rfl⟩
          rcases List.mem_cons.mp hl with rfl | hl
          · obtain ⟨j,hj,hpage⟩ := (hcover x).mpr hx
            exact .inl ⟨j,hj,(page_indices hpage).1⟩
          · exact .inr ⟨l,hl,x,hx,rfl⟩

structure KernelHalf (pd : PageDir) : Prop where
  tables : ∀ x : Word, 2^31 ≤ x.toNat → ((pd.pde (PDX x)).isSome ↔ kernelMapped x)
  present : ∀ x : Word, 2^31 ≤ x.toNat → ((entry pd x).p = true ↔ kernelMapped x)
  user : ∀ x : Word, 2^31 ≤ x.toNat → (entry pd x).u = false

theorem mapRanges_conserves (hks : ∀ k ∈ ks, k.Upper) (pd : PageDir) (s : Ctx) :
    ∃ b pd' s', mapRanges ks pd s = .ok (b,pd') s' ∧ Conserves ∅ [] pd s [] pd' s' := by
  induction ks generalizing pd s with
  | nil => exact ⟨true,pd,s,rfl,.refl _ _ _ _⟩
  | cons k ks ih =>
    have hk := hks k List.mem_cons_self
    have hend : k.virt.toNat+4096*((k.virt.toNat+k.size.toNat-1)/4096-k.virt.toNat/4096+1) ≤ 2^32 := by
      have := hk.size
      have := hk.limit
      have := hk.pages
      omega
    obtain ⟨b,pd₁,s₁,h1,hstep⟩ := mapLoop_upper hk.virt hend [] pd k.phys k.w false s
    have hrun : mappages pd k.virt k.size k.phys k.w false s = .ok (b,pd₁) s₁ := by
      rw [mappages_eq hk.size hk.limit,PGROUNDDOWN_of_aligned hk.pages]
      exact h1
    rw [mapRanges,bind_of_ok hrun]
    cases b with
    | false => exact ⟨false,pd₁,s₁,rfl,hstep⟩
    | true =>
      obtain ⟨b,pd',s',h2,hrest⟩ := ih (fun k hk => hks k (List.mem_cons_of_mem _ hk)) pd₁ s₁
      exact ⟨b,pd',s',h2,hstep.trans hrest⟩

theorem kernelMapped_table {y : Word} (hy : PDX y = PDX x) (h : kernelMapped y) : kernelMapped x := by
  have hd := congrArg Fin.val hy
  rw [PDX_val,PDX_val] at hd
  unfold kernelMapped at *
  omega

/-- The kernel's half of a new address space is complete, and the user's half is empty. -/
theorem kernelHalf_mapRanges {im : Image} (h : mapRanges (kmap im.data) ⟨f,fun _ => none⟩ s = .ok (true,pd) s') :
    KernelHalf pd ∧ ∀ d, d.val < 512 → pd.pde d = none := by
  obtain ⟨hpres,huser,htables⟩ := mapRanges_entries im.kmap_upper.1 h
  have htable : ∀ x, (pd.pde (PDX x)).isSome ↔ kernelMapped x := by
    intro x
    rw [htables]
    constructor
    · rintro (hnone | ⟨k,hk,y,hy,hd⟩)
      · cases hnone
      · exact kernelMapped_table hd ((Image.kmap_covers im y).mp ⟨k,hk,hy⟩)
    · intro hx
      obtain ⟨k,hk,hc⟩ := (Image.kmap_covers im x).mpr hx
      exact .inr ⟨k,hk,x,hc,rfl⟩
  refine ⟨⟨fun x _ => htable x,fun x _ => ?_,fun x _ => ?_⟩,fun d hd => ?_⟩
  · rw [hpres,Image.kmap_covers]
    exact or_iff_right fun hp => Bool.false_ne_true hp
  · exact Bool.eq_false_iff.mpr fun hu => Bool.false_ne_true (huser x hu)
  · rw [← Option.not_isSome_iff_eq_none,htables]
    rintro (hnone | ⟨k,hk,x,hx,rfl⟩)
    · cases hnone
    · have := (im.kmap_upper.1 k hk).virt
      have := hx.1
      rw [PDX_val] at hd
      omega

theorem setupkvm_half (h : setupkvm s = .ok (some pd) s') : KernelHalf pd ∧ ∀ d, d.val < 512 → pd.pde d = none := by
  obtain ⟨r,s₁,h1,h2⟩ := bind_eq_ok.mp h
  cases r with
  | none => cases h2
  | some f =>
    dsimp only at h2
    rw [get_bind_apply] at h2
    obtain ⟨⟨done,pd'⟩,s₂,h3,h4⟩ := bind_eq_ok.mp h2
    cases done with
    | false =>
      obtain ⟨_,_,-,h5⟩ := bind_eq_ok.mp h4
      cases h5
    | true =>
      cases h4
      exact kernelHalf_mapRanges h3

/-- `setupkvm` makes the kernel's half of an address space, or it gives everything back. -/
theorem setupkvm_cases (howns : ∀ f ∈ s.mem.freelist, s.mem.owns f) :
    (∃ pd s', setupkvm s = .ok (some pd) s' ∧ Building s s' [] pd ∧ KernelHalf pd ∧ ∀ d, d.val < 512 → pd.pde d = none) ∨
    ∃ s', setupkvm s = .ok none s' ∧ Returned s s' := by
  cases hfree : s.mem.freelist with
  | nil =>
    refine .inr ⟨s,?_,.refl s⟩
    unfold setupkvm
    rw [bind_apply,kalloc_apply,hfree]
    rfl
  | cons f fs =>
    obtain ⟨b,pd,s₁,hranges,hstep⟩ := mapRanges_conserves s.mem.image.kmap_upper.1 ⟨f,fun _ => none⟩
      { s with mem := { s.mem with freelist := fs } }
    have hbuild := (Building.fresh hfree).step_empty hstep
    have hrun : setupkvm s = (if b then pure (some pd) else do
        Kernel.freevm pd
        pure none : KernelM (Option PageDir)) s₁ := by
      unfold setupkvm
      rw [bind_apply,kalloc_apply,hfree]
      dsimp only
      rw [bind_apply,get_apply]
      dsimp only
      rw [bind_of_ok hranges]
    cases b with
    | true => exact .inl ⟨pd,s₁,hrun,hbuild,kernelHalf_mapRanges hranges⟩
    | false =>
      obtain ⟨s',hfreevm,hret⟩ := hbuild.freevm howns
      refine .inr ⟨s',hrun.trans ?_,hret⟩
      change (Kernel.freevm pd >>= fun _ => pure none) s₁ = _
      rw [bind_of_ok hfreevm]
      rfl

end KernelPart
end Xv6.Vm
