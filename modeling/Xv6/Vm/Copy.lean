import Xv6.Vm.Building
import Xv6.Kernel.ForkReport

/-! # Copying an address space

`copyuvm` gives the child a page of its own for every page of the parent below its size.
When memory runs out on the way, everything the call has taken is given back.
-/
namespace Xv6.Vm
open Wmap Kernel Program Function
variable {s₀ s s' : Ctx} {pd d d' : PageDir} {sz i x : Word} {j fuel : ℕ} {f : Frame}

structure SoundFree (s : Ctx) (used : List Frame) : Prop where
  nodup : s.mem.freelist.Nodup
  owns : ∀ f ∈ s.mem.freelist, s.mem.owns f
  apart : ∀ f ∈ used, f ∉ s.mem.freelist

theorem entry_owned (hlow : x.toNat < 2^31) (hp : (entry pd x).p = true) : (entry pd x).frame ∈ owned pd := by
  refine mem_owned.mpr ⟨pageOf x hlow,?_⟩
  rw [holds_pageOf,frameOf_walkpgdir,if_pos hp]

theorem Building.nodup {hand : List Frame} (h : Building s₀ s hand pd) (hnodup : s₀.mem.freelist.Nodup) :
    (hand ++ (owned pd ++ s.mem.freelist)).Nodup := h.frames.nodup_iff.mp hnodup

theorem KernelHalf.keep {pd' : PageDir} (h : KernelHalf pd) (hentry : ∀ x : Word, 2^31 ≤ x.toNat → entry pd' x = entry pd x)
    (htable : ∀ x : Word, 2^31 ≤ x.toNat → ((pd'.pde (PDX x)).isSome ↔ (pd.pde (PDX x)).isSome)) : KernelHalf pd' where
  tables x hx := (htable x hx).trans (h.tables x hx)
  present x hx := by rw [hentry x hx]; exact h.present x hx
  user x hx := by rw [hentry x hx]; exact h.user x hx

theorem PageMapped.kernelHalf {hand : List Frame} {a : Word} {w u : Bool} {pd' : PageDir}
    (h : PageMapped hand a f w u pd s pd' s') (hlow : a.toNat < 2^31) (hkernel : KernelHalf pd) : KernelHalf pd' := by
  refine hkernel.keep (fun x hx => ?_) fun x hx => ?_
  · rw [h.entries,if_neg (by omega)]
  · rw [h.table]
    refine or_iff_left fun hd => ?_
    have hd := congrArg Fin.val hd
    rw [PDX_val,PDX_val] at hd
    omega

theorem entry_of_walkpgdir {pte : Pte} (h : walkpgdir pd x = some pte) : entry pd x = pte := by
  rw [entry,h]
  rfl

section Loop

/-- The directory of the child when `j` pages have been copied: it has these pages, with the flags of the
parent's, and no others below the kernel's half. -/
structure ChildDir (pd d : PageDir) (j : ℕ) : Prop where
  kernel : KernelHalf d
  parent : ∀ x : Word, x.toNat/4096 < j → (entry pd x).p = true
  present : ∀ x : Word, x.toNat/4096 < j → (entry d x).p = true
  flags : ∀ x : Word, x.toNat/4096 < j → (entry d x).w = (entry pd x).w ∧ (entry d x).u = (entry pd x).u
  rest : ∀ x : Word, x.toNat < 2^31 → j ≤ x.toNat/4096 → (entry d x).p = false
  tables : ∀ x : Word, x.toNat < 2^31 → ((d.pde (PDX x)).isSome ↔ x.toNat/2^22*2^22 < 4096*j)

theorem childDir_zero (pd : PageDir) (hkernel : KernelHalf d) (hlow : ∀ k, k.val < 512 → d.pde k = none) : ChildDir pd d 0 := by
  have hnone : ∀ x : Word, x.toNat < 2^31 → d.pde (PDX x) = none := fun x hx => hlow _ (by rw [PDX_val]; omega)
  refine ⟨hkernel,by simp,by simp,by simp,fun x hx _ => ?_,fun x hx => ?_⟩
  · rw [entry,walkpgdir,hnone x hx]
    rfl
  · rw [hnone x hx]
    simp

theorem ChildDir.next (h : ChildDir pd d j) (hi : i.toNat = 4096*j) (hj : j < 2^19) (hp : (entry pd i).p = true)
    (hmap : PageMapped [] i f (entry pd i).w (entry pd i).u d s d' s') : ChildDir pd d' (j+1) := by
  have hentry : ∀ x : Word, x.toNat/4096 < j+1 → x.toNat/4096 = i.toNat/4096 ∨ x.toNat/4096 < j := by
    intro x hx
    omega
  have hold : ∀ x : Word, x.toNat/4096 < j → entry d' x = entry d x := by
    intro x hx
    rw [hmap.entries,if_neg (by omega)]
  refine ⟨hmap.kernelHalf (by omega) h.kernel,fun x hx => ?_,fun x hx => ?_,fun x hx => ?_,fun x hx hge => ?_,fun x hx => ?_⟩
  · rcases hentry x hx with hx | hx
    · rw [entry_page hx]
      exact hp
    · exact h.parent x hx
  · rcases hentry x hx with hx | hx
    · rw [hmap.entries,if_pos hx]
    · rw [hold x hx]
      exact h.present x hx
  · rcases hentry x hx with hx | hx
    · rw [hmap.entries,if_pos hx,entry_page hx]
      exact ⟨rfl,rfl⟩
    · rw [hold x hx]
      exact h.flags x hx
  · rw [hmap.entries,if_neg (by omega)]
    exact h.rest x hx (by omega)
  · rw [hmap.table,h.tables x hx,Fin.ext_iff,PDX_val,PDX_val,hi]
    omega

/-- The copy of the first `j` pages: the frames of the child's directory are accounted for, and its pages
have the contents of the parent's. -/
structure Copied (s₀ s : Ctx) (pd d : PageDir) (j : ℕ) : Prop where
  building : Building s₀ s [] d
  dir : ChildDir pd d j
  contents : ∀ x : Word, x.toNat/4096 < j → s.mem.page (entry d x).frame = s₀.mem.page (entry pd x).frame

theorem Copied.next {fs : List Frame} (h : Copied s₀ s pd d j) (hsound : SoundFree s₀ (owned pd)) (hi : i.toNat = 4096*j)
    (hj : j < 2^19) (hp : (entry pd i).p = true) (hfree : s.mem.freelist = f :: fs)
    (hmap : PageMapped [] i f (entry pd i).w (entry pd i).u d { s with mem := { s.mem with
      page := Function.update s.mem.page f (s.mem.page (entry pd i).frame)
      freelist := fs } } d' s') : Copied s₀ s' pd d' (j+1) := by
  have hlow : i.toNat < 2^31 := by omega
  have htake := h.building.step_empty (conserves_kalloc hfree)
  have hfill := htake.step (conserves_setPage (B := {f}) rfl (s.mem.page (entry pd i).frame)) fun g hg =>
    (show g = f from hg) ▸ htake.mem_hand List.mem_cons_self
  have hpage : ∀ g, g ≠ f → s'.mem.page g = s.mem.page g := fun g hg =>
    (hmap.conserves.pages g id).trans (update_of_ne hg _ _)
  have hnew : s'.mem.page f = s₀.mem.page (entry pd i).frame := by
    refine (hmap.conserves.pages f id).trans ((update_self _ _ _).trans (h.building.pages _ ?_))
    exact hsound.apart _ (entry_owned hlow hp)
  have hother : ∀ x : Word, x.toNat/4096 < j → (entry d x).frame ≠ f := by
    intro x hx he
    have hmem : f ∈ owned d := he ▸ entry_owned (by omega) (h.dir.present x hx)
    have hnodup := htake.nodup hsound.nodup
    exact (List.nodup_cons.mp hnodup).1 (List.mem_append_right _ (List.mem_append_left _ hmem))
  refine ⟨hfill.step_empty hmap.conserves,h.dir.next hi hj hp hmap,fun x hx => ?_⟩
  by_cases hx' : x.toNat/4096 = i.toNat/4096
  · rw [hmap.entries,if_pos hx',entry_page hx']
    exact hnew
  · rw [hmap.entries,if_neg hx',hpage _ (hother x (by omega))]
    exact h.contents x (by omega)

theorem giveUp {pd : PageDir} (hbuild : Building s₀ s [f] pd) (howns : ∀ f ∈ s₀.mem.freelist, s₀.mem.owns f) :
    ∃ s', (do
      kfree f
      Kernel.freevm pd
      pure none : KernelM (Option PageDir)) s = .ok none s' ∧ Returned s₀ s' := by
  have hf := hbuild.mem_hand List.mem_cons_self
  have hfree : Building s₀ { s with mem := s.mem.freeing [f] } [] pd :=
    hbuild.step conserves_kfree fun g hg => (show g = f from hg) ▸ hf
  obtain ⟨s',hrun,hret⟩ := hfree.freevm howns
  refine ⟨s',?_,hret⟩
  rw [bind_of_ok (kfree_owns (hbuild.owns howns hf)),bind_of_ok hrun]
  rfl

theorem page_after (hi : i.toNat = 4096*j) (hj : j < 2^19) : (i+4096).toNat = 4096*(j+1) := by
  rw [BitVec.toNat_add,page_toNat]
  omega

/-- The loop copies the pages up to the size, or it gives everything back. The pages of the kernel's
half are never copied: the first one of them is present in the child. -/
theorem copyLoop_cases (hsound : SoundFree s₀ (owned pd)) (hpages : ∀ x : Word, PGROUNDDOWN x < sz → pd.present x)
    (hi : i.toNat = 4096*j) (hj : j ≤ 2^19) (hjsz : 4096*j < sz.toNat+4096) (hfuel : 2^19 < fuel+j)
    (h : Copied s₀ s pd d j) :
    (∃ d' s', copyLoop pd sz fuel d i s = .ok (some d') s' ∧ Copied s₀ s' pd d' ((sz.toNat+4095)/4096) ∧
      sz.toNat ≤ 2^31) ∨
    ∃ s', copyLoop pd sz fuel d i s = .ok none s' ∧ Returned s₀ s' := by
  induction fuel generalizing j i d s with
  | zero => omega
  | succ fuel ih =>
    by_cases hlt : i < sz
    · have hlt' : i.toNat < sz.toNat := BitVec.lt_def.mp hlt
      have halign : i.toNat % 4096 = 0 := by omega
      have hp : (entry pd i).p = true := by
        refine present_iff_entry.mp (hpages i ?_)
        rw [PGROUNDDOWN_of_aligned halign]
        exact hlt
      have hw := walkpgdir_of_table (table_of_present hp)
      cases hfree : s.mem.freelist with
      | nil =>
        obtain ⟨s',hrun,hret⟩ := h.building.freevm hsound.owns
        refine .inr ⟨s',?_,hret⟩
        unfold copyLoop
        rw [if_pos hlt,hw]
        dsimp only
        rw [if_pos hp,bind_apply,kalloc_apply,hfree]
        dsimp only
        rw [bind_of_ok hrun]
        rfl
      | cons f fs =>
        rw [copyLoop_round hlt hw hp hfree]
        have htake := h.building.step_empty (conserves_kalloc hfree)
        have hfill := htake.step (conserves_setPage (B := {f}) rfl (s.mem.page (entry pd i).frame)) fun g hg =>
          (show g = f from hg) ▸ htake.mem_hand List.mem_cons_self
        by_cases hlow : j < 2^19
        · rcases mappages_cases halign (by omega) [] d f (entry pd i).w (entry pd i).u { s with mem := { s.mem with
            page := update s.mem.page f (s.mem.page (entry pd i).frame)
            freelist := fs } } with ⟨d',s',hrun,hmap⟩ | hrun
          · rw [bind_of_ok hrun]
            exact ih (page_after hi hlow) (by omega) (by omega) (by omega) (h.next hsound hi hlow hp hfree hmap)
          · obtain ⟨s'',hgive,hret⟩ := giveUp hfill hsound.owns
            rw [bind_of_ok hrun]
            exact .inr ⟨s'',hgive,hret⟩
        · have hmapped : (entry d i).p = true := (h.dir.kernel.present i (by omega)).mpr ⟨by omega,.inl (by omega)⟩
          obtain ⟨s'',hgive,hret⟩ := giveUp hfill hsound.owns
          rw [bind_of_ok (mappages_present halign hmapped)]
          exact .inr ⟨s'',hgive,hret⟩
    · have hle : sz.toNat ≤ i.toNat := BitVec.le_def.mp (BitVec.not_lt.mp hlt)
      have hend : (sz.toNat+4095)/4096 = j := by omega
      unfold copyLoop
      rw [if_neg hlt,hend]
      exact .inl ⟨d,s,rfl,h,by omega⟩

theorem copyLoop_needs (hlt : i < sz) (hrun : copyLoop pd sz (fuel+1) d i s = .ok (some d') s') :
    (entry pd i).p = true ∧ ∃ f fs, s.mem.freelist = f :: fs := by
  unfold copyLoop at hrun
  rw [if_pos hlt] at hrun
  cases hw : walkpgdir pd i with
  | none =>
    rw [hw] at hrun
    cases hrun
  | some pte =>
    rw [hw] at hrun
    dsimp only at hrun
    split at hrun
    · rename_i hp
      refine ⟨entry_of_walkpgdir hw ▸ hp,?_⟩
      cases hfree : s.mem.freelist with
      | nil =>
        rw [bind_apply,kalloc_apply,hfree] at hrun
        obtain ⟨_,_,-,h⟩ := bind_eq_ok.mp hrun
        cases h
      | cons f fs => exact ⟨f,fs,rfl⟩
    · cases hrun

/-- Whatever the frames are, a copy that succeeds has the pages below the size, which is in the user's half. -/
theorem copyLoop_dir (hi : i.toNat = 4096*j) (hj : j ≤ 2^19) (hjsz : 4096*j < sz.toNat+4096) (h : ChildDir pd d j)
    (hrun : copyLoop pd sz fuel d i s = .ok (some d') s') : ChildDir pd d' ((sz.toNat+4095)/4096) ∧ sz.toNat ≤ 2^31 := by
  induction fuel generalizing j i d s with
  | zero => cases hrun
  | succ fuel ih =>
    by_cases hlt : i < sz
    · have hlt' : i.toNat < sz.toNat := BitVec.lt_def.mp hlt
      have halign : i.toNat % 4096 = 0 := by omega
      obtain ⟨hp,f,fs,hfree⟩ := copyLoop_needs hlt hrun
      rw [copyLoop_round hlt (walkpgdir_of_table (table_of_present hp)) hp hfree] at hrun
      have hgiveUp : ∀ {d₁ s₃}, (do
          kfree f
          Kernel.freevm d₁
          pure none : KernelM (Option PageDir)) s₃ ≠ .ok (some d') s' := by
        intro d₁ s₃ h1
        obtain ⟨_,_,-,h2⟩ := bind_eq_ok.mp h1
        obtain ⟨_,_,-,h3⟩ := bind_eq_ok.mp h2
        cases h3
      by_cases hlow : j < 2^19
      · rcases mappages_cases halign (by omega) [] d f (entry pd i).w (entry pd i).u { s with mem := { s.mem with
          page := update s.mem.page f (s.mem.page (entry pd i).frame)
          freelist := fs } } with ⟨d₁,s₁,hmap,hmapped⟩ | hmap
        · rw [bind_of_ok hmap] at hrun
          exact ih (page_after hi hlow) (by omega) (by omega) (h.next hi hlow hp hmapped) hrun
        · rw [bind_of_ok hmap] at hrun
          exact absurd hrun hgiveUp
      · have hmapped : (entry d i).p = true := (h.kernel.present i (by omega)).mpr ⟨by omega,.inl (by omega)⟩
        rw [bind_of_ok (mappages_present halign hmapped)] at hrun
        exact absurd hrun hgiveUp
    · have hle : sz.toNat ≤ i.toNat := BitVec.le_def.mp (BitVec.not_lt.mp hlt)
      have hend : (sz.toNat+4095)/4096 = j := by omega
      unfold copyLoop at hrun
      rw [if_neg hlt] at hrun
      cases hrun
      rw [hend]
      exact ⟨h,by omega⟩

end Loop

section Main

theorem copyuvm_dir (hrun : copyuvm pd sz s = .ok (some d) s') : ChildDir pd d ((sz.toNat+4095)/4096) ∧ sz.toNat ≤ 2^31 := by
  obtain ⟨r,s₁,h1,h2⟩ := bind_eq_ok.mp hrun
  cases r with
  | none => cases h2
  | some d₀ =>
    obtain ⟨hkernel,hlow⟩ := setupkvm_half h1
    exact copyLoop_dir (i := 0) (j := 0) rfl (by omega) (by omega) (childDir_zero pd hkernel hlow) h2

structure ChildSpace (s s' : Ctx) (pd d : PageDir) (sz : Word) : Prop where
  copied : ∀ x pte, PGROUNDDOWN x < sz → walkpgdir pd x = some pte → ∃ f, walkpgdir d x = some { pte with frame := f } ∧
    s'.mem.page f = s.mem.page pte.frame ∧ f ∉ owned pd ∧
    ∀ y pte', y.toNat < 2^31 → walkpgdir d y = some pte' → pte'.p = true → pte'.frame = f → PGROUNDDOWN y = PGROUNDDOWN x
  other : ∀ x : Word, x.toNat < 2^31 → ¬ PGROUNDDOWN x < sz → ¬ d.present x
  frames : s.mem.freelist.Perm (owned d ++ s'.mem.freelist)
  pages : ∀ f, f ∉ s.mem.freelist → s'.mem.page f = s.mem.page f
  rest : MemOnly s s'

theorem entry_inj {y : Word} (hnodup : (owned pd).Nodup) (hx : x.toNat < 2^31) (hy : y.toNat < 2^31)
    (hpx : (entry pd x).p = true) (hpy : (entry pd y).p = true) (heq : (entry pd y).frame = (entry pd x).frame) :
    y.toNat/4096 = x.toNat/4096 := by
  have hplace : pageOf y hy = pageOf x hx := by
    refine Inventory.items_inj hnodup (mem_places _) (mem_places _) (b := (entry pd x).frame) ?_ ?_
    · rw [holds_pageOf,frameOf_walkpgdir,if_pos hpy,heq]
    · rw [holds_pageOf,frameOf_walkpgdir,if_pos hpx]
  exact congrArg Fin.val (Place.page.inj hplace)

theorem Copied.childSpace (h : Copied s₀ s pd d ((sz.toNat+4095)/4096)) (hsound : SoundFree s₀ (owned pd))
    (hsz : sz.toNat ≤ 2^31) (hpages : ∀ x : Word, PGROUNDDOWN x < sz → pd.present x) : ChildSpace s₀ s pd d sz := by
  have hdown := PGROUNDDOWN_toNat
  refine ⟨fun x pte hx hw => ?_,fun x hlow hx hpres => ?_,h.building.frames,h.building.pages,h.building.mem⟩
  · rw [BitVec.lt_def,hdown] at hx
    have hj : x.toNat/4096 < (sz.toNat+4095)/4096 := by omega
    have hlow : x.toNat < 2^31 := by omega
    have hpte := entry_of_walkpgdir hw
    have hp : pte.p = true := by
      rw [← hpte]
      exact present_iff_entry.mp (hpages x (by rw [BitVec.lt_def,hdown]; exact hx))
    have hpres := h.dir.present x hj
    have hmem := entry_owned hlow hpres
    refine ⟨(entry d x).frame,?_,?_,fun hin => ?_,fun y pte' hy hw' hp' heq => ?_⟩
    · rw [walkpgdir_of_table (table_of_present hpres)]
      obtain ⟨hw,hu⟩ := h.dir.flags x hj
      rw [hpte] at hw hu
      cases hd : entry d x
      cases pte
      rw [hd] at hpres hw hu
      simp_all
    · rw [h.contents x hj,hpte]
    · exact hsound.apart _ hin (h.building.mem_owned hmem)
    · have hnodup := (List.nodup_append.mp (List.nodup_append.mp (h.building.nodup hsound.nodup)).2.1).1
      have hpte' := entry_of_walkpgdir hw'
      apply BitVec.eq_of_toNat_eq
      rw [hdown,hdown,entry_inj hnodup hlow hy hpres (by rw [hpte']; exact hp') (by rw [hpte']; exact heq)]
  · rw [BitVec.lt_def,hdown] at hx
    have hnone := h.dir.rest x hlow (by omega)
    rw [present_iff_entry.mp hpres] at hnone
    cases hnone

theorem copyuvm_cases (hsound : SoundFree s (owned pd)) (hpages : ∀ x : Word, PGROUNDDOWN x < sz → pd.present x) :
    (∃ d s', copyuvm pd sz s = .ok (some d) s' ∧ Copied s s' pd d ((sz.toNat+4095)/4096) ∧ sz.toNat ≤ 2^31) ∨
    ∃ s', copyuvm pd sz s = .ok none s' ∧ Returned s s' := by
  unfold copyuvm
  rcases setupkvm_cases hsound.owns with ⟨d,s₁,hrun,hbuild,hkernel,hlow⟩ | ⟨s',hrun,hret⟩
  · rw [bind_of_ok hrun]
    have hfuel : 2^19 < allPages+0 := by
      unfold allPages
      omega
    exact copyLoop_cases hsound hpages (by rfl : (0 : Word).toNat = 4096*0) (by omega) (by omega) hfuel
      ⟨hbuild,childDir_zero pd hkernel hlow,by simp⟩
  · rw [bind_of_ok hrun]
    exact .inr ⟨s',rfl,hret⟩

/-- `copyuvm` copies an address space or leaves no trace. -/
theorem copyuvm_copies (hsound : SoundFree s (owned pd)) (hpages : ∀ x : Word, PGROUNDDOWN x < sz → pd.present x) :
    (∃ d s', copyuvm pd sz s = .ok (some d) s' ∧ ChildSpace s s' pd d sz) ∨
    ∃ s', copyuvm pd sz s = .ok none s' ∧ Returned s s' := by
  rcases copyuvm_cases hsound hpages with ⟨d,s',hrun,hdone,hsz⟩ | hret
  · exact .inl ⟨d,s',hrun,hdone.childSpace hsound hsz hpages⟩
  · exact .inr hret

end Main

section Instances

theorem firstCtx_holds {p : Place} (hp : holds firstCtx.cur.pgdir p = some f) :
    p = .directory ∧ f = 0x300 ∨ p = .table 0 ∧ f = 0x301 ∨ p = .page 0 ∧ f = 0x302 := by
  cases p with
  | directory => exact .inl ⟨rfl,(Option.some.inj hp).symm⟩
  | table d =>
    change (if d = 0 then some _ else none : Option (Frame × PageTable)).map Prod.fst = some f at hp
    split at hp
    · rename_i hd
      exact .inr (.inl ⟨by rw [hd],(Option.some.inj hp).symm⟩)
    · cases hp
  | page k =>
    obtain ⟨hk,hf⟩ := firstCtx_frame hp
    rw [pageAt_page] at hk
    exact .inr (.inr ⟨congrArg Place.page (Fin.ext (by rw [Fin.val_zero]; omega)),hf⟩)

theorem firstCtx_owned (hf : f ∈ owned firstCtx.cur.pgdir) : f = 0x300 ∨ f = 0x301 ∨ f = 0x302 := by
  obtain ⟨p,hp⟩ := mem_owned.mp hf
  exact (firstCtx_holds hp).imp (·.2) (·.imp (·.2) (·.2))

theorem soundFree_range {n : ℕ} (hn : n ≤ 2000) : SoundFree { firstCtx with mem := { firstCtx.mem with
    freelist := List.range' 0x400 n } } (owned firstCtx.cur.pgdir) := by
  refine ⟨List.nodup_range',fun f hf => ?_,fun f hf hin => ?_⟩
  · obtain ⟨hlo,hhi⟩ := List.mem_range'_1.mp hf
    exact ⟨Nat.le_trans (by decide : firstCtx.mem.image.lo ≤ 0x400) hlo,
      Nat.lt_of_lt_of_le hhi (Nat.le_trans (Nat.add_le_add_left hn _) (by decide))⟩
  · have hlo := (List.mem_range'_1.mp hin).1
    rcases firstCtx_owned hf with rfl | rfl | rfl <;> exact absurd hlo (by decide)

theorem soundFree_firstCtx : SoundFree firstCtx (owned firstCtx.cur.pgdir) := soundFree_range (n := 64) (by omega)

theorem soundFree_roomyCtx : SoundFree roomyCtx (owned roomyCtx.cur.pgdir) := soundFree_range le_rfl

theorem firstCtx_present (x : Word) (hx : PGROUNDDOWN x < firstCtx.cur.sz) : firstCtx.cur.pgdir.present x := by
  have hx := BitVec.lt_def.mp hx
  rw [PGROUNDDOWN_toNat] at hx
  have hsz : firstCtx.cur.sz.toNat = 4096 := rfl
  have hzero : (0 : Word).toNat = 0 := rfl
  rw [present_iff_entry,entry_page (a := 0) (by omega)]
  rfl

/-- A process with one page and memory to spare is copied. -/
theorem copyuvm_roomyCtx : SoundFree roomyCtx (owned roomyCtx.cur.pgdir) ∧
    ∃ d s', copyuvm roomyCtx.cur.pgdir roomyCtx.cur.sz roomyCtx = .ok (some d) s' ∧
      ChildSpace roomyCtx s' roomyCtx.cur.pgdir d roomyCtx.cur.sz := by
  have hsz : roomyCtx.cur.sz.toNat = 4096 := rfl
  have hfree : roomyCtx.mem.freelist.length = 2000 := List.length_range'
  obtain ⟨d,s',hrun,-⟩ := @copyuvm_succeeds roomyCtx.cur.sz roomyCtx.cur.pgdir roomyCtx 0
    (by omega) firstCtx_pages (by rw [hsz,hfree]; omega)
  rcases @copyuvm_copies _ _ roomyCtx.cur.sz soundFree_roomyCtx firstCtx_present with ⟨d',s'',hrun',hchild⟩ | ⟨s'',hrun',-⟩
  · rw [hrun] at hrun'
    cases hrun'
    exact ⟨soundFree_roomyCtx,d,s',hrun,hchild⟩
  · rw [hrun] at hrun'
    cases hrun'

end Instances
end Xv6.Vm
