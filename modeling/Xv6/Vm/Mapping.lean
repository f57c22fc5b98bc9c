import Xv6.Vm.Teardown

/-! # Where the frames go

The loops that map pages move frames between the free list, the hands of the caller and an
address space. No frame is lost or made on the way, whatever the result, and the page tables
of the address space stay.
-/
namespace Xv6.Vm
open Wmap Kernel Program Inventory Function
variable {a x oldsz newsz : Word} {pd pd' pd'' : PageDir} {s s' s'' : Ctx} {f : Frame} {w u : Bool} {n : ℕ}
  {hand hand' hand'' : List Frame} {B B' : Set Frame}

section Entries

def entry (pd : PageDir) (x : Word) : Pte := (walkpgdir pd x).getD .zero

theorem frameOf_walkpgdir (pd : PageDir) (x : Word) :
    frameOf (walkpgdir pd x) = if (entry pd x).p then some (entry pd x).frame else none := by
  unfold entry
  cases walkpgdir pd x <;> rfl

theorem frameOf_eq_none : frameOf (walkpgdir pd x) = none ↔ (entry pd x).p = false := by
  rw [frameOf_walkpgdir]
  cases (entry pd x).p <;> simp

theorem present_iff_entry : pd.present x ↔ (entry pd x).p = true := by
  unfold PageDir.present entry
  cases walkpgdir pd x with
  | none => simp [Pte.zero]
  | some pte => simp

theorem entry_page (h : x.toNat/4096 = a.toNat/4096) (pd : PageDir) : entry pd x = entry pd a := by
  rw [entry,walkpgdir_page h,entry]

theorem entry_addTable (hnone : pd.pde (PDX a) = none) (f : Frame) : entry (pd.addTable a f) = entry pd := by
  funext x
  rw [entry,walkpgdir_addTable,entry]
  split
  · rename_i hd
    rw [walkpgdir,hd,hnone]
    rfl
  · rfl

theorem entry_setPte (htable : (pd.pde (PDX a)).isSome) (pte : Pte) (x : Word) :
    entry (pd.setPte a pte) x = if x.toNat/4096 = a.toNat/4096 then pte else entry pd x := by
  rw [entry,walkpgdir_setPte]
  by_cases hpage : x.toNat/4096 = a.toNat/4096
  · obtain ⟨hd,ht⟩ := page_indices hpage
    rw [if_pos ⟨hd,ht,htable⟩,if_pos hpage]
    rfl
  · rw [if_neg fun h => hpage (same_page h.1 h.2.1),if_neg hpage]
    rfl

theorem walkpgdir_of_table (htable : (pd.pde (PDX x)).isSome) : walkpgdir pd x = some (entry pd x) := by
  obtain ⟨t,ht⟩ := Option.isSome_iff_exists.mp htable
  rw [entry,walkpgdir,ht]
  rfl

theorem table_of_present (hp : (entry pd x).p = true) : (pd.pde (PDX x)).isSome := by
  unfold entry walkpgdir at hp
  cases htable : pd.pde (PDX x) with
  | none =>
    rw [htable] at hp
    cases hp
  | some t => rfl

end Entries

section Conservation

/-- The frames in the hands of the caller, of the address space and of the free list stay the
same ones. The pages in `B` may have been written, and their frames may have been freed. -/
structure Conserves (B : Set Frame) (hand : List Frame) (pd : PageDir) (s : Ctx) (hand' : List Frame)
    (pd' : PageDir) (s' : Ctx) : Prop where
  mem : MemOnly s s'
  frames : (hand ++ (owned pd ++ s.mem.freelist)).Perm (hand' ++ (owned pd' ++ s'.mem.freelist))
  pages : ∀ f, f ∉ B → s'.mem.page f = s.mem.page f
  free : ∀ f ∈ s'.mem.freelist, f ∈ s.mem.freelist ∨ f ∈ B
  root : pd'.frame = pd.frame
  tables : ∀ d f, (pd.pde d).map Prod.fst = some f → (pd'.pde d).map Prod.fst = some f

theorem Conserves.refl (B : Set Frame) (hand : List Frame) (pd : PageDir) (s : Ctx) : Conserves B hand pd s hand pd s :=
  ⟨.refl s,.rfl,fun _ _ => rfl,fun _ hf => .inl hf,rfl,fun _ _ hd => hd⟩

theorem Conserves.trans (h : Conserves B hand pd s hand' pd' s') (h' : Conserves B hand' pd' s' hand'' pd'' s'') :
    Conserves B hand pd s hand'' pd'' s'' where
  mem := h.mem.trans h'.mem
  frames := h.frames.trans h'.frames
  pages f hf := (h'.pages f hf).trans (h.pages f hf)
  free f hf := (h'.free f hf).elim (h.free f) .inr
  root := h'.root.trans h.root
  tables d f hd := h'.tables d f (h.tables d f hd)

theorem Conserves.mono (h : Conserves B hand pd s hand' pd' s') (hB : B ⊆ B') : Conserves B' hand pd s hand' pd' s' :=
  { h with
    pages := fun f hf => h.pages f fun hin => hf (hB hin)
    free := fun f hf => (h.free f hf).imp_right fun hin => hB hin }

theorem conserves_kalloc {fs : List Frame} (hfree : s.mem.freelist = f :: fs) :
    Conserves ∅ hand pd s (f :: hand) pd { s with mem := { s.mem with freelist := fs } } where
  mem := ⟨rfl,rfl⟩
  frames := by
    rw [hfree]
    exact ((List.perm_middle).append_left hand).trans List.perm_middle
  pages _ _ := rfl
  free g hg := .inl (by rw [hfree]; exact List.mem_cons_of_mem _ hg)
  root := rfl
  tables _ _ hd := hd

theorem conserves_addTable (hnone : pd.pde (PDX a) = none) : Conserves ∅ (f :: hand) pd s hand (pd.addTable a f) s where
  mem := .refl s
  frames := by
    refine .trans ?_ (((owned_addTable hnone f).symm.append_right _).append_left hand)
    exact List.perm_middle.symm
  pages _ _ := rfl
  free _ hf := .inl hf
  root := rfl
  tables d g hd := by
    by_cases hk : d = PDX a
    · rw [hk,hnone] at hd
      cases hd
    · change (update pd.pde (PDX a) _ d).map Prod.fst = _
      rw [update_of_ne hk]
      exact hd

theorem conserves_map (hlow : a.toNat < 2^31) (htable : (pd.pde (PDX a)).isSome) (hfree : (entry pd a).p = false) :
    Conserves ∅ (f :: hand) pd s hand (pd.setPte a ⟨f,true,w,u⟩) s where
  mem := .refl s
  frames := by
    refine .trans ?_ (((owned_map hlow htable (frameOf_eq_none.mpr hfree) f w u).symm.append_right _).append_left hand)
    exact List.perm_middle.symm
  pages _ _ := rfl
  free _ hf := .inl hf
  root := frame_setPte _ _ _
  tables d g hd := by rw [tables_setPte]; exact hd

theorem conserves_upper (hhigh : 2^31 ≤ a.toNat) (pte : Pte) : Conserves ∅ hand pd s hand (pd.setPte a pte) s where
  mem := .refl s
  frames := by rw [owned_upper hhigh]
  pages _ _ := rfl
  free _ hf := .inl hf
  root := frame_setPte _ _ _
  tables d g hd := by rw [tables_setPte]; exact hd

theorem conserves_setPage (hf : f ∈ B) (pg : Page) : Conserves B hand pd s hand pd
    { s with mem := { s.mem with page := Function.update s.mem.page f pg } } where
  mem := ⟨rfl,rfl⟩
  frames := .rfl
  pages g hg := update_of_ne (fun he : g = f => hg (he ▸ hf)) _ _
  free _ hg := .inl hg
  root := rfl
  tables _ _ hd := hd

theorem conserves_kfree : Conserves {f} (f :: hand) pd s hand pd { s with mem := s.mem.freeing [f] } where
  mem := ⟨rfl,rfl⟩
  frames := by
    have hfree : ({ s with mem := s.mem.freeing [f] } : Ctx).mem.freelist = f :: s.mem.freelist := rfl
    rw [hfree]
    refine .trans ?_ (List.perm_middle.symm.append_left hand)
    exact List.perm_middle.symm
  pages g hg := page_freeing _ (by simpa using hg)
  free g hg := (List.mem_cons.mp hg).elim .inr .inl
  root := rfl
  tables _ _ hd := hd

theorem conserves_dropping (hend : a.toNat+4096*n ≤ 2^31) (hB : ∀ f ∈ framesFrom pd n a, f ∈ B) :
    Conserves B hand pd s hand (dropping pd n a) { s with mem := s.mem.freeing (framesFrom pd n a) } where
  mem := ⟨image_freeing _ _,rfl⟩
  frames := by
    refine .append_left hand (((owned_dropping pd hend).append_right _).trans ?_)
    refine .trans ?_ ((freelist_freeing s.mem (framesFrom pd n a)).symm.append_left _)
    rw [List.append_assoc,← List.append_assoc,← List.append_assoc]
    exact List.perm_append_comm.append_right _
  pages f hf := page_freeing _ fun hin => hf (hB f hin)
  free f hf := (List.mem_append.mp ((freelist_freeing s.mem _).mem_iff.mp hf)).elim (fun h => .inr (hB f h)) .inl
  root := frame_dropping _ _ _
  tables d f hd := by rw [tables_dropping]; exact hd

end Conservation

section Pages

structure Tabled (hand : List Frame) (a : Word) (pd : PageDir) (s : Ctx) (pd' : PageDir) (s' : Ctx) : Prop where
  conserves : Conserves ∅ hand pd s hand pd' s'
  entries : entry pd' = entry pd
  table : ∀ d, (pd'.pde d).isSome ↔ (pd.pde d).isSome ∨ d = PDX a

theorem walkpgdirAlloc_cases (hand : List Frame) (pd : PageDir) (a : Word) (s : Ctx) :
    (∃ pd' s', walkpgdirAlloc pd a s = .ok (some pd') s' ∧ Tabled hand a pd s pd' s') ∨
    walkpgdirAlloc pd a s = .ok none s := by
  cases htable : pd.pde (PDX a) with
  | some t =>
    have hsome : (pd.pde (PDX a)).isSome := by rw [htable]; rfl
    refine .inl ⟨pd,s,walkpgdirAlloc_table hsome,.refl _ _ _ _,rfl,fun d => ⟨.inl,?_⟩⟩
    rintro (hd | rfl)
    · exact hd
    · exact hsome
  | none =>
    cases hfree : s.mem.freelist with
    | nil => exact .inr (walkpgdirAlloc_starved htable hfree)
    | cons f fs =>
      refine .inl ⟨_,_,walkpgdirAlloc_new htable hfree,(conserves_kalloc hfree).trans (conserves_addTable htable),
        entry_addTable htable f,fun d => ?_⟩
      by_cases hd : d = PDX a
      · simp [PageDir.addTable,hd]
      · simp [PageDir.addTable,hd]

theorem mappages_present (halign : a.toNat % 4096 = 0) (hp : (entry pd a).p = true) :
    mappages pd a 4096 f w u s = .ok (false,pd) s := by
  have htable := table_of_present hp
  rw [mappages_one halign,mapLoop_succ (walkpgdirAlloc_table htable) (walkpgdir_of_table htable),if_pos hp]

structure PageMapped (hand : List Frame) (a : Word) (f : Frame) (w u : Bool) (pd : PageDir) (s : Ctx)
    (pd' : PageDir) (s' : Ctx) : Prop where
  conserves : Conserves ∅ (f :: hand) pd s hand pd' s'
  entries : ∀ x, entry pd' x = if x.toNat/4096 = a.toNat/4096 then ⟨f,true,w,u⟩ else entry pd x
  empty : (entry pd a).p = false
  table : ∀ d, (pd'.pde d).isSome ↔ (pd.pde d).isSome ∨ d = PDX a

/-- A page of the user's half is mapped, or it is refused and nothing changes. -/
theorem mappages_cases (halign : a.toNat % 4096 = 0) (hlow : a.toNat < 2^31) (hand : List Frame) (pd : PageDir)
    (f : Frame) (w u : Bool) (s : Ctx) :
    (∃ pd' s', mappages pd a 4096 f w u s = .ok (true,pd') s' ∧ PageMapped hand a f w u pd s pd' s') ∨
    mappages pd a 4096 f w u s = .ok (false,pd) s := by
  cases hp : (entry pd a).p with
  | true => exact .inr (mappages_present halign hp)
  | false =>
    rw [mappages_one halign]
    rcases walkpgdirAlloc_cases (f :: hand) pd a s with ⟨pd₁,s₁,halloc,htab⟩ | halloc
    · have htable := (htab.table (PDX a)).mpr (.inr rfl)
      have hp₁ : (entry pd₁ a).p = false := by rw [htab.entries]; exact hp
      refine .inl ⟨pd₁.setPte a ⟨f,true,w,u⟩,s₁,?_,htab.conserves.trans (conserves_map hlow htable hp₁),fun x => ?_,hp,
        fun d => ?_⟩
      · rw [mapLoop_succ halloc (walkpgdir_of_table htable),if_neg (Bool.eq_false_iff.mp hp₁)]
        rfl
      · rw [entry_setPte htable,htab.entries]
      · rw [pde_setPte_isSome]
        exact htab.table d
    · exact .inr (mapLoop_refused halloc)

end Pages

section KernelPart

theorem mapLoop_upper (hhigh : 2^31 ≤ a.toNat) (hend : a.toNat+4096*n ≤ 2^32) (hand : List Frame) (pd : PageDir)
    (f : Frame) (w u : Bool) (s : Ctx) :
    ∃ b pd' s', mapLoop w u n pd a f s = .ok (b,pd') s' ∧ Conserves ∅ hand pd s hand pd' s' := by
  induction n generalizing a pd f s with
  | zero => exact ⟨true,pd,s,rfl,.refl _ _ _ _⟩
  | succ n ih =>
    rcases walkpgdirAlloc_cases hand pd a s with ⟨pd₁,s₁,halloc,htab⟩ | halloc
    · have htable := (htab.table (PDX a)).mpr (.inr rfl)
      rw [mapLoop_succ halloc (walkpgdir_of_table htable)]
      split
      · exact ⟨false,pd₁,s₁,rfl,htab.conserves⟩
      · have hstep := htab.conserves.trans (conserves_upper hhigh ⟨f,true,w,u⟩)
        by_cases hn : n = 0
        · subst hn
          exact ⟨true,_,s₁,rfl,hstep⟩
        · have hnext : (a+4096).toNat = a.toNat+4096 := page_succ (by omega)
          have hhigh' : 2^31 ≤ (a+4096).toNat := by
            rw [hnext]
            exact Nat.le_add_right_of_le hhigh
          have hend' : (a+4096).toNat+4096*n ≤ 2^32 := by
            rw [hnext]
            omega
          obtain ⟨b,pd',s',hrun,hrest⟩ := ih hhigh' hend' (pd₁.setPte a ⟨f,true,w,u⟩) (f+1) s₁
          exact ⟨b,pd',s',hrun,hstep.trans hrest⟩
    · exact ⟨false,pd,s,mapLoop_refused halloc,.refl _ _ _ _⟩

theorem mapLoop_entries (hend : a.toNat+4096*n ≤ 2^32) (h : mapLoop w u n pd a f s = .ok (true,pd') s') :
    (∀ k < n, entry pd' (pageAt a k) = ⟨f+k,true,w,u⟩) ∧ (∀ x, ¬ InPages a n x → entry pd' x = entry pd x) ∧
    ∀ d, (pd'.pde d).isSome ↔ (pd.pde d).isSome ∨ ∃ k < n, d = PDX (pageAt a k) := by
  induction n generalizing a pd f s with
  | zero =>
    cases h
    exact ⟨by simp,fun x _ => rfl,by simp⟩
  | succ n ih =>
    rcases walkpgdirAlloc_cases [] pd a s with ⟨pd₁,s₁,halloc,htab⟩ | halloc
    · have htable := (htab.table (PDX a)).mpr (.inr rfl)
      rw [mapLoop_succ halloc (walkpgdir_of_table htable)] at h
      split at h
      · cases h
      · have hnext : n = 0 ∨ (a+4096).toNat = a.toNat+4096 := by
          have := a.isLt
          rw [BitVec.toNat_add,page_toNat]
          omega
        obtain ⟨hin,hout,hdir⟩ := ih (by have := (a+4096).isLt; omega) h
        have hlater : ¬ InPages (a+4096) n a := by
          rintro ⟨k,hk,hpage⟩
          rw [pageAt_succ,pageAt_toNat (by omega)] at hpage
          omega
        refine ⟨fun k hk => ?_,fun x hx => ?_,fun d => ?_⟩
        · cases k with
          | zero =>
            rw [pageAt_zero,hout a hlater,entry_setPte htable,if_pos rfl]
            rfl
          | succ k =>
            rw [← pageAt_succ,hin k (by omega),Nat.add_assoc,Nat.add_comm 1]
        · rw [inPages_succ,not_or] at hx
          rw [hout x hx.2,entry_setPte htable,if_neg hx.1,htab.entries]
        · rw [hdir,pde_setPte_isSome,htab.table,or_assoc]
          refine or_congr_right ⟨?_,?_⟩
          · rintro (rfl | ⟨k,hk,rfl⟩)
            · exact ⟨0,by omega,by rw [pageAt_zero]⟩
            · exact ⟨k+1,by omega,by rw [pageAt_succ]⟩
          · rintro ⟨k,hk,rfl⟩
            cases k with
            | zero => exact .inl (by rw [pageAt_zero])
            | succ k => exact .inr ⟨k,by omega,by rw [pageAt_succ]⟩
    · rw [mapLoop_refused halloc] at h
      cases h

end KernelPart
end Xv6.Vm
