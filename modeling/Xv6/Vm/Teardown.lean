import Xv6.Vm.Deallocation

/-! # Freeing an address space

`freevm` gives back the user's pages, then the page tables, then the directory: every frame that
the address space has, each of them once.
-/
namespace Xv6.Vm
open Wmap Kernel Program Inventory
variable {pd : PageDir} {s : Ctx} {n : ℕ}

theorem freeTables_ok (pd : PageDir) {l : List (Fin NPDENTRIES)} {g : Fin NPDENTRIES → KernelM Unit}
    (hnone : ∀ d, pd.pde d = none → g d = pure ()) (hsome : ∀ d t, pd.pde d = some t → g d = kfree t.1)
    (howns : ∀ f ∈ items l (fun d => (pd.pde d).map Prod.fst), s.mem.owns f) :
    l.forM g s = .ok () { s with mem := s.mem.freeing (items l fun d => (pd.pde d).map Prod.fst) } := by
  induction l generalizing s with
  | nil => rfl
  | cons d l ih =>
    rw [items_cons] at howns ⊢
    change (g d >>= fun _ => l.forM g) s = _
    cases hd : pd.pde d with
    | none =>
      rw [hd] at howns
      rw [hnone d hd]
      exact ih howns
    | some t =>
      rw [hd] at howns
      have hfirst : s.mem.owns t.1 := howns _ (by simp)
      rw [hsome d t hd,bind_of_ok (kfree_owns hfirst),ih (s := { s with mem := s.mem.freeing [t.1] }) fun f hf =>
        howns f (List.mem_append_right _ hf),Option.map_some,Option.toList_some,freeing_append]

theorem sweepTables_ok (pd : PageDir) {g : Fin NPDENTRIES → KernelM Unit} (hnone : ∀ d, pd.pde d = none → g d = pure ())
    (hsome : ∀ d t, pd.pde d = some t → g d = kfree t.1) (howns : ∀ f ∈ tableFrames pd, s.mem.owns f) :
    (List.finRange NPDENTRIES).forM g s = .ok () { s with mem := s.mem.freeing (tableFrames pd) } :=
  freeTables_ok pd hnone hsome howns

theorem kernbase_pages : pagesUpTo (PGROUNDUP 0) KERNBASE = UPAGES := by decide

theorem owns_freeing {m : Mem} {f : Frame} (l : List Frame) : (m.freeing l).owns f ↔ m.owns f := by
  unfold Mem.owns
  rw [image_freeing]

theorem tableFrames_dropping (pd : PageDir) (n : ℕ) (a : Word) : tableFrames (dropping pd n a) = tableFrames pd :=
  items_congr fun d _ => tables_dropping pd n a d

/-- Without its user pages an address space has its page tables and its directory. -/
theorem owned_dropped (pd : PageDir) (hn : n = UPAGES) : (owned (dropping pd n 0)).Perm (tableFrames pd ++ [pd.frame]) := by
  have hbound : (0 : Word).toNat+4096*n ≤ 2^32 := by
    rw [hn]
    decide
  have hpages : pageFrames (dropping pd n 0) = [] := by
    refine List.filterMap_eq_nil_iff.mpr fun k _ => ?_
    rw [holds,walkpgdir_dropping pd hbound]
    by_cases hsome : (frameOf (walkpgdir pd (pageAt 0 k.val))).isSome
    · rw [if_pos ⟨⟨k.val,hn ▸ k.isLt,rfl⟩,hsome⟩]
      rfl
    · rw [if_neg fun h => hsome h.2]
      exact Option.not_isSome_iff_eq_none.mp hsome
  have hsplit := owned_split (dropping pd n 0)
  rwa [hpages,tableFrames_dropping,frame_dropping,List.nil_append] at hsplit

theorem freevm_ok (howns : ∀ f ∈ owned pd, s.mem.owns f) : ∃ l : List Frame, l.Perm (owned pd) ∧
    freevm pd s = .ok () { s with mem := s.mem.freeing l } := by
  obtain ⟨n,hn⟩ : ∃ n, n = UPAGES := ⟨_,rfl⟩
  have hbound : (0 : Word).toNat+4096*n ≤ 2^31 := by
    rw [hn]
    decide
  have hperm := owned_dropping pd hbound
  have hrest := owned_dropped pd hn
  have htables : ∀ f ∈ tableFrames pd ++ [pd.frame], s.mem.owns f := fun f hf =>
    howns f (hperm.mem_iff.mpr (List.mem_append_right _ (hrest.mem_iff.mpr hf)))
  have hdealloc : deallocuvm pd KERNBASE 0 s = .ok (0,dropping pd n 0)
      { s with mem := s.mem.freeing (framesFrom pd n 0) } := by
    have hzero : PGROUNDUP 0 = 0 := by decide
    have hrun := deallocuvm_ok pd (s := s) (show (0 : Word) < KERNBASE by decide) (BitVec.le_refl _)
    rw [kernbase_pages,← hn,hzero] at hrun
    exact hrun fun f hf => howns f (hperm.mem_iff.mpr (List.mem_append_left _ hf))
  have hsweep : ∀ f ∈ tableFrames (dropping pd n 0), (s.mem.freeing (framesFrom pd n 0)).owns f := by
    rw [tableFrames_dropping]
    exact fun f hf => (owns_freeing _).mpr (htables f (List.mem_append_left _ hf))
  refine ⟨framesFrom pd n 0 ++ (tableFrames pd ++ [pd.frame]),(hrest.symm.append_left _).trans hperm.symm,?_⟩
  unfold freevm
  rw [bind_of_ok hdealloc]
  dsimp only
  rw [bind_of_ok (sweepTables_ok (dropping pd n 0) (fun d hd => by rw [hd]) (fun d t hd => by rw [hd]) hsweep),
    tableFrames_dropping,frame_dropping,
    kfree_owns ((owns_freeing _).mpr ((owns_freeing _).mpr (htables _ (by simp)))),freeing_append,freeing_append]

end Xv6.Vm
