import Xv6.Kernel.PageTables

/-! # Page directories as maps

What the loops over page tables do to the map from addresses to entries, which frames
they take from the free list, and when there is enough memory for them.
-/
namespace Xv6.Kernel
open Wmap Program Function
variable {a va : Word} {pd pd' d : PageDir} {s s' : Ctx} {n : ℕ} {f : Frame} {w u : Bool}

section Addresses

def pageAt (a : Word) (k : ℕ) : Word := a+BitVec.ofNat 32 (4096*k)

theorem page_toNat : (4096 : Word).toNat = 4096 := rfl

theorem pageAt_zero (a : Word) : pageAt a 0 = a := by simp [pageAt]

theorem pageAt_succ (a : Word) (k : ℕ) : pageAt (a+4096) k = pageAt a (k+1) := by
  apply BitVec.eq_of_toNat_eq
  simp only [pageAt,BitVec.toNat_add,BitVec.toNat_ofNat,page_toNat]
  omega

theorem pageAt_toNat {k : ℕ} (h : a.toNat+4096*k < 2^32) : (pageAt a k).toNat = a.toNat+4096*k := by
  rw [pageAt,BitVec.toNat_add,BitVec.toNat_ofNat]
  omega

/-- In a range that ends with the address space only the page after the last one wraps around. -/
theorem page_next (hend : a.toNat+4096*(n+1) ≤ 2^32) :
    (n = 0 ∨ (a+4096).toNat = a.toNat+4096) ∧ (a+4096).toNat+4096*n ≤ 2^32 := by
  have := a.isLt
  rw [BitVec.toNat_add,page_toNat]
  omega

theorem page_succ (h : a.toNat+4096 < 2^32) : (a+4096).toNat = a.toNat+4096 := by
  rw [BitVec.toNat_add,page_toNat]
  omega

theorem table_of_walk {pte : Pte} (hw : walkpgdir pd a = some pte) : (pd.pde (PDX a)).isSome := by
  rw [walkpgdir,Option.map_eq_some_iff] at hw
  obtain ⟨t,ht,-⟩ := hw
  rw [ht]
  rfl

theorem PDX_val (va : Word) : (PDX va).val = va.toNat/2^22 := by
  have := va.isLt
  change va.toNat/2^22 % 1024 = va.toNat/2^22
  omega

theorem PTX_val (va : Word) : (PTX va).val = va.toNat/4096 % 1024 := rfl

theorem same_page (h1 : PDX a = PDX va) (h2 : PTX a = PTX va) : a.toNat/4096 = va.toNat/4096 := by
  have h1 := congrArg Fin.val h1
  have h2 := congrArg Fin.val h2
  rw [PDX_val,PDX_val] at h1
  rw [PTX_val,PTX_val] at h2
  omega

theorem page_indices (h : a.toNat/4096 = va.toNat/4096) : PDX a = PDX va ∧ PTX a = PTX va := by
  constructor
  · apply Fin.ext
    rw [PDX_val,PDX_val]
    omega
  · apply Fin.ext
    rw [PTX_val,PTX_val]
    omega

theorem walkpgdir_page (h : a.toNat/4096 = va.toNat/4096) {pd : PageDir} : walkpgdir pd a = walkpgdir pd va := by
  obtain ⟨hd,ht⟩ := page_indices h
  rw [walkpgdir,walkpgdir,hd,ht]

theorem PGROUNDDOWN_toNat (a : Word) : (PGROUNDDOWN a).toNat = a.toNat/4096*4096 := by
  have hmask : ∀ i, i < 32 → (~~~(4095 : Word)).getLsbD i = decide (12 ≤ i) := by decide
  have h : PGROUNDDOWN a = (a >>> 12) <<< 12 := by
    apply BitVec.eq_of_getLsbD_eq
    intro i hi
    rw [PGROUNDDOWN,BitVec.getLsbD_and,hmask i hi,BitVec.getLsbD_shiftLeft,BitVec.getLsbD_ushiftRight]
    by_cases h12 : i < 12
    · simp [h12]
    · have hsub : 12+(i-12) = i := by omega
      rw [hsub]
      simp [h12,hi,Nat.le_of_not_lt h12]
  rw [h,BitVec.toNat_shiftLeft,BitVec.toNat_ushiftRight,Nat.shiftRight_eq_div_pow,Nat.shiftLeft_eq]
  have := a.isLt
  omega

end Addresses

section Entries

theorem walkpgdir_setPte (pd : PageDir) (a va : Word) (pte : Pte) :
    walkpgdir (pd.setPte a pte) va =
      if PDX va = PDX a ∧ PTX va = PTX a ∧ (pd.pde (PDX a)).isSome then some pte else walkpgdir pd va := by
  unfold PageDir.setPte
  cases hpd : pd.pde (PDX a) with
  | none => simp
  | some t =>
    by_cases hd : PDX va = PDX a
    · by_cases ht : PTX va = PTX a
      · simp [walkpgdir,hd,ht]
      · simp [walkpgdir,hd,ht,hpd]
    · simp [walkpgdir,hd]

theorem pde_setPte_isSome (pd : PageDir) (a : Word) (pte : Pte) (k : Fin NPDENTRIES) :
    ((pd.setPte a pte).pde k).isSome = (pd.pde k).isSome := by
  unfold PageDir.setPte
  cases hpd : pd.pde (PDX a) with
  | none => rfl
  | some t =>
    by_cases hk : k = PDX a
    · simp [hk,hpd]
    · simp [hk]

theorem pde_setPte_ne (pd : PageDir) (a : Word) (pte : Pte) {k : Fin NPDENTRIES} (hk : PDX a ≠ k) :
    (pd.setPte a pte).pde k = pd.pde k := by
  unfold PageDir.setPte
  cases pd.pde (PDX a) with
  | none => rfl
  | some t => simp [hk.symm]

theorem frame_setPte (pd : PageDir) (a : Word) (pte : Pte) : (pd.setPte a pte).frame = pd.frame := by
  unfold PageDir.setPte
  split <;> rfl

end Entries

section Frames

/-- Only the memory has changed, and not the image of the kernel in it. -/
structure MemOnly (s s' : Ctx) : Prop where
  image : s'.mem.image = s.mem.image
  rest : s' = { s with mem := s'.mem }

theorem MemOnly.refl (s : Ctx) : MemOnly s s := ⟨rfl,rfl⟩

theorem MemOnly.trans {s₁ s₂ s₃ : Ctx} (h : MemOnly s₁ s₂) (h' : MemOnly s₂ s₃) : MemOnly s₁ s₃ :=
  ⟨h'.image.trans h.image,by rw [h'.rest,h.rest]⟩

theorem MemOnly.cur_eq {s s' : Ctx} (h : MemOnly s s') : s'.cur = s.cur := by rw [h.rest]

theorem kalloc_apply (s : Ctx) : kalloc s = match s.mem.freelist with
    | [] => .ok none s
    | f :: fs => .ok (some f) { s with mem := { s.mem with freelist := fs } } := by
  unfold kalloc
  rw [bind_apply,get_apply]
  dsimp only
  cases s.mem.freelist <;> rfl

def PageDir.addTable (pd : PageDir) (va : Word) (f : Frame) : PageDir :=
  { pd with pde := Function.update pd.pde (PDX va) (some (f,fun _ => .zero)) }

theorem walkpgdirAlloc_table (h : (pd.pde (PDX va)).isSome) : walkpgdirAlloc pd va s = .ok (some pd) s := by
  obtain ⟨t,ht⟩ := Option.isSome_iff_exists.mp h
  rw [walkpgdirAlloc,ht]
  rfl

theorem walkpgdirAlloc_starved (h : pd.pde (PDX va) = none) (hfree : s.mem.freelist = []) :
    walkpgdirAlloc pd va s = .ok none s := by
  rw [walkpgdirAlloc,h]
  dsimp only
  rw [bind_apply,kalloc_apply,hfree]
  rfl

theorem walkpgdirAlloc_new {fs : List Frame} (h : pd.pde (PDX va) = none) (hfree : s.mem.freelist = f :: fs) :
    walkpgdirAlloc pd va s = .ok (some (pd.addTable va f)) { s with mem := { s.mem with freelist := fs } } := by
  rw [walkpgdirAlloc,h]
  dsimp only
  rw [bind_apply,kalloc_apply,hfree]
  rfl

theorem mapLoop_succ {s₁ : Ctx} {pd₁ : PageDir} {pte : Pte} (halloc : walkpgdirAlloc pd a s = .ok (some pd₁) s₁)
    (hpte : walkpgdir pd₁ a = some pte) : mapLoop w u (n+1) pd a f s =
      if pte.p then .ok (false,pd₁) s₁ else mapLoop w u n (pd₁.setPte a ⟨f,true,w,u⟩) (a+4096) (f+1) s₁ := by
  rw [mapLoop,bind_of_ok halloc]
  dsimp only
  rw [hpte]
  dsimp only
  split <;> rfl

theorem mapLoop_refused (halloc : walkpgdirAlloc pd a s = .ok none s') : mapLoop w u (n+1) pd a f s = .ok (false,pd) s' := by
  rw [mapLoop,bind_of_ok halloc]
  rfl

end Frames

section Memory
variable {α β : Type}

/-- Only the memory changes, whether the program returns or stops. -/
def Paging (x : KernelM α) : Prop := Moves MemOnly MemOnly x

theorem Paging.bind {x : KernelM α} {g : α → KernelM β} (hx : Paging x) (hg : ∀ a, Paging (g a)) : Paging (x >>= g) :=
  Moves.bind (fun _ _ _ => MemOnly.trans) (fun _ _ _ => MemOnly.trans) hx hg

theorem paging_pure (a : α) : Paging (pure a) := MemOnly.refl
theorem paging_throw (e : Stop) : Paging (throw e : KernelM α) := MemOnly.refl
theorem paging_get_bind {g : Ctx → KernelM β} (h : ∀ s, Paging (g s)) : Paging (get >>= g) := fun s => h s s
theorem paging_modify {g : Ctx → Ctx} (h : ∀ s, MemOnly s (g s)) : Paging (modify g) := h

theorem paging_forM {l : List α} {g : α → KernelM Unit} (h : ∀ a, Paging (g a)) : Paging (l.forM g) := by
  induction l with
  | nil => exact paging_pure _
  | cons a l ih => exact (h a).bind fun _ => ih

theorem paging_kfree (f : Frame) : Paging (kfree f) := by
  refine paging_get_bind fun s => ?_
  split
  · exact paging_throw _
  · exact paging_modify fun _ => ⟨rfl,rfl⟩

theorem paging_kalloc : Paging kalloc := by
  refine paging_get_bind fun s => ?_
  split
  · exact paging_pure _
  · exact Paging.bind (paging_modify fun _ => ⟨rfl,rfl⟩) fun _ => paging_pure _

theorem paging_setPage (f : Frame) (pg : Page) : Paging (setPage f pg) := paging_modify fun _ => ⟨rfl,rfl⟩

theorem paging_walkpgdirAlloc (pd : PageDir) (va : Word) : Paging (walkpgdirAlloc pd va) := by
  unfold walkpgdirAlloc
  split
  · exact paging_pure _
  · refine paging_kalloc.bind fun f => ?_
    cases f <;> exact paging_pure _

theorem paging_mapLoop (w u : Bool) (n : ℕ) (pd : PageDir) (a : Word) (f : Frame) :
    Paging (mapLoop w u n pd a f) := by
  induction n generalizing pd a f with
  | zero => exact paging_pure _
  | succ n ih =>
    refine (paging_walkpgdirAlloc pd a).bind fun pd' => ?_
    cases pd' with
    | none => exact paging_pure _
    | some pd' =>
      dsimp only
      split
      · exact paging_pure _
      · split
        · exact paging_pure _
        · exact ih _ _ _

theorem paging_mappages (pd : PageDir) (va size : Word) (f : Frame) (w u : Bool) :
    Paging (mappages pd va size f w u) := paging_mapLoop _ _ _ _ _ _

theorem paging_deallocLoop (oldsz : Word) (fuel : ℕ) (pd : PageDir) (a : Word) :
    Paging (deallocLoop oldsz fuel pd a) := by
  induction fuel generalizing pd a with
  | zero => exact paging_throw _
  | succ fuel ih =>
    rw [deallocLoop]
    split
    · split
      · exact ih _ _
      · split
        · split
          · exact paging_throw _
          · exact (paging_kfree _).bind fun _ => ih _ _
        · exact ih _ _
    · exact paging_pure _

theorem paging_deallocuvm (pd : PageDir) (oldsz newsz : Word) : Paging (deallocuvm pd oldsz newsz) := by
  unfold deallocuvm
  split
  · exact paging_pure _
  · exact (paging_deallocLoop _ _ _ _).bind fun _ => paging_pure _

theorem paging_freevm (pd : PageDir) : Paging (freevm pd) := by
  unfold freevm
  refine (paging_deallocuvm _ _ _).bind fun r => ?_
  dsimp only
  generalize List.finRange NPDENTRIES = ds
  refine Paging.bind (paging_forM fun d => ?_) fun _ => paging_kfree _
  split
  · exact paging_pure _
  · exact paging_kfree _

theorem paging_mapRanges (ks : List Kmap) (pd : PageDir) : Paging (mapRanges ks pd) := by
  induction ks generalizing pd with
  | nil => exact paging_pure _
  | cons k ks ih =>
    refine (paging_mappages _ _ _ _ _ _).bind fun r => ?_
    dsimp only
    split
    · exact ih _
    · exact paging_pure _

theorem paging_setupkvm : Paging setupkvm := by
  refine paging_kalloc.bind fun f => ?_
  cases f with
  | none => exact paging_pure _
  | some f =>
    refine paging_get_bind fun s => ?_
    refine (paging_mapRanges _ _).bind fun r => ?_
    dsimp only
    split
    · exact paging_pure _
    · exact (paging_freevm _).bind fun _ => paging_pure _

theorem paging_copyLoop (pd : PageDir) (sz : Word) (fuel : ℕ) (d : PageDir) (i : Word) :
    Paging (copyLoop pd sz fuel d i) := by
  induction fuel generalizing d i with
  | zero => exact paging_throw _
  | succ fuel ih =>
    rw [copyLoop]
    split
    · split
      · exact paging_throw _
      · split
        · refine paging_kalloc.bind fun f => ?_
          cases f with
          | none => exact (paging_freevm _).bind fun _ => paging_pure _
          | some f =>
            refine paging_get_bind fun s => (paging_setPage _ _).bind fun _ => ?_
            refine (paging_mappages _ _ _ _ _ _).bind fun r => ?_
            dsimp only
            split
            · exact ih _ _
            · exact (paging_kfree _).bind fun _ => (paging_freevm _).bind fun _ => paging_pure _
        · exact paging_throw _
    · exact paging_pure _

theorem paging_copyuvm (pd : PageDir) (sz : Word) : Paging (copyuvm pd sz) := by
  refine paging_setupkvm.bind fun d => ?_
  cases d with
  | none => exact paging_pure _
  | some d => exact paging_copyLoop _ _ _ _ _

end Memory

section Mapping

/-- The number of page tables of `S` that are missing. -/
def absent (S : Finset (Fin NPDENTRIES)) (pd : PageDir) : ℕ := (S.filter fun k => (pd.pde k).isNone).card

theorem absent_addTable {S : Finset (Fin NPDENTRIES)} (hS : PDX va ∈ S) (h : pd.pde (PDX va) = none) (f : Frame) :
    absent S (pd.addTable va f)+1 = absent S pd := by
  have herase : (S.filter fun k => ((pd.addTable va f).pde k).isNone) = (S.filter fun k => (pd.pde k).isNone).erase (PDX va) := by
    ext k
    by_cases hk : k = PDX va <;> simp [PageDir.addTable,hk]
  rw [absent,absent,herase,Finset.card_erase_add_one (by simp [hS,h])]

theorem absent_setPte (S : Finset (Fin NPDENTRIES)) (pd : PageDir) (a : Word) (pte : Pte) :
    absent S (pd.setPte a pte) = absent S pd := by
  unfold absent
  refine congrArg Finset.card (Finset.filter_congr fun k _ => ?_)
  rw [← Option.not_isSome,pde_setPte_isSome,Option.not_isSome]

def PageDir.present (pd : PageDir) (va : Word) : Prop := ∃ pte, walkpgdir pd va = some pte ∧ pte.p = true

theorem present_addTable {f : Frame} (hp : (pd.addTable a f).present va) :
    pd.present va := by
  obtain ⟨pte,hw,hp⟩ := hp
  by_cases hd : PDX va = PDX a
  · simp only [walkpgdir,PageDir.addTable,hd,update_self,Option.map_some,Option.some.injEq] at hw
    rw [← hw] at hp
    cases hp
  · refine ⟨pte,?_,hp⟩
    simpa [walkpgdir,PageDir.addTable,hd] using hw

theorem present_setPte {pte : Pte} (hp : (pd.setPte a pte).present va) :
    pd.present va ∨ va.toNat/4096 = a.toNat/4096 := by
  obtain ⟨pte',hw,hp⟩ := hp
  rw [walkpgdir_setPte] at hw
  split at hw
  · rename_i hpage
    exact .inr (same_page hpage.1 hpage.2.1)
  · exact .inl ⟨pte',hw,hp⟩

/-- With a frame for every missing page table, pages that are not present can be mapped. -/
theorem mapLoop_succeeds {S : Finset (Fin NPDENTRIES)} {c : ℕ} (hend : a.toNat+4096*n ≤ 2^32)
    (hS : ∀ k < n, PDX (pageAt a k) ∈ S) (hfree : ∀ k < n, ¬ pd.present (pageAt a k))
    (hroom : absent S pd+c ≤ s.mem.freelist.length) :
    ∃ pd' s', mapLoop w u n pd a f s = .ok (true,pd') s' ∧ absent S pd'+c ≤ s'.mem.freelist.length ∧
      ∀ va, pd'.present va →
        pd.present va ∨ a.toNat/4096 ≤ va.toNat/4096 ∧ va.toNat/4096 < a.toNat/4096+n := by
  induction n generalizing pd a f s with
  | zero => exact ⟨pd,s,rfl,hroom,fun va h => .inl h⟩
  | succ n ih =>
    obtain ⟨pd₁,s₁,halloc,hsome,hroom₁,hpres₁⟩ : ∃ pd₁ s₁, walkpgdirAlloc pd a s = .ok (some pd₁) s₁ ∧
        (pd₁.pde (PDX a)).isSome ∧ absent S pd₁+c ≤ s₁.mem.freelist.length ∧
        ∀ va, pd₁.present va → pd.present va := by
      cases hpd : pd.pde (PDX a) with
      | some t =>
        have hsome : (pd.pde (PDX a)).isSome := by rw [hpd]; rfl
        exact ⟨pd,s,walkpgdirAlloc_table hsome,hsome,hroom,fun _ h => h⟩
      | none =>
        have hfirst := hS 0 (by omega)
        rw [pageAt_zero] at hfirst
        have habs := absent_addTable hfirst hpd
        cases hf : s.mem.freelist with
        | nil =>
          rw [hf,List.length_nil] at hroom
          have := habs 0
          omega
        | cons f' fs =>
          refine ⟨_,_,walkpgdirAlloc_new hpd hf,?_,?_,?_⟩
          · simp [PageDir.addTable]
          · have := habs f'
            rw [hf,List.length_cons] at hroom
            change absent S (pd.addTable a f')+c ≤ fs.length
            omega
          · exact fun va h => present_addTable h
    obtain ⟨pte,hpte⟩ : ∃ pte, walkpgdir pd₁ a = some pte := by
      obtain ⟨t,ht⟩ := Option.isSome_iff_exists.mp hsome
      exact ⟨t.2 (PTX a),by simp [walkpgdir,ht]⟩
    have hp : pte.p = false := by
      refine Bool.eq_false_iff.mpr fun hp => ?_
      have := hfree 0 (by omega)
      rw [pageAt_zero] at this
      exact this (hpres₁ a ⟨pte,hpte,hp⟩)
    obtain ⟨hnext,hend'⟩ := page_next hend
    have hfree' : ∀ k < n, ¬ (pd₁.setPte a ⟨f,true,w,u⟩).present (pageAt (a+4096) k) := by
      intro k hk hpres
      rw [pageAt_succ] at hpres
      rcases present_setPte hpres with hpres | hpage
      · exact hfree (k+1) (by omega) (hpres₁ _ hpres)
      · rw [pageAt_toNat (by omega)] at hpage
        omega
    obtain ⟨pd',s',hrun,hroom',hpres'⟩ := ih hend' (fun k hk => by rw [pageAt_succ]; exact hS (k+1) (by omega)) hfree'
      (by rw [absent_setPte]; exact hroom₁)
    refine ⟨pd',s',?_,hroom',fun va hva => ?_⟩
    · rw [mapLoop_succ halloc hpte,if_neg (Bool.eq_false_iff.mp hp)]
      exact hrun
    · rcases hpres' va hva with hva | ⟨hlo,hhi⟩
      · rcases present_setPte hva with hva | hpage
        · exact .inl (hpres₁ va hva)
        · right
          omega
      · right
        omega

end Mapping
end Xv6.Kernel
