import Xv6.Kernel.PageFaults

/-! # The page fault handler

The handler up to its end or up to the label where it ends the process, and what the
mapping of a page in a region without a page table comes to.
-/
namespace Xv6.Kernel
open Wmap Program
variable {s s' s₁ : Ctx} {x a y : Word} {p : Ptr} {f g : Frame} {fs : List Frame} {pd : PageDir}

section Handler

def mapPage (p : Ptr) (pageAddr : Word) (mem : Frame) : KernelM Bool := do
  let (_,pd) ← mappages (← get).cur.pgdir pageAddr 4096 mem true true
  setPgdir pd
  bump p
  pure false

def loadFile (p : Ptr) (fd pageAddr : Word) : KernelM Bool := do
  match ← kalloc with
  | none => pure true
  | some mem =>
    match ← ofile fd with
    | none => pure true
    | some f =>
      match ← fileread f 4096 with
      | none => throw .undefined
      | some bytes =>
        setPage mem (fillPage bytes)
        mapPage p pageAddr mem

/-- The branch of `trap` for page faults up to its end or up to `segFault`; the result says
whether it goes there. -/
def faultBody (address : Word) : KernelM Bool := do
  match ← onTable (pageInMappings · address) with
  | none => pure true
  | some p =>
    let node := (← get).tab.deref p
    let pageAddr := faultPage node.startAddress address
    match walkpgdir (← get).cur.pgdir pageAddr with
    | some _ => pure false
    | none =>
      match ← kalloc with
      | none => pure true
      | some mem =>
        setPage mem (fun _ => 0)
        if node.flags &&& MAP_ANONYMOUS ≠ 0 then mapPage p pageAddr mem
        else loadFile p node.fd pageAddr

theorem pageFault_eq (x : Word) :
    pageFault x = faultBody x >>= fun seg => if seg then exit else pure () := by
  unfold pageFault faultBody
  rw [bind_assoc]
  refine bind_congr fun r => ?_
  cases r with
  | none => rfl
  | some p =>
    dsimp only
    rw [bind_assoc]
    refine bind_congr fun s => ?_
    rw [bind_assoc]
    refine bind_congr fun s' => ?_
    cases walkpgdir s'.cur.pgdir (faultPage (s.tab.deref p).startAddress x) with
    | some pte => rfl
    | none =>
      dsimp only
      rw [bind_assoc]
      refine bind_congr fun mem => ?_
      cases mem with
      | none => rfl
      | some mem =>
        dsimp only
        rw [bind_assoc]
        refine bind_congr fun _ => ?_
        split
        · simp only [mapPage,bind_assoc]
          rfl
        · rw [loadFile,bind_assoc]
          refine bind_congr fun mem => ?_
          cases mem with
          | none => rfl
          | some mem =>
            dsimp only
            rw [bind_assoc]
            refine bind_congr fun file => ?_
            cases file with
            | none => rfl
            | some file =>
              dsimp only
              rw [bind_assoc]
              refine bind_congr fun bytes => ?_
              cases bytes with
              | none => rfl
              | some bytes =>
                simp only [mapPage,bind_assoc]
                rfl

theorem pageFault_returns (hrun : pageFault x s = .ok () s') : faultBody x s = .ok false s' := by
  rw [pageFault_eq] at hrun
  obtain ⟨seg,s₁,hbody,hrest⟩ := bind_eq_ok.mp hrun
  cases seg with
  | true => exact absurd hrest (neverReturns_exit _ _ _)
  | false =>
    cases hrest
    exact hbody

end Handler

section Mapping

theorem translate_setPte_ne {pte : Pte} (hy : y.toNat/4096 ≠ a.toNat/4096) (m : Access) :
    translate (pd.setPte a pte) m y = translate pd m y := by
  rw [translate,translate,walkpgdir_setPte,if_neg fun h => hy (same_page h.1 h.2.1)]

theorem translate_addTable (hnone : pd.pde (PDX a) = none) (m : Access) :
    translate (pd.addTable a g) m y = translate pd m y := by
  by_cases hd : PDX y = PDX a
  · have hzero : walkpgdir (pd.addTable a g) y = some .zero := by simp [walkpgdir,PageDir.addTable,hd]
    have hwalk : walkpgdir pd y = none := by rw [walkpgdir,hd,hnone,Option.map_none]
    rw [translate,translate,hzero,hwalk]
    cases m <;> rfl
  · have hwalk : walkpgdir (pd.addTable a g) y = walkpgdir pd y := by simp [walkpgdir,PageDir.addTable,hd]
    rw [translate,translate,hwalk]

theorem translate_withPage_ne (hnone : pd.pde (PDX a) = none) (hy : y.toNat/4096 ≠ a.toNat/4096) (m : Access) :
    translate (pd.withPage a f g) m y = translate pd m y := by
  have hdown := PGROUNDDOWN_toNat a
  rw [PageDir.withPage,translate_setPte_ne (by omega),translate_addTable (by rw [PDX_PGROUNDDOWN]; exact hnone)]

theorem mappages_last (ha : a.toNat % 4096 ≠ 0) (pd : PageDir) (f : Frame) (w u : Bool) :
    mappages pd a 4096 f w u = mapLoop w u 2 pd (PGROUNDDOWN a) f := by
  have hdown := PGROUNDDOWN_toNat a
  have hone : (1 : Word).toNat = 1 := rfl
  have hlt := a.isLt
  have hlast : (PGROUNDDOWN (a+4096-1)-PGROUNDDOWN a).toNat/4096 = 1 := by
    rw [BitVec.toNat_sub,PGROUNDDOWN_toNat,PGROUNDDOWN_toNat,BitVec.toNat_sub,BitVec.toNat_add,page_toNat,hone]
    omega
  change mapLoop w u ((PGROUNDDOWN (a+4096-1)-PGROUNDDOWN a).toNat/4096+1) pd (PGROUNDDOWN a) f = _
  rw [hlast]

/-- No page can be mapped: there is one, or no page table and no frame for it. -/
def Stuck (pd : PageDir) (b : Word) (free : List Frame) : Prop :=
  pd.present b ∨ pd.pde (PDX b) = none ∧ free = []

def FreelistOnly (s s' : Ctx) : Prop := s' = { s with mem := { s.mem with freelist := s'.mem.freelist } }

/-- One step of the loop maps its page or leaves everything as it is. -/
theorem mapLoop_one (pd : PageDir) (b : Word) (f : Frame) (s : Ctx) :
    (Stuck pd b s.mem.freelist ∧ mapLoop true true 1 pd b f s = .ok (false,pd) s) ∨
    (¬ Stuck pd b s.mem.freelist ∧ ∃ pd' s', mapLoop true true 1 pd b f s = .ok (true,pd') s' ∧
      walkpgdir pd' b = some ⟨f,true,true,true⟩ ∧
      (∀ y m, y.toNat/4096 ≠ b.toNat/4096 → translate pd' m y = translate pd m y) ∧ FreelistOnly s s' ∧
      s'.mem.freelist.length ≤ s.mem.freelist.length) := by
  cases hpd : pd.pde (PDX b) with
  | some t =>
    have hwalk : walkpgdir pd b = some (t.2 (PTX b)) := by rw [walkpgdir,hpd,Option.map_some]
    rw [mapLoop_succ (walkpgdirAlloc_table (by rw [hpd]; rfl)) hwalk]
    by_cases hp : (t.2 (PTX b)).p = true
    · rw [if_pos hp]
      exact .inl ⟨.inl ⟨_,hwalk,hp⟩,rfl⟩
    · rw [if_neg hp]
      refine .inr ⟨?_,_,s,rfl,?_,fun y m hy => translate_setPte_ne hy m,rfl,le_rfl⟩
      · rintro (⟨pte,hw,hp'⟩ | ⟨hnone,-⟩)
        · rw [hwalk,Option.some.injEq] at hw
          exact hp (hw ▸ hp')
        · rw [hpd] at hnone
          cases hnone
      · rw [walkpgdir_setPte,if_pos ⟨rfl,rfl,by rw [hpd]; rfl⟩]
  | none =>
    cases hfree : s.mem.freelist with
    | nil => exact .inl ⟨.inr ⟨hpd,rfl⟩,mapLoop_refused (walkpgdirAlloc_starved hpd hfree)⟩
    | cons g fs =>
      have hpte : walkpgdir (pd.addTable b g) b = some .zero := by simp [walkpgdir,PageDir.addTable]
      refine .inr ⟨?_,_,_,mapLoop_succ (walkpgdirAlloc_new hpd hfree) hpte,?_,fun y m hy => ?_,rfl,?_⟩
      · rintro (⟨pte,hw,-⟩ | ⟨-,hnil⟩)
        · rw [walkpgdir,hpd] at hw
          cases hw
        · cases hnil
      · rw [walkpgdir_setPte,if_pos ⟨rfl,rfl,by simp [PageDir.addTable]⟩]
      · rw [translate_setPte_ne hy,translate_addTable hpd]
      · change fs.length ≤ (g :: fs).length
        rw [List.length_cons]
        omega

end Mapping

section Files

def FilesOnly (s s' : Ctx) : Prop := s' = { s with files := s'.files }

theorem FilesOnly.trans {s₁ s₂ s₃ : Ctx} (h : FilesOnly s₁ s₂) (h' : FilesOnly s₂ s₃) : FilesOnly s₁ s₃ := by
  unfold FilesOnly at *
  rw [h',h]

theorem filesOnly_setInode {ip : ℕ} {v : Inode} {r : Unit} (h : setInode ip v s = .ok r s') : FilesOnly s s' := by
  cases h
  rfl

theorem filesOnly_ilock {ip : ℕ} {r : Unit} (h : ilock ip s = .ok r s') : FilesOnly s s' := by
  unfold ilock at h
  rw [get_bind_apply] at h
  split at h
  · cases h
  · exact filesOnly_setInode h

theorem filesOnly_advance {k : Fin NFILE} {bytes : Option (List Byte)} {r : Unit} (h : advance k bytes s = .ok r s') :
    FilesOnly s s' := by
  cases bytes with
  | none =>
    cases h
    rfl
  | some bytes =>
    cases h
    rfl

theorem filesOnly_fileread {k : Fin NFILE} {n : Word} {r : Option (List Byte)} (h : fileread k n s = .ok r s') :
    FilesOnly s s' := by
  unfold fileread at h
  rw [get_bind_apply] at h
  dsimp only at h
  split at h
  · cases h
    rfl
  · cases hkind : (s.files.file k).kind with
    | none =>
      rw [hkind] at h
      cases h
    | pipe q =>
      rw [hkind] at h
      cases h
    | inode ip =>
      rw [hkind] at h
      obtain ⟨_,s₁,h1,h2⟩ := bind_eq_ok.mp h
      rw [get_bind_apply] at h2
      split at h2
      · cases h2
      · obtain ⟨_,s₂,h3,h4⟩ := bind_eq_ok.mp h2
        obtain ⟨_,s₃,h5,h6⟩ := bind_eq_ok.mp h4
        cases h6
        exact ((filesOnly_ilock h1).trans (filesOnly_advance h3)).trans (filesOnly_setInode h5)

end Files

section Outcomes

theorem mapPage_apply {r : Bool × PageDir} (h : mappages s.cur.pgdir a 4096 f true true s = .ok r s') :
    mapPage p a f s = .ok false { s' with
      cur := { s'.cur with pgdir := r.2 }
      tab := s'.tab.setNode p { s'.tab.deref p with loadedPages := (s'.tab.deref p).loadedPages+1 } } := by
  unfold mapPage
  rw [get_bind_apply,bind_of_ok h]
  rfl

def nextPage (a : Word) : Word := PGROUNDDOWN a+4096

theorem nextPage_ne (a : Word) : (nextPage a).toNat/4096 ≠ a.toNat/4096 := by
  have hdown := PGROUNDDOWN_toNat a
  have := a.isLt
  rw [nextPage,BitVec.toNat_add,page_toNat]
  omega

/-- Only one page is mapped for the address: it is the start of a page, or the next page lies in
another region and is there already or cannot have a page table. -/
def OnePage (pd : PageDir) (a : Word) (free : List Frame) : Prop := a.toNat % 4096 = 0 ∨
  PDX (nextPage a) ≠ PDX a ∧ (pd.present (nextPage a) ∨ pd.pde (PDX (nextPage a)) = none ∧ free = [])

theorem stuck_withPage (pd : PageDir) (a : Word) (f g : Frame) (free : List Frame) :
    Stuck (pd.withPage a f g) (nextPage a) free ↔ PDX (nextPage a) ≠ PDX a ∧
      (pd.present (nextPage a) ∨ pd.pde (PDX (nextPage a)) = none ∧ free = []) := by
  by_cases hd : PDX (nextPage a) = PDX a
  · have ht : PTX (nextPage a) ≠ PTX a := fun ht => nextPage_ne a (same_page hd ht)
    have hwalk : walkpgdir (pd.withPage a f g) (nextPage a) = some .zero := by
      rw [walkpgdir_withPage,if_pos hd,if_neg ht]
    constructor
    · rintro (⟨pte,hw,hp⟩ | ⟨hnone,-⟩)
      · rw [hwalk,Option.some.injEq] at hw
        rw [← hw] at hp
        cases hp
      · rw [walkpgdir,hnone] at hwalk
        cases hwalk
    · exact fun h => absurd hd h.1
  · have hpde : (pd.withPage a f g).pde (PDX (nextPage a)) = pd.pde (PDX (nextPage a)) := by
      rw [PageDir.withPage,pde_setPte_ne _ _ _ (by rw [PDX_PGROUNDDOWN]; exact Ne.symm hd)]
      simp [PageDir.addTable,PDX_PGROUNDDOWN,hd]
    have hpres : (pd.withPage a f g).present (nextPage a) ↔ pd.present (nextPage a) := by
      rw [PageDir.present,PageDir.present,walkpgdir_withPage,if_neg hd]
    rw [Stuck,hpde,hpres]
    exact ⟨fun h => ⟨hd,h⟩,fun h => h.2⟩

theorem mapPage_outcome (hnone : s.cur.pgdir.pde (PDX a) = none) : ∃ s', mapPage p a f s = .ok false s' ∧
    s'.tab = s.tab.setNode p { s.tab.deref p with loadedPages := (s.tab.deref p).loadedPages+1 } ∧
    s'.mem.page = s.mem.page ∧ s'.files = s.files ∧
    ((s.mem.freelist = [] ∧ s'.cur.pgdir = s.cur.pgdir ∧ s'.mem.freelist = []) ∨
      ∃ g fs, s.mem.freelist = g :: fs ∧ s'.mem.freelist.length ≤ fs.length ∧
        ((OnePage s.cur.pgdir a fs ∧ s'.cur.pgdir = s.cur.pgdir.withPage a f g ∧ s'.mem.freelist = fs) ∨
          (¬ OnePage s.cur.pgdir a fs ∧ ¬ s.cur.pgdir.present (nextPage a) ∧
            walkpgdir s'.cur.pgdir (nextPage a) = some ⟨f+1,true,true,true⟩ ∧
            ∀ y m, y.toNat/4096 ≠ (nextPage a).toNat/4096 →
              translate s'.cur.pgdir m y = translate (s.cur.pgdir.withPage a f g) m y))) := by
  by_cases ha : a.toNat % 4096 = 0
  · have hmap : mappages s.cur.pgdir a 4096 f true true = mapLoop true true 1 s.cur.pgdir (PGROUNDDOWN a) f := by
      rw [mappages_one ha,PGROUNDDOWN_of_aligned ha]
    cases hfree : s.mem.freelist with
    | nil => exact ⟨_,mapPage_apply (hmap ▸ mapLoop_starved hnone hfree),rfl,rfl,rfl,.inl ⟨rfl,rfl,hfree⟩⟩
    | cons g fs =>
      have hrun : mappages s.cur.pgdir a 4096 f true true s =
          .ok (true,s.cur.pgdir.withPage a f g) { s with mem := { s.mem with freelist := fs } } := by
        rw [hmap]
        exact mapLoop_first hnone hfree
      exact ⟨_,mapPage_apply hrun,rfl,rfl,rfl,.inr ⟨g,fs,rfl,le_rfl,.inl ⟨.inl ha,rfl,rfl⟩⟩⟩
  · have hmap := mappages_last ha s.cur.pgdir f true true
    cases hfree : s.mem.freelist with
    | nil => exact ⟨_,mapPage_apply (hmap ▸ mapLoop_starved hnone hfree),rfl,rfl,rfl,.inl ⟨rfl,rfl,hfree⟩⟩
    | cons g fs =>
      have hone : OnePage s.cur.pgdir a fs ↔ Stuck (s.cur.pgdir.withPage a f g) (nextPage a) fs := by
        rw [stuck_withPage]
        exact ⟨fun h => h.resolve_left ha,.inr⟩
      have hfirst := mapLoop_first (n := 1) (f := f) hnone hfree
      rw [← hmap] at hfirst
      rcases mapLoop_one (s.cur.pgdir.withPage a f g) (nextPage a) (f+1)
        { s with mem := { s.mem with freelist := fs } } with ⟨hstuck,hrun⟩ | ⟨hstuck,pd',s₁,hrun,hwalk,hothers,hs₁,hlen⟩
      · refine ⟨_,mapPage_apply (hfirst.trans hrun),rfl,rfl,rfl,.inr ⟨g,fs,rfl,le_rfl,.inl ⟨hone.mpr hstuck,rfl,rfl⟩⟩⟩
      · refine ⟨_,mapPage_apply (hfirst.trans hrun),by rw [hs₁],by rw [hs₁],by rw [hs₁],
          .inr ⟨g,fs,rfl,hlen,.inr ⟨?_,?_,hwalk,hothers⟩⟩⟩
        · exact fun h => hstuck (hone.mp h)
        · intro hpres
          refine hstuck ((stuck_withPage _ _ _ _ _).mpr ⟨fun hd => ?_,.inl hpres⟩)
          obtain ⟨pte,hw,-⟩ := hpres
          rw [walkpgdir,hd,hnone] at hw
          cases hw

/-- The frame behind the page of `x` when the handler has mapped `g` at `a`. At an address that is not the start
of a page `mappages` maps two pages, the second of them to the next frame. -/
def Lands (pd : PageDir) (a x : Word) (g : Frame) (free : List Frame) (f : Frame) : Prop :=
  (a.toNat/4096 = x.toNat/4096 ∧ f = g) ∨ ((nextPage a).toNat/4096 = x.toNat/4096 ∧ ¬ OnePage pd a free ∧ f = g+1)

theorem translate_mapped (hblocked : translate s.cur.pgdir .userRead x = none) (hnone : s.cur.pgdir.pde (PDX a) = none)
    (hrun : mapPage p a g s = .ok false s') (f : Frame) :
    translate s'.cur.pgdir .userRead x = some f ↔ ∃ h free, s.mem.freelist = h :: free ∧ Lands s.cur.pgdir a x g free f := by
  have hmapped (h : Frame) : translate (s.cur.pgdir.withPage a g h) .userRead x = some f ↔
      a.toNat/4096 = x.toNat/4096 ∧ f = g := by
    by_cases hpage : a.toNat/4096 = x.toNat/4096
    · rw [translate,← walkpgdir_page hpage,← translate,translate_withPage,Option.some.injEq]
      exact ⟨fun hg => ⟨hpage,hg.symm⟩,fun hg => hg.2.symm⟩
    · rw [translate_withPage_ne hnone (Ne.symm hpage),hblocked]
      exact ⟨fun hf => (by cases hf),fun hf => absurd hf.1 hpage⟩
  have hne := nextPage_ne a
  obtain ⟨s'',hrun',-,-,-,hcases⟩ := mapPage_outcome (p := p) (f := g) (a := a) hnone
  rw [hrun] at hrun'
  cases hrun'
  rcases hcases with ⟨hnil,hpd,-⟩ | ⟨h,free,hcons,-,⟨hone,hpd,-⟩ | ⟨hone,-,hwalk,hothers⟩⟩
  · rw [hpd,hblocked,hnil]
    constructor
    · intro hf
      cases hf
    · rintro ⟨_,_,hcons,-⟩
      cases hcons
  · rw [hpd,hmapped]
    constructor
    · exact fun hf => ⟨h,free,hcons,.inl hf⟩
    · rintro ⟨h',free',hcons',hf | ⟨-,hone',-⟩⟩
      · exact hf
      · rw [hcons] at hcons'
        cases hcons'
        exact absurd hone hone'
  · by_cases hpage : (nextPage a).toNat/4096 = x.toNat/4096
    · rw [translate,← walkpgdir_page hpage,hwalk]
      constructor
      · intro hf
        cases hf
        exact ⟨h,free,hcons,.inr ⟨hpage,hone,rfl⟩⟩
      · rintro ⟨h',free',-,⟨hpage',-⟩ | ⟨-,-,rfl⟩⟩
        · omega
        · rfl
    · rw [hothers x .userRead (Ne.symm hpage),hmapped]
      constructor
      · exact fun hf => ⟨h,free,hcons,.inl hf⟩
      · rintro ⟨h',free',-,hf | ⟨hpage',-⟩⟩
        · exact hf
        · exact absurd hpage' hpage

end Outcomes
end Xv6.Kernel
