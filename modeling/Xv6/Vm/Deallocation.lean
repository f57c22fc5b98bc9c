import Xv6.Kernel.NoOverlap
import Xv6.Kernel.UnmapLoops
import Xv6.Vm.Directory

/-! # Giving pages back

`deallocuvm` skips the pages of a missing page table in one go. What it does is the same
as visiting the pages of the range one after the other: the entries of the present ones are
cleared and their frames go to the free list.
-/
namespace Xv6.Vm
open Wmap Kernel Program Inventory
variable {a x oldsz newsz : Word} {pd pd' : PageDir} {s s' : Ctx} {n : ℕ}

section Walk

def visitPages : ℕ → Word → PageDir → KernelM PageDir
  | 0, _, pd => pure pd
  | n+1, a, pd =>
    match walkpgdir pd a with
    | none => visitPages n (a+4096) pd
    | some pte =>
      if pte.p then
        if pte.frame = 0 then throw .panic
        else do
          kfree pte.frame
          visitPages n (a+4096) (pd.setPte a .zero)
      else visitPages n (a+4096) pd

theorem visitPages_skip {m : ℕ} (h : ∀ j < m, walkpgdir pd (pageAt a j) = none) :
    visitPages (m+n) a pd = visitPages n (pageAt a m) pd := by
  induction m generalizing a with
  | zero => rw [Nat.zero_add,pageAt_zero]
  | succ m ih =>
    have hfirst := h 0 (by omega)
    rw [pageAt_zero] at hfirst
    rw [Nat.succ_add,visitPages,hfirst,← pageAt_succ]
    refine ih fun j hj => ?_
    rw [pageAt_succ]
    exact h (j+1) (by omega)

def pagesUpTo (a limit : Word) : ℕ := (limit.toNat-a.toNat+4095)/4096

theorem PGADDR_next (ha : a.toNat < 2^31) : (PGADDR ((PDX a).val+1)).toNat = (a.toNat/2^22+1)*2^22 := by
  rw [PGADDR,BitVec.toNat_ofNat,PDX_val]
  omega

theorem next_page (ha : a.toNat < 2^31) : (a+4096).toNat = a.toNat+4096 := page_succ (by omega)

theorem deallocLoop_eq {fuel : ℕ} (ha : a.toNat%4096 = 0) (hold : oldsz.toNat ≤ 2^31)
    (hfuel : pagesUpTo a oldsz < fuel) : deallocLoop oldsz fuel pd a = visitPages (pagesUpTo a oldsz) a pd := by
  induction fuel generalizing a pd with
  | zero => omega
  | succ fuel ih =>
    rw [deallocLoop]
    by_cases hlt : a < oldsz
    · have hlt' : a.toNat < oldsz.toNat := BitVec.lt_def.mp hlt
      rw [if_pos hlt]
      obtain ⟨n,hn⟩ : ∃ n, pagesUpTo a oldsz = n+1 := ⟨pagesUpTo a oldsz-1,by unfold pagesUpTo at *; omega⟩
      have hnext := next_page (a := a) (by omega)
      have hstep : pagesUpTo (a+4096) oldsz = n := by
        unfold pagesUpTo at *
        omega
      have hgo : ∀ pd, deallocLoop oldsz fuel pd (a+4096) = visitPages n (a+4096) pd := by
        intro pd
        rw [← hstep]
        exact ih (by omega) (by omega)
      cases hwalk : walkpgdir pd a with
      | some pte => rw [hn,visitPages,hwalk,hgo,hgo]
      | none =>
        -- the rest of the page table is missing along with this entry
        have hskip := PGADDR_next (a := a) (by omega)
        obtain ⟨m,hm⟩ : ∃ m, (PGADDR ((PDX a).val+1)).toNat = a.toNat+4096*m :=
          ⟨((PGADDR ((PDX a).val+1)).toNat-a.toNat)/4096,by omega⟩
        have hrest : pagesUpTo (PGADDR ((PDX a).val+1)) oldsz = pagesUpTo a oldsz-m := by
          unfold pagesUpTo
          omega
        have hmissing : ∀ j < m, walkpgdir pd (pageAt a j) = none := by
          intro j hj
          have hat : (pageAt a j).toNat = a.toNat+4096*j := pageAt_toNat (by omega)
          have hsame : PDX (pageAt a j) = PDX a := by
            apply Fin.ext
            rw [PDX_val,PDX_val]
            omega
          rw [walkpgdir,Option.map_eq_none_iff] at hwalk ⊢
          rw [hsame]
          exact hwalk
        have hpos : 0 < m := by omega
        dsimp only
        rw [ih (by omega) (by omega),hrest]
        by_cases hle : m ≤ pagesUpTo a oldsz
        · have hat : pageAt a m = PGADDR ((PDX a).val+1) := by
            apply BitVec.eq_of_toNat_eq
            rw [pageAt_toNat (by omega),hm]
          have hsum : m+(pagesUpTo a oldsz-m) = pagesUpTo a oldsz := by omega
          rw [← hat,← visitPages_skip hmissing,hsum]
        · have hzero : pagesUpTo a oldsz-m = 0 := by omega
          have hall := visitPages_skip (n := 0) (m := pagesUpTo a oldsz) fun j hj => hmissing j (by omega)
          rw [hzero,← Nat.add_zero (pagesUpTo a oldsz),hall,visitPages,visitPages]
    · have hzero : pagesUpTo a oldsz = 0 := by
        rw [BitVec.not_lt,BitVec.le_def] at hlt
        unfold pagesUpTo
        omega
      rw [if_neg hlt,hzero,visitPages]

theorem PGROUNDUP_toNat (h : a.toNat+4095 < 2^32) : (PGROUNDUP a).toNat = (a.toNat+4095)/4096*4096 := by
  have hlast : (4095 : Word).toNat = 4095 := rfl
  change (PGROUNDDOWN (a+4095)).toNat = _
  rw [PGROUNDDOWN_toNat,BitVec.toNat_add,hlast,Nat.mod_eq_of_lt h]

theorem deallocuvm_eq (pd : PageDir) (hnew : newsz < oldsz) (hold : oldsz ≤ KERNBASE) :
    deallocuvm pd oldsz newsz =
      (visitPages (pagesUpTo (PGROUNDUP newsz) oldsz) (PGROUNDUP newsz) pd >>= fun pd => pure (newsz,pd)) := by
  have hnew' : newsz.toNat < oldsz.toNat := BitVec.lt_def.mp hnew
  have hold' : oldsz.toNat ≤ 2^31 := BitVec.le_def.mp hold
  have hup : (PGROUNDUP newsz).toNat = (newsz.toNat+4095)/4096*4096 := PGROUNDUP_toNat (by omega)
  have hfuel : pagesUpTo (PGROUNDUP newsz) oldsz < allPages := by
    unfold pagesUpTo allPages
    omega
  unfold deallocuvm
  rw [if_neg (BitVec.not_le.mpr hnew),deallocLoop_eq (by omega) hold' hfuel]

end Walk

section Effect

def framesFrom (pd : PageDir) : ℕ → Word → List Frame
  | 0, _ => []
  | n+1, a => (frameOf (walkpgdir pd a)).toList ++ framesFrom pd n (a+4096)

def dropping (pd : PageDir) : ℕ → Word → PageDir
  | 0, _ => pd
  | n+1, a => dropping (if (frameOf (walkpgdir pd a)).isSome then pd.setPte a .zero else pd) n (a+4096)

theorem owns_ne_zero {m : Mem} {f : Frame} (h : m.owns f) : f ≠ 0 := by
  have := m.image.text
  have := m.image.data_le
  have := h.1
  intro hf
  subst hf
  exact absurd (Nat.lt_of_lt_of_le ‹0x100 < m.image.data› (Nat.le_trans ‹m.image.data ≤ m.image.lo› this))
    (Nat.not_lt_zero _)

theorem freeing_append (m : Mem) (l l' : List Frame) : m.freeing (l ++ l') = (m.freeing l).freeing l' := by
  induction l generalizing m with
  | nil => rfl
  | cons f l ih => exact ih _

theorem framesFrom_congr {pd pd' : PageDir} (h : ∀ k < n, walkpgdir pd' (pageAt a k) = walkpgdir pd (pageAt a k)) :
    framesFrom pd' n a = framesFrom pd n a := by
  induction n generalizing a with
  | zero => rfl
  | succ n ih =>
    have hfirst := h 0 (by omega)
    rw [pageAt_zero] at hfirst
    rw [framesFrom,framesFrom,hfirst,ih fun k hk => ?_]
    rw [pageAt_succ]
    exact h (k+1) (by omega)

theorem walkpgdir_setPte_later {k : ℕ} (hend : a.toNat+4096*(n+1) ≤ 2^32) (hk : k < n) (pte : Pte) :
    walkpgdir (pd.setPte a pte) (pageAt (a+4096) k) = walkpgdir pd (pageAt (a+4096) k) := by
  rw [walkpgdir_setPte,if_neg]
  rintro ⟨hd,ht,-⟩
  have hpage := same_page hd ht
  rw [pageAt_succ,pageAt_toNat (by omega)] at hpage
  omega

theorem framesFrom_later (pd : PageDir) (hend : a.toNat+4096*(n+1) ≤ 2^32) (pte : Pte) :
    framesFrom (pd.setPte a pte) n (a+4096) = framesFrom pd n (a+4096) :=
  framesFrom_congr fun _ hk => walkpgdir_setPte_later hend hk pte

theorem visitPages_ok (hend : a.toNat+4096*n ≤ 2^32) (howns : ∀ f ∈ framesFrom pd n a, s.mem.owns f) :
    visitPages n a pd s = .ok (dropping pd n a) { s with mem := s.mem.freeing (framesFrom pd n a) } := by
  induction n generalizing a pd s with
  | zero => rfl
  | succ n ih =>
    obtain ⟨hnext,hend'⟩ := page_next hend
    rw [framesFrom] at howns
    rw [visitPages,framesFrom,dropping]
    cases hwalk : walkpgdir pd a with
    | none =>
      rw [hwalk] at howns
      exact ih hend' howns
    | some pte =>
      rw [hwalk] at howns
      dsimp only
      by_cases hp : pte.p = true
      · have hframe : frameOf (some pte) = some pte.frame := by simp [frameOf,hp]
        rw [hframe] at howns ⊢
        have hfirst : s.mem.owns pte.frame := howns _ (by simp)
        have hlater := framesFrom_later pd hend .zero
        have hrest : ∀ f ∈ framesFrom (pd.setPte a .zero) n (a+4096), (s.mem.freeing [pte.frame]).owns f := by
          intro f hf
          rw [hlater] at hf
          exact howns f (List.mem_append_right _ hf)
        rw [if_pos hp,if_neg (owns_ne_zero hfirst),bind_of_ok (kfree_owns hfirst),
          ih (s := { s with mem := s.mem.freeing [pte.frame] }) hend' hrest,hlater,
          if_pos Option.isSome_some,Option.toList_some,freeing_append]
      · have hframe : frameOf (some pte) = none := by simp [frameOf,hp]
        rw [hframe] at howns ⊢
        rw [if_neg hp]
        exact ih hend' howns

open scoped Classical in
/-- The entries of the present pages of the range are cleared, the others are kept. -/
theorem walkpgdir_dropping (pd : PageDir) (hend : a.toNat+4096*n ≤ 2^32) (x : Word) : walkpgdir (dropping pd n a) x =
    if InPages a n x ∧ (frameOf (walkpgdir pd x)).isSome then some .zero else walkpgdir pd x := by
  induction n generalizing a pd with
  | zero =>
    rw [dropping,if_neg]
    rintro ⟨⟨k,hk,-⟩,-⟩
    exact Nat.not_lt_zero k hk
  | succ n ih =>
    obtain ⟨hnext,hend'⟩ := page_next hend
    rw [dropping,ih _ hend',inPages_succ]
    by_cases hpage : x.toNat/4096 = a.toNat/4096
    · have hwalk : walkpgdir pd _ = walkpgdir pd _ := walkpgdir_page hpage
      have hout : ¬ InPages (a+4096) n x := by
        rintro ⟨k,hk,hx⟩
        rw [pageAt_succ,pageAt_toNat (by omega)] at hx
        omega
      rw [if_neg fun h => hout h.1]
      by_cases hsome : (frameOf (walkpgdir pd a)).isSome
      · obtain ⟨f,hf⟩ := Option.isSome_iff_exists.mp hsome
        obtain ⟨pte,hpte,-⟩ := frameOf_eq_some.mp hf
        obtain ⟨hd,ht⟩ := page_indices hpage
        rw [if_pos hsome,walkpgdir_setPte,if_pos ⟨hd,ht,table_of_walk hpte⟩,if_pos ⟨.inl hpage,by rw [hwalk]; exact hsome⟩]
      · rw [if_neg hsome,if_neg]
        rintro ⟨-,h⟩
        rw [hwalk] at h
        exact hsome h
    · have hsame : walkpgdir (if (frameOf (walkpgdir pd a)).isSome then pd.setPte a .zero else pd) x =
          walkpgdir pd x := by
        split
        · rw [walkpgdir_setPte,if_neg fun h => hpage (same_page h.1 h.2.1)]
        · rfl
      rw [hsame,or_iff_right hpage]

theorem owned_dropping (pd : PageDir) (hend : a.toNat+4096*n ≤ 2^31) :
    (owned pd).Perm (framesFrom pd n a ++ owned (dropping pd n a)) := by
  induction n generalizing a pd with
  | zero => rw [framesFrom,dropping,List.nil_append]
  | succ n ih =>
    have hnext := next_page (a := a) (by omega)
    rw [framesFrom,dropping]
    cases hf : frameOf (walkpgdir pd a) with
    | none =>
      rw [if_neg (by simp),Option.toList_none,List.nil_append]
      exact ih _ (by omega)
    | some f =>
      have hlater := framesFrom_later pd (n := n) (a := a) (by omega) .zero
      have hrest := ih (pd.setPte a .zero) (a := a+4096) (by omega)
      rw [hlater] at hrest
      rw [if_pos Option.isSome_some,Option.toList_some,List.singleton_append,List.cons_append]
      exact (owned_unmap (by omega) hf).trans (hrest.cons f)

theorem tables_dropping (pd : PageDir) (n : ℕ) (a : Word) (d : Fin NPDENTRIES) :
    ((dropping pd n a).pde d).map Prod.fst = (pd.pde d).map Prod.fst := by
  induction n generalizing a pd with
  | zero => rfl
  | succ n ih =>
    rw [dropping,ih]
    split
    · exact tables_setPte pd a _ d
    · rfl

theorem frame_dropping (pd : PageDir) (n : ℕ) (a : Word) : (dropping pd n a).frame = pd.frame := by
  induction n generalizing a pd with
  | zero => rfl
  | succ n ih =>
    rw [dropping,ih]
    split
    · exact frame_setPte _ _ _
    · rfl

end Effect

section Range

theorem mem_framesFrom {f : Frame} : f ∈ framesFrom pd n a ↔ ∃ k < n, frameOf (walkpgdir pd (pageAt a k)) = some f := by
  induction n generalizing a with
  | zero => simp [framesFrom]
  | succ n ih =>
    rw [framesFrom,List.mem_append,Option.mem_toList,ih]
    constructor
    · rintro (h | ⟨k,hk,h⟩)
      · exact ⟨0,by omega,by rw [pageAt_zero]; exact h⟩
      · exact ⟨k+1,by omega,by rw [← pageAt_succ]; exact h⟩
    · rintro ⟨k,hk,h⟩
      cases k with
      | zero =>
        rw [pageAt_zero] at h
        exact .inl h
      | succ k => exact .inr ⟨k,by omega,by rw [pageAt_succ]; exact h⟩

structure Distinct (m : Mem) (pd : PageDir) : Prop where
  owns : ∀ x : Word, x.toNat < 2^31 → ∀ f, frameOf (walkpgdir pd x) = some f → m.owns f
  inj : ∀ x y : Word, x.toNat < 2^31 → y.toNat < 2^31 → ∀ f, frameOf (walkpgdir pd x) = some f →
    frameOf (walkpgdir pd y) = some f → x.toNat/4096 = y.toNat/4096

theorem Distinct.nodup_framesFrom {m : Mem} (h : Distinct m pd) (hend : a.toNat+4096*n ≤ 2^31) :
    (framesFrom pd n a).Nodup := by
  induction n generalizing a with
  | zero => exact List.nodup_nil
  | succ n ih =>
    have hnext := next_page (a := a) (by omega)
    rw [framesFrom,List.nodup_append]
    refine ⟨?_,ih (by omega),?_⟩
    · cases frameOf (walkpgdir pd a) <;> simp
    · rintro f hf g hg rfl
      rw [Option.mem_toList] at hf
      obtain ⟨k,hk,hg⟩ := mem_framesFrom.mp hg
      have hat : (pageAt (a+4096) k).toNat = a.toNat+4096*(k+1) := by
        rw [pageAt_succ,pageAt_toNat (by omega)]
      have := h.inj a (pageAt (a+4096) k) (by omega) (by omega) f hf hg
      omega

def InRange (newsz oldsz x : Word) : Prop := PGROUNDUP newsz ≤ PGROUNDDOWN x ∧ PGROUNDDOWN x < oldsz

structure Deallocated (s s' : Ctx) (pd pd' : PageDir) (oldsz newsz : Word) : Prop where
  cleared : ∀ x, InRange newsz oldsz x → pd.present x → walkpgdir pd' x = some .zero
  kept : ∀ x, ¬ (InRange newsz oldsz x ∧ pd.present x) → walkpgdir pd' x = walkpgdir pd x
  tables : ∀ d, (pd'.pde d).map Prod.fst = (pd.pde d).map Prod.fst
  directory : pd'.frame = pd.frame
  freed : ∃ l : List Frame, l.Nodup ∧ s'.mem.freelist.Perm (l ++ s.mem.freelist) ∧
    (∀ f, f ∈ l ↔ ∃ x, InRange newsz oldsz x ∧ ∃ pte, walkpgdir pd x = some pte ∧ pte.p = true ∧ pte.frame = f) ∧
    ∀ f, f ∉ l → s'.mem.page f = s.mem.page f
  rest : MemOnly s s'

theorem inRange_iff (hnew : newsz < oldsz) (hold : oldsz ≤ KERNBASE) : InRange newsz oldsz x ↔
    InPages (PGROUNDUP newsz) (pagesUpTo (PGROUNDUP newsz) oldsz) x := by
  have hnew' : newsz.toNat < oldsz.toNat := BitVec.lt_def.mp hnew
  have hold' : oldsz.toNat ≤ 2^31 := BitVec.le_def.mp hold
  have hup : (PGROUNDUP newsz).toNat = (newsz.toNat+4095)/4096*4096 := PGROUNDUP_toNat (by omega)
  have hdown := PGROUNDDOWN_toNat x
  have hbound : (PGROUNDUP newsz).toNat+4096*pagesUpTo (PGROUNDUP newsz) oldsz ≤ 2^32 := by
    unfold pagesUpTo
    omega
  rw [inPages_iff (by omega) hbound,InRange,BitVec.le_def,BitVec.lt_def]
  unfold pagesUpTo
  omega

theorem pagesUpTo_le (hnew : newsz < oldsz) (hold : oldsz ≤ KERNBASE) :
    (PGROUNDUP newsz).toNat+4096*pagesUpTo (PGROUNDUP newsz) oldsz ≤ 2^31 := by
  have hnew' : newsz.toNat < oldsz.toNat := BitVec.lt_def.mp hnew
  have hold' : oldsz.toNat ≤ 2^31 := BitVec.le_def.mp hold
  have hup : (PGROUNDUP newsz).toNat = (newsz.toNat+4095)/4096*4096 := PGROUNDUP_toNat (by omega)
  unfold pagesUpTo
  omega

theorem present_iff : pd.present x ↔ (frameOf (walkpgdir pd x)).isSome := by
  constructor
  · rintro ⟨pte,hpte,hp⟩
    rw [frameOf_eq_some.mpr ⟨pte,hpte,hp,rfl⟩]
    rfl
  · intro h
    obtain ⟨f,hf⟩ := Option.isSome_iff_exists.mp h
    obtain ⟨pte,hpte,hp,-⟩ := frameOf_eq_some.mp hf
    exact ⟨pte,hpte,hp⟩

theorem deallocuvm_ok (pd : PageDir) (hnew : newsz < oldsz) (hold : oldsz ≤ KERNBASE)
    (howns : ∀ f ∈ framesFrom pd (pagesUpTo (PGROUNDUP newsz) oldsz) (PGROUNDUP newsz), s.mem.owns f) :
    deallocuvm pd oldsz newsz s = .ok (newsz,dropping pd (pagesUpTo (PGROUNDUP newsz) oldsz) (PGROUNDUP newsz))
      { s with mem := s.mem.freeing (framesFrom pd (pagesUpTo (PGROUNDUP newsz) oldsz) (PGROUNDUP newsz)) } := by
  have hbound := pagesUpTo_le hnew hold
  rw [deallocuvm_eq pd hnew hold,bind_of_ok (visitPages_ok (by omega) howns)]
  rfl

/-- The skipping walk of `deallocuvm` has the effect of the plain one: it returns, and it clears and
frees the present pages of its range. -/
theorem deallocuvm_deallocates (hdistinct : Distinct s.mem pd) (hnew : newsz < oldsz) (hold : oldsz ≤ KERNBASE) :
    (deallocuvm pd oldsz newsz s =
      (visitPages (pagesUpTo (PGROUNDUP newsz) oldsz) (PGROUNDUP newsz) pd >>= fun pd => pure (newsz,pd)) s) ∧
    ∃ pd' s', deallocuvm pd oldsz newsz s = .ok (newsz,pd') s' ∧ Deallocated s s' pd pd' oldsz newsz := by
  have hbound := pagesUpTo_le hnew hold
  have hin : ∀ k < pagesUpTo (PGROUNDUP newsz) oldsz, (pageAt (PGROUNDUP newsz) k).toNat < 2^31 := by
    intro k hk
    rw [pageAt_toNat (by omega)]
    omega
  have hwalk := fun y => walkpgdir_dropping pd (a := PGROUNDUP newsz)
    (n := pagesUpTo (PGROUNDUP newsz) oldsz) (by omega) y
  have hrun : deallocuvm pd oldsz newsz s = _ := deallocuvm_ok pd hnew hold fun f hf => by
    obtain ⟨k,hk,hf⟩ := mem_framesFrom.mp hf
    exact hdistinct.owns _ (hin k hk) f hf
  refine ⟨by rw [deallocuvm_eq pd hnew hold],_,_,hrun,?_⟩
  · refine ⟨fun y hy hp => ?_,fun y hy => ?_,tables_dropping _ _ _,frame_dropping _ _ _,?_,?_⟩
    · rw [hwalk,if_pos ⟨(inRange_iff hnew hold).mp hy,present_iff.mp hp⟩]
    · rw [hwalk,if_neg]
      rintro ⟨hpages,hsome⟩
      exact hy ⟨(inRange_iff hnew hold).mpr hpages,present_iff.mpr hsome⟩
    · refine ⟨framesFrom pd (pagesUpTo (PGROUNDUP newsz) oldsz) (PGROUNDUP newsz),
        hdistinct.nodup_framesFrom hbound,freelist_freeing _ _,fun f => ?_,fun f hf => page_freeing _ hf⟩
      rw [mem_framesFrom]
      constructor
      · rintro ⟨k,hk,hf⟩
        exact ⟨pageAt (PGROUNDUP newsz) k,(inRange_iff hnew hold).mpr ⟨k,hk,rfl⟩,frameOf_eq_some.mp hf⟩
      · rintro ⟨y,hy,hf⟩
        obtain ⟨k,hk,hpage⟩ := (inRange_iff hnew hold).mp hy
        exact ⟨k,hk,by rw [← walkpgdir_page hpage]; exact frameOf_eq_some.mpr hf⟩
    · exact ⟨image_freeing _ _,rfl⟩

theorem firstCtx_frame {x : Word} (h : frameOf (walkpgdir firstCtx.cur.pgdir x) = some f) :
    x.toNat/4096 = 0 ∧ f = 0x302 := by
  obtain ⟨pte,hpte,hp,rfl⟩ := frameOf_eq_some.mp h
  rw [walkpgdir,Option.map_eq_some_iff] at hpte
  obtain ⟨t,ht,rfl⟩ := hpte
  change (if PDX x = 0 then some _ else none) = some t at ht
  split at ht
  · rename_i hd
    obtain rfl := Option.some.inj ht
    dsimp only at hp ⊢
    split at hp
    · rename_i hk
      rw [if_pos hk]
      have hd := congrArg Fin.val hd
      have hk := congrArg Fin.val hk
      rw [PDX_val,Fin.val_zero] at hd
      rw [PTX_val,Fin.val_zero] at hk
      exact ⟨by omega,rfl⟩
    · cases hp
  · cases ht

theorem distinct_firstCtx : Distinct firstCtx.mem firstCtx.cur.pgdir := by
  constructor
  · intro x _ f hf
    rw [(firstCtx_frame hf).2]
    exact ⟨by decide,by decide⟩
  · intro x y _ _ f hx hy
    rw [(firstCtx_frame hx).1,(firstCtx_frame hy).1]

/-- The walk of `freevm`: one page is given back, and the page tables that are missing are skipped. -/
theorem deallocuvm_firstCtx : Distinct firstCtx.mem firstCtx.cur.pgdir ∧
    ∃ pd' s', deallocuvm firstCtx.cur.pgdir KERNBASE 0 firstCtx = .ok (0,pd') s' ∧
      Deallocated firstCtx s' firstCtx.cur.pgdir pd' KERNBASE 0 :=
  ⟨distinct_firstCtx,(deallocuvm_deallocates distinct_firstCtx (by decide) (by decide)).2⟩

end Range

end Xv6.Vm
