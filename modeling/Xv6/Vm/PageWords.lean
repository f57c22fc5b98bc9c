import Xv6.Kernel.PageMap

/-! # `mappages` on page table words

The entries are words here, and the loop of `mappages` ends where its pointer equals the last page. Any call
of `kalloc` may fail. The entry of an address without a page table counts as 0.
-/
namespace Xv6.Vm.Words
open Wmap Kernel Function

def PTE_P : Word := 1
def PTE_ADDR (pte : Word) : Word := pte &&& ~~~0xFFF
def PTE_FLAGS (pte : Word) : Word := pte &&& 0xFFF

structure Pgdir where
  pde : Fin NPDENTRIES → Option (Fin NPTENTRIES → Word)
  kallocs : ℕ

section Code
variable (fails : ℕ → Bool)

def walkpgdir (d : Pgdir) (va : Word) : Bool × Pgdir :=
  match d.pde (PDX va) with
  | some _ => (true,d)
  | none =>
    if fails d.kallocs then (false,{ d with kallocs := d.kallocs+1 })
    else (true,⟨update d.pde (PDX va) (some fun _ => 0),d.kallocs+1⟩)

def Pgdir.pte (d : Pgdir) (va : Word) : Word := ((d.pde (PDX va)).map fun t => t (PTX va)).getD 0

def Pgdir.setPte (d : Pgdir) (va pte : Word) : Pgdir :=
  { d with pde := update d.pde (PDX va) ((d.pde (PDX va)).map fun t => update t (PTX va) pte) }

/-- The loop of `mappages`; the result is nothing if it has not ended after so many rounds. -/
def mapLoop (perm last : Word) : ℕ → Pgdir → Word → Word → Option (ℤ × Pgdir)
  | 0, _, _, _ => none
  | fuel+1, d, a, pa =>
    let (found,d) := walkpgdir fails d a
    if found = false then some (-1,d)
    else if d.pte a &&& PTE_P ≠ 0 then some (-1,d)
    else
      let d := d.setPte a (pa ||| perm ||| PTE_P)
      if a = last then some (0,d) else mapLoop perm last fuel d (a+4096) (pa+4096)

def mappages (d : Pgdir) (va size pa perm : Word) : Option (ℤ × Pgdir) :=
  mapLoop fails perm (PGROUNDDOWN (va+size-1)) (2^20) d (PGROUNDDOWN va) pa

end Code

section Entries
variable {fails : ℕ → Bool} {d d' : Pgdir} {a x pte : Word}

theorem walkpgdir_pte (fails : ℕ → Bool) (d : Pgdir) (a : Word) : (walkpgdir fails d a).2.pte = d.pte := by
  funext x
  unfold walkpgdir
  cases hd : d.pde (PDX a) with
  | some t => rfl
  | none =>
    dsimp only
    split
    · rfl
    · by_cases hx : PDX x = PDX a
      · simp [Pgdir.pte,hx,hd]
      · simp [Pgdir.pte,hx]

theorem walkpgdir_failed (h : (walkpgdir fails d a).1 = false) :
    fails d.kallocs = true ∧ d.pde (PDX a) = none ∧ (walkpgdir fails d a).2.kallocs = d.kallocs+1 := by
  unfold walkpgdir at h ⊢
  cases hd : d.pde (PDX a) with
  | some t =>
    rw [hd] at h
    cases h
  | none =>
    rw [hd] at h
    dsimp only at h ⊢
    split at h
    · rename_i hfail
      rw [if_pos hfail]
      exact ⟨hfail,rfl,rfl⟩
    · cases h

theorem walkpgdir_found (h : (walkpgdir fails d a).1 = true) : ((walkpgdir fails d a).2.pde (PDX a)).isSome := by
  unfold walkpgdir at h ⊢
  cases hd : d.pde (PDX a) with
  | some t => simp [hd]
  | none =>
    rw [hd] at h
    dsimp only at h ⊢
    split at h
    · cases h
    · rename_i hfail
      rw [if_neg hfail]
      simp

theorem setPte_pte (hsome : (d.pde (PDX a)).isSome) (x : Word) :
    (d.setPte a pte).pte x = if x.toNat/4096 = a.toNat/4096 then pte else d.pte x := by
  obtain ⟨t,ht⟩ := Option.isSome_iff_exists.mp hsome
  by_cases hpage : x.toNat/4096 = a.toNat/4096
  · obtain ⟨hd,hi⟩ := page_indices hpage
    simp [Pgdir.setPte,Pgdir.pte,hd,hi,ht,hpage]
  · rw [if_neg hpage]
    by_cases hd : PDX x = PDX a
    · have hi : PTX x ≠ PTX a := fun hi => hpage (same_page hd hi)
      simp [Pgdir.setPte,Pgdir.pte,hd,hi,ht]
    · simp [Pgdir.setPte,Pgdir.pte,hd]

/-- An aligned address and flags below it can be told apart in an entry. -/
theorem pte_fields {pa perm : Word} (hpa : pa.toNat % 4096 = 0) (hperm : perm.toNat < 4096) :
    PTE_ADDR (pa ||| perm ||| PTE_P) = pa ∧ PTE_FLAGS (pa ||| perm ||| PTE_P) = perm ||| PTE_P := by
  have hone : PTE_P.toNat = 1 := rfl
  constructor
  · apply BitVec.eq_of_toNat_eq
    change (PGROUNDDOWN _).toNat = _
    rw [PGROUNDDOWN_toNat,BitVec.toNat_or,BitVec.toNat_or,hone,Nat.or_div_two_pow (n := 12),Nat.or_div_two_pow (n := 12),
      Nat.div_eq_of_lt hperm]
    simp only [Nat.or_zero,Nat.reducePow,Nat.reduceDiv]
    omega
  · apply BitVec.eq_of_toNat_eq
    have hmask : (0xFFF : Word).toNat = 2^12-1 := rfl
    rw [PTE_FLAGS,BitVec.toNat_and,hmask,Nat.and_two_pow_sub_one_eq_mod,BitVec.toNat_or,BitVec.toNat_or,BitVec.toNat_or,
      hone,Nat.or_mod_two_pow,Nat.or_mod_two_pow]
    simp only [Nat.reducePow,hpa,Nat.zero_or,Nat.mod_eq_of_lt hperm,Nat.reduceMod]

end Entries

section Mapping
variable {fails : ℕ → Bool} {d d' : Pgdir} {a pa perm last : Word} {n m fuel : ℕ} {r : ℤ}

/-- What `mappages` has done to the `n` pages from `a` on when it returns: it has mapped the first `m` of them,
and if these are not all, the next one was present or there was no memory for its page table. -/
structure Mapped (fails : ℕ → Bool) (d d' : Pgdir) (a pa perm : Word) (n m : ℕ) (r : ℤ) : Prop where
  result : r = 0 ∧ m = n ∨ r = -1 ∧ m < n ∧ (d.pte (pageAt a m) &&& PTE_P ≠ 0 ∨
    ∃ k, fails k = true ∧ d'.kallocs = k+1 ∧ d'.pde (PDX (pageAt a m)) = none)
  absent : ∀ k < m, d.pte (pageAt a k) &&& PTE_P = 0
  entry : ∀ k < m, d'.pte (pageAt a k) = (pa+BitVec.ofNat 32 (4096*k)) ||| perm ||| PTE_P
  others : ∀ x : Word, (∀ k < m, x.toNat/4096 ≠ (pageAt a k).toNat/4096) → d'.pte x = d.pte x

theorem Mapped.stop (hr : r = -1) (hn : 0 < n) (hpte : d'.pte = d.pte) (hwhy : d.pte a &&& PTE_P ≠ 0 ∨
    ∃ k, fails k = true ∧ d'.kallocs = k+1 ∧ d'.pde (PDX a) = none) : Mapped fails d d' a pa perm n 0 r where
  result := .inr ⟨hr,hn,by rw [pageAt_zero]; exact hwhy⟩
  absent _ hk := absurd hk (Nat.not_lt_zero _)
  entry _ hk := absurd hk (Nat.not_lt_zero _)
  others x _ := congrFun hpte x

/-- One round maps the first page; the rest is the work of the rounds that follow. -/
theorem Mapped.cons {d₁ : Pgdir} (hend : a.toNat+4096*n < 2^32) (hm : m ≤ n) (habsent : d.pte a &&& PTE_P = 0)
    (hset : ∀ x : Word, d₁.pte x = if x.toNat/4096 = a.toNat/4096 then pa ||| perm ||| PTE_P else d.pte x)
    (h : Mapped fails d₁ d' (a+4096) (pa+4096) perm n m r) : Mapped fails d d' a pa perm (n+1) (m+1) r := by
  have hnum : ∀ k ≤ n, (pageAt a k).toNat/4096 = a.toNat/4096+k := fun k hk => by
    rw [pageAt_toNat (by omega)]
    omega
  have hother : ∀ k ≤ n, 0 < k → d₁.pte (pageAt a k) = d.pte (pageAt a k) := fun k hk hpos => by
    have := hnum k hk
    rw [hset,if_neg (by omega)]
  refine ⟨?_,fun k hk => ?_,fun k hk => ?_,fun x hx => ?_⟩
  · rcases h.result with ⟨hr,hmn⟩ | ⟨hr,hlt,hwhy⟩
    · exact .inl ⟨hr,congrArg (·+1) hmn⟩
    · rw [pageAt_succ,hother (m+1) hlt (Nat.succ_pos m)] at hwhy
      exact .inr ⟨hr,Nat.succ_lt_succ hlt,hwhy⟩
  · cases k with
    | zero =>
      rw [pageAt_zero]
      exact habsent
    | succ k =>
      have := h.absent k (by omega)
      rwa [pageAt_succ,hother (k+1) (by omega) (Nat.succ_pos k)] at this
  · cases k with
    | zero =>
      rw [pageAt_zero,h.others a fun k hk => ?_,hset,if_pos rfl]
      · simp
      · have := hnum (k+1) (by omega)
        rw [pageAt_succ]
        omega
    | succ k =>
      have := h.entry k (by omega)
      change _ = pageAt (pa+4096) k ||| perm ||| PTE_P at this
      rw [pageAt_succ,pageAt_succ] at this
      exact this
  · have hfirst := hx 0 (Nat.succ_pos m)
    rw [pageAt_zero] at hfirst
    rw [h.others x fun k hk => ?_,hset,if_neg hfirst]
    rw [pageAt_succ]
    exact hx (k+1) (Nat.succ_lt_succ hk)

theorem mapLoop_spec (fails : ℕ → Bool) (d : Pgdir) (pa perm : Word) (fuel : ℕ)
    (hlast : last.toNat = a.toNat+4096*n) (hfuel : n < fuel) :
    ∃ r d' m, mapLoop fails perm last fuel d a pa = some (r,d') ∧ m ≤ n+1 ∧ Mapped fails d d' a pa perm (n+1) m r := by
  induction fuel generalizing d a pa n with
  | zero => omega
  | succ fuel ih =>
    have hbound := last.isLt
    have hpte := walkpgdir_pte fails d a
    rw [mapLoop]
    cases hfound : (walkpgdir fails d a).1 with
    | false =>
      obtain ⟨hfail,hnone,hcount⟩ := walkpgdir_failed hfound
      refine ⟨-1,(walkpgdir fails d a).2,0,if_pos hfound,Nat.zero_le _,.stop rfl (Nat.succ_pos n) hpte (.inr ?_)⟩
      refine ⟨d.kallocs,hfail,hcount,?_⟩
      simp [walkpgdir,hnone,hfail]
    | true =>
      have hsome := walkpgdir_found hfound
      dsimp only
      rw [if_neg (by simp [hfound])]
      by_cases hpres : d.pte a &&& PTE_P = 0
      · rw [if_neg (by rw [hpte]; exact not_not.mpr hpres)]
        have hset : ∀ x : Word, ((walkpgdir fails d a).2.setPte a (pa ||| perm ||| PTE_P)).pte x =
            if x.toNat/4096 = a.toNat/4096 then pa ||| perm ||| PTE_P else d.pte x := by
          intro x
          rw [setPte_pte hsome,hpte]
        by_cases hend : a = last
        · have hzero : n = 0 := by
            rw [hend] at hlast
            omega
          subst hzero
          rw [if_pos hend]
          refine ⟨0,_,1,rfl,le_rfl,.cons (n := 0) (m := 0) (by omega) le_rfl hpres hset ?_⟩
          exact ⟨.inl ⟨rfl,rfl⟩,by simp,by simp,fun _ _ => rfl⟩
        · obtain ⟨n,rfl⟩ : ∃ k, n = k+1 := by
            refine ⟨n-1,?_⟩
            have : n ≠ 0 := fun h0 => hend (BitVec.eq_of_toNat_eq (by omega))
            omega
          have hnext := page_succ (a := a) (by omega)
          obtain ⟨r,d',m,hrun,hm,hmap⟩ := ih ((walkpgdir fails d a).2.setPte a (pa ||| perm ||| PTE_P)) (pa+4096)
            (a := a+4096) (n := n) (by omega) (by omega)
          rw [if_neg hend]
          exact ⟨r,d',m+1,hrun,by omega,.cons (by omega) hm hpres hset hmap⟩
      · rw [if_pos (by rw [hpte]; exact hpres)]
        exact ⟨-1,_,0,rfl,Nat.zero_le _,.stop rfl (Nat.succ_pos n) hpte (.inl hpres)⟩

/-- `mappages` maps the pages of the range in order, all of them or up to an obstacle, and nothing else. -/
theorem mappages_maps (fails : ℕ → Bool) (d : Pgdir) (va size pa perm : Word) (hsize : 1 ≤ size.toNat)
    (hwrap : va.toNat+size.toNat-1 < 2^32) :
    ∃ n r d' m, (PGROUNDDOWN (va+size-1)).toNat = (PGROUNDDOWN va).toNat+4096*n ∧
      mappages fails d va size pa perm = some (r,d') ∧
      Mapped fails d d' (PGROUNDDOWN va) pa perm (n+1) m r ∧
      ∀ k < m, pa.toNat % 4096 = 0 → perm.toNat < 4096 →
        PTE_ADDR (d'.pte (pageAt (PGROUNDDOWN va) k)) = pa+BitVec.ofNat 32 (4096*k) ∧
        PTE_FLAGS (d'.pte (pageAt (PGROUNDDOWN va) k)) = perm ||| PTE_P := by
  have hone : (1 : Word).toNat = 1 := rfl
  have hend : (va+size-1).toNat = va.toNat+size.toNat-1 := by
    rw [BitVec.toNat_sub,BitVec.toNat_add,hone]
    have := va.isLt
    omega
  have hlast : (PGROUNDDOWN (va+size-1)).toNat =
      (PGROUNDDOWN va).toNat+4096*((va.toNat+size.toNat-1)/4096-va.toNat/4096) := by
    rw [PGROUNDDOWN_toNat,PGROUNDDOWN_toNat,hend]
    omega
  obtain ⟨r,d',m,hrun,-,hmap⟩ := mapLoop_spec fails d pa perm (2^20) hlast (by omega)
  refine ⟨_,r,d',m,hlast,hrun,hmap,fun k hk hpa hperm => ?_⟩
  rw [hmap.entry k hk]
  refine pte_fields ?_ hperm
  rw [BitVec.toNat_add,BitVec.toNat_ofNat]
  omega

/-- The range of the devices ends at the top of the address space. -/
theorem mappages_maps_devices : ∃ n r d' m,
    mappages (fun _ => false) ⟨fun _ => none,0⟩ 0xFE000000 0x2000000 0xFE000000 2 = some (r,d') ∧
      Mapped (fun _ => false) ⟨fun _ => none,0⟩ d' (PGROUNDDOWN 0xFE000000) 0xFE000000 2 (n+1) m r := by
  obtain ⟨n,r,d',m,-,hrun,hmap,-⟩ := mappages_maps (fun _ => false) ⟨fun _ => none,0⟩ 0xFE000000 0x2000000 0xFE000000 2
    (by decide) (by decide)
  exact ⟨n,r,d',m,hrun,hmap⟩

end Mapping
end Xv6.Vm.Words
