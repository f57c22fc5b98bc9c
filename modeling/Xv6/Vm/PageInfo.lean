import Mathlib

/-! # The report on the user pages

`getpgdirinfo` goes over the directory and over every table in it. It counts all the pages that the
user may use and reports the first of them, in the order of their addresses.
-/
namespace Xv6.PageInfo
open Function

abbrev Word := BitVec 32
abbrev NPDENTRIES : ℕ := 1024
abbrev NPTENTRIES : ℕ := 1024
abbrev PGSIZE : Word := 4096
abbrev PTE_P : Word := 0x001
abbrev PTE_U : Word := 0x004
abbrev KERNBASE : Word := 0x80000000
abbrev MAX_UPAGE_INFO : ℕ := 32

def PTE_ADDR (pte : Word) : Word := pte &&& ~~~ 0xFFF#32
def PDX (va : Word) : Word := va >>> 22 &&& 0x3FF
def PTX (va : Word) : Word := va >>> 12 &&& 0x3FF
def P2V (a : Word) : Word := a+KERNBASE

section Functions

structure Pgdirinfo where
  n_upages : Word
  va : ℕ → Word
  pa : ℕ → Word

variable (word : Word → Word)

def entry (table : Word) (i : ℕ) : Word := word (table+4*BitVec.ofNat 32 i)

def allowed (pte : Word) : Bool := decide (pte &&& PTE_P ≠ 0) && decide (pte &&& PTE_U ≠ 0)

def note (s : Word × Pgdirinfo) (va pa : Word) : Word × Pgdirinfo :=
  (s.1+1,if s.1.toNat < MAX_UPAGE_INFO then
    { s.2 with va := Function.update s.2.va s.1.toNat va, pa := Function.update s.2.pa s.1.toNat pa } else s.2)

def tableLoop (i : ℕ) (pgtab : Word) (s : Word × Pgdirinfo) : Word × Pgdirinfo :=
  (List.range NPTENTRIES).foldl (fun s j =>
    if allowed (entry word pgtab j) then
      note s (BitVec.ofNat 32 i*PGSIZE*BitVec.ofNat 32 NPTENTRIES+BitVec.ofNat 32 j*PGSIZE) (PTE_ADDR (entry word pgtab j))
    else s) s

def directoryLoop (pgdir : Word) (s : Word × Pgdirinfo) : Word × Pgdirinfo :=
  (List.range NPDENTRIES).foldl (fun s i =>
    if allowed (entry word pgdir i) then tableLoop word i (P2V (PTE_ADDR (entry word pgdir i))) s else s) s

def getpgdirinfo (pgdir : Word) (pdinfo : Pgdirinfo) : Pgdirinfo :=
  let s := directoryLoop word pgdir (0,pdinfo)
  { s.2 with n_upages := s.1 }

end Functions

section Pages
variable (word : Word → Word) (pgdir : Word)

def pde (va : Word) : Word := word (pgdir+4*PDX va)

def pte (va : Word) : Word := word (P2V (PTE_ADDR (pde word pgdir va))+4*PTX va)

def UserPage (va : Word) : Prop :=
  va &&& 0xFFF = 0 ∧ allowed (pde word pgdir va) = true ∧ allowed (pte word pgdir va) = true

end Pages

section Addresses
variable {i j : ℕ} {va : Word}

def pageOf (i j : ℕ) : Word := BitVec.ofNat 32 i*PGSIZE*BitVec.ofNat 32 NPTENTRIES+BitVec.ofNat 32 j*PGSIZE

theorem toNat_pageOf (hi : i < NPDENTRIES) (hj : j < NPTENTRIES) : (pageOf i j).toNat = i*2^22+j*2^12 := by
  have hi : i < 1024 := hi
  have hj : j < 1024 := hj
  have hsize : PGSIZE.toNat = 4096 := rfl
  have hentries : NPTENTRIES%2^32 = 1024 := rfl
  unfold pageOf
  simp only [BitVec.toNat_add,BitVec.toNat_mul,BitVec.toNat_ofNat,hsize,hentries]
  omega

theorem toNat_PDX (va : Word) : (PDX va).toNat = va.toNat/2^22 := by
  have h := va.isLt
  have hmask : (0x3FF : Word).toNat = 2^10-1 := rfl
  rw [PDX,BitVec.toNat_and,BitVec.toNat_ushiftRight,hmask,Nat.and_two_pow_sub_one_eq_mod,Nat.shiftRight_eq_div_pow]
  omega

theorem toNat_PTX (va : Word) : (PTX va).toNat = va.toNat/2^12%2^10 := by
  have hmask : (0x3FF : Word).toNat = 2^10-1 := rfl
  rw [PTX,BitVec.toNat_and,BitVec.toNat_ushiftRight,hmask,Nat.and_two_pow_sub_one_eq_mod,Nat.shiftRight_eq_div_pow]

theorem aligned_iff (va : Word) : va &&& 0xFFF = 0 ↔ va.toNat%2^12 = 0 := by
  have hmask : (0xFFF : Word).toNat = 2^12-1 := rfl
  rw [← BitVec.toNat_inj,BitVec.toNat_and,hmask,Nat.and_two_pow_sub_one_eq_mod]
  rfl

theorem PDX_pageOf (hi : i < NPDENTRIES) (hj : j < NPTENTRIES) : PDX (pageOf i j) = BitVec.ofNat 32 i := by
  rw [← BitVec.toNat_inj,toNat_PDX,toNat_pageOf hi hj,BitVec.toNat_ofNat]
  have hi : i < 1024 := hi
  have hj : j < 1024 := hj
  omega

theorem PTX_pageOf (hi : i < NPDENTRIES) (hj : j < NPTENTRIES) : PTX (pageOf i j) = BitVec.ofNat 32 j := by
  rw [← BitVec.toNat_inj,toNat_PTX,toNat_pageOf hi hj,BitVec.toNat_ofNat]
  have hi : i < 1024 := hi
  have hj : j < 1024 := hj
  omega

theorem pageOf_PDX_PTX (h : va &&& 0xFFF = 0) : pageOf (PDX va).toNat (PTX va).toNat = va := by
  have hlt := va.isLt
  have hi : (PDX va).toNat < NPDENTRIES := by
    rw [toNat_PDX]
    change _ < 1024
    omega
  have hj : (PTX va).toNat < NPTENTRIES := by
    rw [toNat_PTX]
    change _ < 1024
    omega
  rw [← BitVec.toNat_inj,toNat_pageOf hi hj,toNat_PDX,toNat_PTX]
  have halign := (aligned_iff va).mp h
  omega

end Addresses

section Loops

def notes (s : Word × Pgdirinfo) (xs : List (Word × Word)) : Word × Pgdirinfo := xs.foldl (fun s p => note s p.1 p.2) s

variable (word : Word → Word) (pgdir : Word)

def tablePages (i : ℕ) (pgtab : Word) : List (Word × Word) :=
  ((List.range NPTENTRIES).filter fun j => allowed (entry word pgtab j)).map
    fun j => (pageOf i j,PTE_ADDR (entry word pgtab j))

def pages : List (Word × Word) := (List.range NPDENTRIES).flatMap fun i =>
  if allowed (entry word pgdir i) then tablePages word i (P2V (PTE_ADDR (entry word pgdir i))) else []

theorem tableLoop_eq (i : ℕ) (pgtab : Word) (s : Word × Pgdirinfo) :
    tableLoop word i pgtab s = notes s (tablePages word i pgtab) := by
  rw [notes,tablePages,List.foldl_map,List.foldl_filter]
  rfl

theorem directoryLoop_eq (s : Word × Pgdirinfo) :
    directoryLoop word pgdir s = notes s (pages word pgdir) := by
  rw [notes,pages,List.foldl_flatMap]
  refine congrArg (fun f => List.foldl f s (List.range NPDENTRIES)) ?_
  funext s i
  split
  · exact tableLoop_eq word i _ s
  · rfl

theorem length_tablePages (i : ℕ) (pgtab : Word) : (tablePages word i pgtab).length ≤ 2^10 := by
  rw [tablePages,List.length_map]
  exact (List.length_filter_le _ _).trans (by rw [List.length_range]; decide)

theorem length_pages : (pages word pgdir).length ≤ 2^20 := by
  rw [pages,List.length_flatMap]
  refine (List.sum_le_card_nsmul _ (2^10) fun n hn => ?_).trans (by rw [List.length_map,List.length_range]; decide)
  obtain ⟨i,-,rfl⟩ := List.mem_map.mp hn
  split
  · exact length_tablePages word i _
  · exact Nat.zero_le _

theorem pages_sorted : (pages word pgdir).Pairwise fun p q => p.1 < q.1 := by
  have htable : ∀ i p, i ∈ List.range NPDENTRIES → p ∈ (if allowed (entry word pgdir i) then
      tablePages word i (P2V (PTE_ADDR (entry word pgdir i))) else []) → ∃ j < NPTENTRIES, p.1 = pageOf i j := by
    intro i p _ hp
    split at hp
    · obtain ⟨j,hj,rfl⟩ := List.mem_map.mp hp
      exact ⟨j,List.mem_range.mp (List.mem_filter.mp hj).1,rfl⟩
    · cases hp
  refine List.pairwise_flatMap.mpr ⟨fun i hi => ?_,?_⟩
  · split
    · refine List.pairwise_map.mpr ((List.pairwise_lt_range.filter _).imp_of_mem fun {j k} hj hk hlt => ?_)
      have hi := List.mem_range.mp hi
      have hj := List.mem_range.mp (List.mem_filter.mp hj).1
      have hk := List.mem_range.mp (List.mem_filter.mp hk).1
      rw [BitVec.lt_def,toNat_pageOf hi hj,toNat_pageOf hi hk]
      omega
    · exact List.Pairwise.nil
  · refine List.pairwise_lt_range.imp_of_mem fun {i k} hi hk hlt p hp q hq => ?_
    obtain ⟨j,hj,hpj⟩ := htable i p hi hp
    obtain ⟨l,hl,hql⟩ := htable k q hk hq
    rw [hpj,hql,BitVec.lt_def,toNat_pageOf (List.mem_range.mp hi) hj,toNat_pageOf (List.mem_range.mp hk) hl]
    have hj : j < 1024 := hj
    omega

/-- The pages that the loops visit are the pages that the user may use, and they come with their frames. -/
theorem mem_pages {p : Word × Word} :
    p ∈ pages word pgdir ↔ UserPage word pgdir p.1 ∧ p.2 = PTE_ADDR (pte word pgdir p.1) := by
  constructor
  · intro hp
    obtain ⟨i,hi,hp⟩ := List.mem_flatMap.mp hp
    have hi := List.mem_range.mp hi
    by_cases hdir : allowed (entry word pgdir i) = true
    · rw [if_pos hdir] at hp
      obtain ⟨j,hj,rfl⟩ := List.mem_map.mp hp
      obtain ⟨hj,htab⟩ := List.mem_filter.mp hj
      have hj := List.mem_range.mp hj
      have hpde : pde word pgdir (pageOf i j) = entry word pgdir i := by rw [pde,PDX_pageOf hi hj,entry]
      have hpte : pte word pgdir (pageOf i j) = entry word (P2V (PTE_ADDR (entry word pgdir i))) j := by
        rw [pte,hpde,PTX_pageOf hi hj]
        rfl
      refine ⟨⟨?_,?_,?_⟩,?_⟩
      · rw [aligned_iff,toNat_pageOf hi hj]
        omega
      · rw [hpde]
        exact hdir
      · rw [hpte]
        exact htab
      · rw [hpte]
    · rw [if_neg hdir] at hp
      cases hp
  · obtain ⟨va,pa⟩ := p
    rintro ⟨⟨halign,hdir,htab⟩,hpa⟩
    dsimp only at halign hdir htab hpa
    subst hpa
    have hlt := va.isLt
    have hi : (PDX va).toNat < 1024 := by
      rw [toNat_PDX]
      omega
    have hj : (PTX va).toNat < 1024 := by
      rw [toNat_PTX]
      omega
    have hpde : entry word pgdir (PDX va).toNat = pde word pgdir va := by
      rw [entry,BitVec.ofNat_toNat,BitVec.setWidth_eq,pde]
    have hpte : entry word (P2V (PTE_ADDR (pde word pgdir va))) (PTX va).toNat = pte word pgdir va := by
      rw [entry,BitVec.ofNat_toNat,BitVec.setWidth_eq,pte]
    refine List.mem_flatMap.mpr ⟨(PDX va).toNat,List.mem_range.mpr hi,?_⟩
    rw [hpde,if_pos hdir]
    refine List.mem_map.mpr ⟨(PTX va).toNat,List.mem_filter.mpr ⟨List.mem_range.mpr hj,?_⟩,?_⟩
    · rw [hpte]
      exact htab
    · rw [hpte,pageOf_PDX_PTX halign]

end Loops

section Notes
variable {s : Word × Pgdirinfo} {xs : List (Word × Word)}

theorem count_note (h : s.1.toNat+1 < 2^32) (va pa : Word) : (note s va pa).1.toNat = s.1.toNat+1 := by
  change (s.1+1).toNat = _
  rw [BitVec.toNat_add]
  exact Nat.mod_eq_of_lt h

theorem count_notes (h : s.1.toNat+xs.length < 2^32) : (notes s xs).1.toNat = s.1.toNat+xs.length := by
  induction xs generalizing s with
  | nil => rfl
  | cons p xs ih =>
    rw [List.length_cons] at h
    have hstep := count_note (s := s) (by omega) p.1 p.2
    rw [notes,List.foldl_cons,← notes,ih (by omega),hstep,List.length_cons]
    omega

/-- Neither the places before the count nor those behind the new pages or the array change. -/
theorem notes_frame (h : s.1.toNat+xs.length < 2^32) {k : ℕ}
    (hk : k < s.1.toNat ∨ s.1.toNat+xs.length ≤ k ∨ MAX_UPAGE_INFO ≤ k) :
    (notes s xs).2.va k = s.2.va k ∧ (notes s xs).2.pa k = s.2.pa k := by
  induction xs generalizing s with
  | nil => exact ⟨rfl,rfl⟩
  | cons p xs ih =>
    rw [List.length_cons] at h hk
    have hstep := count_note (s := s) (by omega) p.1 p.2
    rw [notes,List.foldl_cons,← notes]
    obtain ⟨hva,hpa⟩ := ih (s := note s p.1 p.2) (by omega) (by omega)
    rw [hva,hpa,note]
    dsimp only
    by_cases hroom : s.1.toNat < MAX_UPAGE_INFO
    · rw [if_pos hroom]
      have hne : k ≠ s.1.toNat := by omega
      exact ⟨update_of_ne hne ..,update_of_ne hne ..⟩
    · rw [if_neg hroom]
      exact ⟨rfl,rfl⟩

theorem notes_apply (h : s.1.toNat+xs.length < 2^32) {k : ℕ} {p : Word × Word} (hp : xs[k]? = some p)
    (hk : s.1.toNat+k < MAX_UPAGE_INFO) :
    (notes s xs).2.va (s.1.toNat+k) = p.1 ∧ (notes s xs).2.pa (s.1.toNat+k) = p.2 := by
  induction xs generalizing s k with
  | nil => cases hp
  | cons q xs ih =>
    rw [List.length_cons] at h
    have hstep := count_note (s := s) (by omega) q.1 q.2
    rw [notes,List.foldl_cons,← notes]
    cases k with
    | zero =>
      obtain rfl : q = p := Option.some.inj hp
      have hnext : (note s q.1 q.2).1.toNat+xs.length < 2^32 := by omega
      obtain ⟨hva,hpa⟩ := notes_frame hnext (k := s.1.toNat) (by omega)
      rw [Nat.add_zero,hva,hpa,note]
      dsimp only
      rw [if_pos (by omega)]
      exact ⟨update_self ..,update_self ..⟩
    | succ k =>
      have hnext := ih (s := note s q.1 q.2) (k := k) (by omega) hp (by omega)
      rw [hstep,Nat.add_assoc,Nat.add_comm 1 k] at hnext
      exact hnext

end Notes

/-- The report counts all the pages that the user may use and lists the lowest of them, in order, with their frames;
no other place of the arrays is written. -/
theorem pages_reported (word : Word → Word) (pgdir : Word) (pdinfo : Pgdirinfo) :
    ∃ l : List Word, l.Pairwise (· < ·) ∧ (∀ va, va ∈ l ↔ UserPage word pgdir va) ∧
      (getpgdirinfo word pgdir pdinfo).n_upages.toNat = l.length ∧
      (∀ k va, l[k]? = some va → k < MAX_UPAGE_INFO → (getpgdirinfo word pgdir pdinfo).va k = va ∧
        (getpgdirinfo word pgdir pdinfo).pa k = PTE_ADDR (pte word pgdir va)) ∧
      ∀ k, min l.length MAX_UPAGE_INFO ≤ k → (getpgdirinfo word pgdir pdinfo).va k = pdinfo.va k ∧
        (getpgdirinfo word pgdir pdinfo).pa k = pdinfo.pa k := by
  have hlen := length_pages word pgdir
  have hbound : (0 : Word).toNat+(pages word pgdir).length < 2^32 := by
    change 0+(pages word pgdir).length < 2^32
    omega
  have hinfo : getpgdirinfo word pgdir pdinfo = { (notes (0,pdinfo) (pages word pgdir)).2 with
      n_upages := (notes (0,pdinfo) (pages word pgdir)).1 } := by
    unfold getpgdirinfo
    rw [directoryLoop_eq]
  have hmem := fun p => mem_pages word pgdir (p := p)
  have hsorted := pages_sorted word pgdir
  rw [hinfo]
  generalize pages word pgdir = xs at hlen hbound hmem hsorted
  refine ⟨xs.map Prod.fst,List.pairwise_map.mpr hsorted,fun va => ?_,?_,fun k va hk hroom => ?_,fun k hk => ?_⟩
  · rw [List.mem_map]
    constructor
    · rintro ⟨p,hp,rfl⟩
      exact ((hmem p).mp hp).1
    · exact fun h => ⟨(va,PTE_ADDR (pte word pgdir va)),(hmem _).mpr ⟨h,rfl⟩,rfl⟩
  · rw [List.length_map]
    exact (count_notes hbound).trans (Nat.zero_add _)
  · rw [List.getElem?_map,Option.map_eq_some_iff] at hk
    obtain ⟨p,hp,rfl⟩ := hk
    have hframe := ((hmem p).mp (List.mem_of_getElem? hp)).2
    have happly := notes_apply (s := (0,pdinfo)) hbound hp (by change 0+k < _; omega)
    rw [show (0 : Word).toNat+k = k from Nat.zero_add k] at happly
    rw [← hframe]
    exact happly
  · rw [List.length_map] at hk
    refine notes_frame (s := (0,pdinfo)) hbound (.inr ?_)
    rw [show (0 : Word).toNat+xs.length = xs.length from Nat.zero_add _]
    omega

end Xv6.PageInfo
