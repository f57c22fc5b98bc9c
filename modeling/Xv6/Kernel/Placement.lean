import Xv6.Kernel.PageMap
import Xv6.Kernel.Returns
import Xv6.Wmap.Ranges

/-! # Where new mappings are placed

The search of `wmap` in a laid-out table. Every address it moves on to lies behind the
one before, so it never comes round to its start, and the range it settles on is free.
-/
namespace Xv6.Kernel
open Wmap Program
variable {t : Table} {a addr base round length : Word} {n : ℕ} {p : Ptr}

section Scan

theorem scan_none (h : scan t n a = .ok none) : ∀ k < n, pageInMappings t (pageAt a k) = .ok none := by
  induction n generalizing a with
  | zero =>
    intro k hk
    omega
  | succ n ih =>
    obtain ⟨r,hr,h'⟩ := bind_ok h
    cases r with
    | some q => cases h'
    | none =>
      intro k hk
      cases k with
      | zero =>
        rw [pageAt_zero]
        exact hr
      | succ k =>
        rw [← pageAt_succ]
        exact ih h' k (by omega)

theorem scan_some (h : scan t n a = .ok (some p)) : ∃ k < n, pageInMappings t (pageAt a k) = .ok (some p) ∧
    ∀ j < k, pageInMappings t (pageAt a j) = .ok none := by
  induction n generalizing a with
  | zero => cases h
  | succ n ih =>
    obtain ⟨r,hr,h'⟩ := bind_ok h
    cases r with
    | some q =>
      cases h'
      refine ⟨0,by omega,?_,by omega⟩
      rw [pageAt_zero]
      exact hr
    | none =>
      obtain ⟨k,hk,hfound,hbefore⟩ := ih h'
      refine ⟨k+1,by omega,?_,?_⟩
      · rw [← pageAt_succ]
        exact hfound
      · intro j hj
        cases j with
        | zero =>
          rw [pageAt_zero]
          exact hr
        | succ j =>
          rw [← pageAt_succ]
          exact hbefore j (by omega)

theorem lastPage_undefined : slotOf 0xFFFFF000 = .error .undefined := by decide

/-- Pages that can be looked up do not reach the end of the address space. -/
theorem no_wrap (ha : a.toNat % 4096 = 0) (h : ∀ k < n, ∃ r, pageInMappings t (pageAt a k) = .ok r) :
    a.toNat+4096*n < 2^32 := by
  by_contra hlt
  have hk : (0xFFFFF000-a.toNat)/4096 < n := by omega
  obtain ⟨r,hr⟩ := h _ hk
  obtain ⟨i,hi⟩ := pageInMappings_slot hr
  have hlast : pageAt a ((0xFFFFF000-a.toNat)/4096) = 0xFFFFF000 := by
    apply BitVec.eq_of_toNat_eq
    have := a.isLt
    have hword : (0xFFFFF000 : Word).toNat = 0xFFFFF000 := rfl
    rw [pageAt_toNat (by omega),hword]
    omega
  rw [hlast,lastPage_undefined] at hi
  cases hi

theorem free_of_pages (hl : Ranged t) (ha : a.toNat % 4096 = 0) (hn : 0 < n)
    (h : ∀ k < n, pageInMappings t (pageAt a k) = .ok none) :
    ∀ e ∈ t.entries, a.toNat+4096*n ≤ e.startAddress.toNat ∨ e.limit ≤ a.toNat := by
  intro e he
  by_contra hmeet
  rw [not_or,Nat.not_le,Nat.not_le] at hmeet
  have hs := hl.paged e he
  have hwrap := no_wrap ha fun k hk => ⟨none,h k hk⟩
  have halign := hs.aligned
  have hlim := hs.limit_mod
  have hpos := hs.positive
  unfold Entry.limit at hmeet hlim
  have hk : (max a.toNat e.startAddress.toNat-a.toNat)/4096 < n := by omega
  apply hl.page_free (h _ hk) e he
  rw [pageAt_toNat (by omega)]
  unfold Entry.limit
  omega

end Scan

section Search

theorem nextPlace_none (h : nextPlace t round addr = .ok none) :
    0 < round.toInt ∧ ∀ k < round.toNat/4096, pageInMappings t (pageAt addr k) = .ok none := by
  unfold nextPlace at h
  split at h
  · rename_i hpos
    obtain ⟨r,hr,h'⟩ := bind_ok h
    cases r with
    | none => exact ⟨hpos,scan_none hr⟩
    | some q => cases h'
  · obtain ⟨r,hr,h'⟩ := bind_ok h
    cases r <;> cases h'

theorem nodeEnd_toNat (hs : Paged (t.entry p)) : (nodeEnd t p).toNat = (t.entry p).limit := hs.end_toNat

theorem no_wrap_found {k : ℕ} {r : Option Ptr} (ha : addr.toNat % 4096 = 0)
    (hbefore : ∀ j < k, pageInMappings t (pageAt addr j) = .ok none)
    (hfound : pageInMappings t (pageAt addr k) = .ok r) : addr.toNat+4096*(k+1) < 2^32 := by
  apply no_wrap ha
  intro j hj
  rcases Nat.lt_succ_iff_lt_or_eq.mp hj with hj | rfl
  · exact ⟨none,hbefore j hj⟩
  · exact ⟨_,hfound⟩

theorem nextPlace_some (hl : Ranged t) (ha : addr.toNat % 4096 = 0) {addr' : Word}
    (h : nextPlace t round addr = .ok (some addr')) : addr.toNat < addr'.toNat ∧ addr'.toNat % 4096 = 0 := by
  unfold nextPlace at h
  split at h
  · obtain ⟨r,hr,h'⟩ := bind_ok h
    cases r with
    | none => cases h'
    | some q =>
      cases h'
      obtain ⟨k,hk,hfound,hbefore⟩ := scan_some hr
      have hwrap := no_wrap_found ha hbefore hfound
      obtain ⟨-,hs,-,hlt⟩ := hl.page_found hfound
      rw [pageAt_toNat (by omega)] at hlt
      rw [nodeEnd_toNat hs]
      exact ⟨by omega,hs.limit_mod⟩
  · obtain ⟨r,hr,h'⟩ := bind_ok h
    have hwrap : addr.toNat+4096*1 < 2^32 := by
      apply no_wrap ha
      intro j hj
      obtain rfl : j = 0 := by omega
      rw [pageAt_zero]
      exact ⟨r,hr⟩
    cases r with
    | none =>
      obtain rfl : addr+0x1000 = addr' := Option.some.inj (Except.ok.inj h')
      have hword : (0x1000 : Word).toNat = 4096 := rfl
      have hnext : (addr+0x1000).toNat = addr.toNat+4096 := by
        rw [BitVec.toNat_add,hword]
        exact Nat.mod_eq_of_lt hwrap
      rw [hnext]
      omega
    | some q =>
      cases h'
      obtain ⟨-,hs,-,hlt⟩ := hl.page_found hr
      rw [nodeEnd_toNat hs]
      exact ⟨hlt,hs.limit_mod⟩

theorem placeLoop_ok (hl : Ranged t) {fuel : ℕ} (ha : addr.toNat % 4096 = 0) (hbase : base.toNat ≤ addr.toNat)
    (h : placeLoop t round base fuel addr = .ok a) : addr.toNat ≤ a.toNat ∧ a.toNat % 4096 = 0 ∧ 0 < round.toInt ∧
      ∀ k < round.toNat/4096, pageInMappings t (pageAt a k) = .ok none := by
  induction fuel generalizing addr with
  | zero => cases h
  | succ fuel ih =>
    obtain ⟨r,hr,h'⟩ := bind_ok h
    cases r with
    | none =>
      cases h'
      obtain ⟨hpos,hpages⟩ := nextPlace_none hr
      exact ⟨le_rfl,ha,hpos,hpages⟩
    | some addr' =>
      obtain ⟨hlt,halign⟩ := nextPlace_some hl ha hr
      dsimp only at h'
      split at h'
      · rename_i heq
        rw [heq] at hbase
        omega
      · obtain ⟨hle,hrest⟩ := ih halign (by omega) h'
        exact ⟨by omega,hrest⟩

end Search

section Round

theorem toNat_of_pos (h : 0 < length.toInt) : length.toNat < 2^31 ∧ 0 < length.toNat := by
  rw [BitVec.toInt_eq_toNat_cond] at h
  have := length.isLt
  split at h <;> omega

theorem srem_page (h : 0 < length.toInt) : (length.srem 4096).toNat = length.toNat % 4096 := by
  obtain ⟨hlt,-⟩ := toNat_of_pos h
  have hm : length.msb = false := BitVec.msb_eq_false_iff_two_mul_lt.mpr (by omega)
  have h4 : (4096 : Word).msb = false := by decide
  rw [BitVec.srem_eq,hm,h4]
  exact BitVec.toNat_umod

theorem roundLength_toNat (h : 0 < length.toInt) :
    (roundLength length).toNat = 4096*((length.toNat+4095)/4096) := by
  obtain ⟨hlt,hpos⟩ := toNat_of_pos h
  have hrem := srem_page h
  have h4 : (4096 : Word).toNat = 4096 := rfl
  unfold roundLength
  split
  · rename_i hne
    have hne' : length.toNat % 4096 ≠ 0 := by
      intro he
      apply hne
      apply BitVec.eq_of_toNat_eq
      rw [hrem,he]
      rfl
    rw [BitVec.toNat_add,BitVec.toNat_sub,hrem,h4]
    omega
  · rename_i heq
    rw [not_not] at heq
    rw [heq] at hrem
    have h0 : (0 : Word).toNat = 0 := rfl
    omega

theorem sdiv_extent (h : 0 < length.toInt) :
    ((roundLength length).sdiv 4096*4096).toNat = 4096*((length.toNat+4095)/4096) := by
  obtain ⟨hlt,hpos⟩ := toNat_of_pos h
  have hround := roundLength_toNat h
  have h4 : (4096 : Word).toNat = 4096 := rfl
  have h4m : (4096 : Word).msb = false := by decide
  by_cases hbig : (length.toNat+4095)/4096 = 2^19
  · have heq : roundLength length = 0x80000000 := by
      apply BitVec.eq_of_toNat_eq
      rw [hround,hbig]
      rfl
    rw [heq,hbig]
    decide
  · have hm : (roundLength length).msb = false := BitVec.msb_eq_false_iff_two_mul_lt.mpr (by omega)
    rw [BitVec.sdiv_eq,hm,h4m,BitVec.toNat_mul,h4]
    simp only [BitVec.toNat_udiv,BitVec.udiv_eq,h4,hround]
    omega

theorem pageCeil_of_pos (h : 0 < length.toInt) :
    pageCeil length.toInt = ((4096*((length.toNat+4095)/4096) : ℕ) : ℤ) := by
  obtain ⟨hlt,-⟩ := toNat_of_pos h
  rw [BitVec.toInt_eq_toNat_of_lt (by omega)]
  unfold pageCeil
  push_cast
  omega

theorem sound_new (a fd fl : Word) (h : 0 < length.toInt) (ha : a.toNat % 4096 = 0)
    (hfit : a.toNat+(pageCeil length.toInt).toNat < 2^32) :
    Sound ⟨a,(roundLength length).sdiv 4096,length,fd,fl,0⟩ ∧
      Entry.limit ⟨a,(roundLength length).sdiv 4096,length,fd,fl,0⟩ = a.toNat+(pageCeil length.toInt).toNat := by
  obtain ⟨hlt,hpos⟩ := toNat_of_pos h
  have hext := sdiv_extent h
  have hceil := pageCeil_of_pos h
  have hextent : Entry.extent ⟨a,(roundLength length).sdiv 4096,length,fd,fl,0⟩ =
      (roundLength length).sdiv 4096*4096 := rfl
  have hlimit : Entry.limit ⟨a,(roundLength length).sdiv 4096,length,fd,fl,0⟩ =
      a.toNat+(pageCeil length.toInt).toNat := by
    unfold Entry.limit
    rw [hextent,hext,hceil,Int.toNat_natCast]
  refine ⟨⟨ha,?_,?_,?_⟩,hlimit⟩
  · rw [hextent,hext]
    omega
  · rw [hlimit]
    exact hfit
  · rw [hextent,hext,hceil]

end Round
end Xv6.Kernel
