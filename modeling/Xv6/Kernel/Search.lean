import Xv6.Kernel.Placement
import Xv6.Library.Gaps

/-! # The search for a free range

The search of `wmap` jumps behind the mapping that blocks it. It settles on the first
range that fits, and it finds one whenever there is one below the kernel.
-/
namespace Xv6.Kernel
open Wmap Program Gaps
variable {t : Table} {a addr base round : Word} {n : ℕ}

def busy (t : Table) : Set (ℕ × ℕ) := {b | ∃ e ∈ t.entries, b = (e.startAddress.toNat,e.limit)}

theorem clear_busy {n x : ℕ} : Clear (busy t) n x ↔ ∀ e ∈ t.entries, x+n ≤ e.startAddress.toNat ∨ e.limit ≤ x := by
  constructor
  · exact fun h e he => h _ ⟨e,he,rfl⟩
  · rintro h _ ⟨e,he,rfl⟩
    exact h e he

theorem nextPlace_blocked (hl : Ranged t) (ha : addr.toNat % 4096 = 0) (hpos : 0 < round.toInt) {addr' : Word}
    (h : nextPlace t round addr = .ok (some addr')) :
    ∃ b ∈ busy t, b.2 = addr'.toNat ∧ ∃ x, addr.toNat ≤ x ∧ b.1 ≤ x ∧ x < b.2 ∧ x < addr.toNat+round.toNat := by
  unfold nextPlace at h
  rw [if_pos hpos] at h
  obtain ⟨r,hr,h'⟩ := bind_ok h
  cases r with
  | none => cases h'
  | some q =>
    cases h'
    obtain ⟨k,hk,hfound,hbefore⟩ := scan_some hr
    have hwrap := no_wrap_found ha hbefore hfound
    obtain ⟨hq,hs,hle,hlt⟩ := hl.page_found hfound
    rw [pageAt_toNat (by omega)] at hle hlt
    refine ⟨_,⟨t.entry q,?_,rfl⟩,(nodeEnd_toNat hs).symm,addr.toNat+4096*k,by omega,hle,hlt,?_⟩
    · rw [entries_eq]
      exact List.mem_map_of_mem hq
    · have hk' : k < round.toNat/4096 := hk
      omega

theorem nextPlace_clear (hl : Ranged t) (ha : addr.toNat % 4096 = 0) (hround : round.toNat % 4096 = 0)
    (h : nextPlace t round addr = .ok none) : Clear (busy t) round.toNat addr.toNat := by
  obtain ⟨hpos,hpages⟩ := nextPlace_none h
  have hpos' := toNat_of_pos hpos
  have hfree := free_of_pages hl ha (by omega) hpages
  rw [clear_busy]
  intro e he
  have := hfree e he
  omega

theorem pageInMappings_lower (hw : WF t) (ha : a.toNat < 2^31) : ∃ r, pageInMappings t a = .ok r := by
  obtain ⟨i,hi⟩ := slotOf_lower ha
  exact ⟨_,pageInMappings_eq hw hi⟩

theorem scan_lower (hw : WF t) (ha : a.toNat+4096*n ≤ 2^31) : ∃ r, scan t n a = .ok r := by
  induction n generalizing a with
  | zero => exact ⟨none,rfl⟩
  | succ n ih =>
    obtain ⟨r,hr⟩ := pageInMappings_lower hw (a := a) (by omega)
    rw [scan,hr]
    cases r with
    | some p => exact ⟨some p,rfl⟩
    | none =>
      refine ih ?_
      rw [BitVec.toNat_add,page_toNat]
      omega

theorem nextPlace_lower (hw : WF t) (hpos : 0 < round.toInt) (addr : Word) (ha : addr.toNat+round.toNat ≤ 2^31) :
    ∃ r, nextPlace t round addr = .ok r := by
  have hle : addr.toNat+4096*(round.toNat/4096) ≤ 2^31 := by omega
  obtain ⟨r,hr⟩ := scan_lower hw hle
  unfold nextPlace
  rw [if_pos hpos]
  change ∃ r', (scan t (round.toNat/4096) addr >>= _) = Except.ok r'
  rw [hr]
  cases r with
  | none => exact ⟨none,rfl⟩
  | some p => exact ⟨_,rfl⟩

inductive Exit
  | createMap
  | wrapped
  deriving DecidableEq

def placeExit (t : Table) (round base : Word) : ℕ → Word → Except Stop (Exit × Word)
  | 0, _ => .error .hang
  | fuel+1, addr => do
    match ← nextPlace t round addr with
    | none => .ok (.createMap,addr)
    | some addr => if base = addr then .ok (.wrapped,addr) else placeExit t round base fuel addr

theorem placeLoop_eq (t : Table) (round base : Word) (fuel : ℕ) (addr : Word) :
    placeLoop t round base fuel addr = (placeExit t round base fuel addr).map Prod.snd := by
  induction fuel generalizing addr with
  | zero => rfl
  | succ fuel ih =>
    rw [placeLoop,placeExit]
    cases nextPlace t round addr with
    | error e => rfl
    | ok r =>
      cases r with
      | none => rfl
      | some addr' =>
        change (if base = addr' then _ else _) = Except.map Prod.snd (if base = addr' then _ else _)
        split
        · rfl
        · exact ih addr'

theorem placeExit_firstFit (hl : Ranged t) (hpos : 0 < round.toInt) (hround : round.toNat % 4096 = 0) {x : ℕ} (fuel : ℕ)
    (hfit : FirstFit (busy t) round.toNat addr.toNat x) (htop : x+round.toNat ≤ 2^31)
    (ha : addr.toNat % 4096 = 0) (hbase : base.toNat ≤ addr.toNat) (hfuel : x-addr.toNat < fuel) :
    ∃ a, placeExit t round base fuel addr = .ok (.createMap,a) ∧ a.toNat = x ∧ x % 4096 = 0 := by
  induction fuel generalizing addr with
  | zero => omega
  | succ fuel ih =>
    have hle := hfit.le
    obtain ⟨r,hr⟩ := nextPlace_lower hl.wf hpos addr (by omega)
    rw [placeExit,hr]
    cases r with
    | none =>
      have hx := (nextPlace_clear hl ha hround hr).firstFit.unique hfit
      exact ⟨addr,rfl,hx,hx ▸ ha⟩
    | some addr' =>
      obtain ⟨hlt,ha'⟩ := nextPlace_some hl ha hr
      obtain ⟨b,hb,hend,y,hy,hy1,hy2,hyn⟩ := nextPlace_blocked hl ha hpos hr
      have hfit' := (firstFit_skip hb (by omega) hy1 hyn).mp hfit
      rw [hend] at hfit'
      have hle' := hfit'.le
      have hne : base ≠ addr' := by
        rintro rfl
        omega
      change ∃ a, (if base = addr' then _ else _) = Except.ok (Exit.createMap,a) ∧ _
      rw [if_neg hne]
      exact ih hfit' ha' (by omega) (by omega)

theorem placeLoop_clear (hl : Ranged t) (hround : round.toNat % 4096 = 0) {fuel : ℕ} (ha : addr.toNat % 4096 = 0)
    (hbase : base.toNat ≤ addr.toNat) (h : placeLoop t round base fuel addr = .ok a) :
    addr.toNat ≤ a.toNat ∧ Clear (busy t) round.toNat a.toNat := by
  obtain ⟨hle,halign,hpos,hpages⟩ := placeLoop_ok hl ha hbase h
  have hpos' := toNat_of_pos hpos
  have hfree := free_of_pages hl halign (by omega) hpages
  refine ⟨hle,clear_busy.mpr fun e he => ?_⟩
  have := hfree e he
  omega

theorem placeLoop_empty (hw : WF t) (hnil : t.entries = []) (hpos : 0 < round.toInt) {fuel : ℕ}
    (h : placeLoop t round base fuel addr = .ok a) : a = addr := by
  cases fuel with
  | zero => cases h
  | succ fuel =>
    obtain ⟨r,hr,h'⟩ := bind_ok h
    cases r with
    | none =>
      cases h'
      rfl
    | some addr' =>
      unfold nextPlace at hr
      rw [if_pos hpos] at hr
      obtain ⟨q,hq,hr⟩ := bind_ok hr
      cases q with
      | none => cases hr
      | some q =>
        obtain ⟨k,-,hfound,-⟩ := scan_some hq
        obtain ⟨hmem,-⟩ := pageInMappings_mem hw hfound
        have : t.entry q ∈ t.entries := by
          rw [entries_eq]
          exact List.mem_map_of_mem hmem
        rw [hnil] at this
        cases this

end Xv6.Kernel
