import Xv6.Kernel.PoolUse
import Xv6.Kernel.WindowTables

/-! # Mappings in their area

A condition on the state before each call under which every mapping that `wmap` makes
lies between `MMAPBASE` and `KERNBASE`: a fixed range ends below the kernel, and the
search starts on a page and has a free range below the kernel ahead of it.
-/
namespace Xv6.Kernel
open Wmap Program Relation Gaps
variable {s s' u : Ctx} {t t' : Table} {addr base length flags fd v : Word} {p : Ptr}

section Base

theorem nodeEnd_harmless (h : Harmless (t.entry p)) (hlow : 0x60000000 ≤ (nodeEnd t p).toNat)
    (hhigh : (nodeEnd t p).toNat < 0x80000000) : (nodeEnd t p).toNat % 4096 = 0 := by
  have hend : (nodeEnd t p).toNat = ((t.entry p).startAddress.toNat+(t.entry p).extent.toNat) % 2^32 :=
    BitVec.toNat_add _ _
  have hmod := extent_mod (t.entry p)
  have hbound := h.bounded
  rcases h.start with hs | hs | hs
  · have h1 : EMPTY.toNat = 2^32-1 := by decide
    rw [hs,h1] at hend
    omega
  · have h0 : (0 : Word).toNat = 0 := rfl
    rw [hs,h0] at hend
    omega
  · have halign : (t.entry p).startAddress.toNat % 4096 = 0 := hs.aligned
    omega

theorem afterRecent_tame (h : Tame s.tab) {after : Word} (hrun : afterRecent s = .ok after u)
    (hlow : 0x60000000 ≤ after.toNat) (hhigh : after.toNat < 0x80000000) :
    after.toNat % 4096 = 0 ∨ s.tab.entries = [] := by
  unfold afterRecent at hrun
  rw [get_bind_apply] at hrun
  cases hrecent : s.tab.mostRecent with
  | none => exact .inr (h.unused hrecent)
  | some q =>
    rw [hrecent] at hrun
    cases hrun
    exact .inl (nodeEnd_harmless (h.recent q hrecent) hlow hhigh)

theorem afterMapping_tame (h : Tame s.tab) {after : Word} (hrun : afterMapping addr s = .ok after u)
    (hlow : 0x60000000 ≤ after.toNat) (hhigh : after.toNat < 0x80000000) :
    after.toNat % 4096 = 0 ∨ s.tab.entries = [] := by
  obtain ⟨r,hr,hrun⟩ := onTable_bind_ok hrun
  cases r with
  | none => exact afterRecent_tame h hrun hlow hhigh
  | some q =>
    cases hrun
    obtain ⟨hq,-⟩ := pageInMappings_mem h.wf hr
    have hreg := h.live (s.tab.entry q) (by rw [entries_eq]; exact List.mem_map_of_mem hq)
    exact .inl (nodeEnd_harmless hreg.harmless hlow hhigh)

/-- The search starts in the area for mappings, on a page if there are any mappings. -/
theorem searchBase_tame (h : Tame s.tab) (hrun : searchBase addr s = .ok base u) :
    0x60000000 ≤ base.toNat ∧ base.toNat < 0x80000000 ∧ (base.toNat % 4096 = 0 ∨ s.tab.entries = []) := by
  obtain ⟨after,w,hafter,hpure⟩ := bind_eq_ok.mp hrun
  cases hpure
  split
  · exact ⟨by decide,by decide,.inl (by decide)⟩
  · rename_i hwindow
    rw [not_or,BitVec.not_lt,BitVec.not_le] at hwindow
    exact ⟨hwindow.1,hwindow.2,afterMapping_tame h hafter hwindow.1 hwindow.2⟩

end Base

section Condition

structure InWindow (v length : Word) : Prop where
  aligned : v.toNat % PGSIZE = 0
  low : 0x60000000 ≤ v.toNat
  high : v.toNat+(pageCeil length.toInt).toNat ≤ 0x80000000

/-- The condition on a request: a fixed range that is not refused ends below the kernel; a search
starts on a page, and the first range that fits ends below the kernel. -/
structure WindowFits (s : Ctx) (addr length flags : Word) : Prop where
  fixed : flags &&& MAP_FIXED ≠ 0 → 0x60000000 ≤ PGROUNDDOWN addr → PGROUNDDOWN addr < 0x80000000 →
    pageInMappings s.initialised.tab (PGROUNDDOWN addr) = .ok none →
    (PGROUNDDOWN addr).toNat+(pageCeil length.toInt).toNat ≤ 0x80000000
  search : flags &&& MAP_FIXED = 0 → 0 < length.toInt → ∀ base u,
    searchBase (PGROUNDDOWN addr) s.initialised = .ok base u → base.toNat % PGSIZE = 0 ∧
    ∃ x, FirstFit (busy s.initialised.tab) (pageCeil length.toInt).toNat base.toNat x ∧
      x+(pageCeil length.toInt).toNat ≤ 0x80000000

theorem busy_retouched (h : Retouched t t') : busy t' = busy t := by
  have hstart : ∀ p, (t'.entry p).startAddress = (t.entry p).startAddress := h.start
  ext b
  simp only [busy,entries_eq,h.allNodes,List.mem_map,Set.mem_ofPred_eq]
  constructor
  · rintro ⟨_,⟨p,hp,rfl⟩,hb⟩
    exact ⟨_,⟨p,hp,rfl⟩,by rw [hb,h.limit p,hstart p]⟩
  · rintro ⟨_,⟨p,hp,rfl⟩,hb⟩
    exact ⟨_,⟨p,hp,rfl⟩,by rw [hb,h.limit p,hstart p]⟩

theorem round_pos (hlen : 0 < length.toInt) (hfit : (pageCeil length.toInt).toNat ≤ 0x20000000) :
    0 < (roundLength length).toInt := by
  have hround := roundLength_toNat hlen
  have hceil := pageCeil_of_pos hlen
  have hpos := toNat_of_pos hlen
  rw [BitVec.toInt_eq_toNat_of_lt (by omega)]
  omega

/-- A range that the search finds lies in the area if and only if the search starts on a page and
has a range below the kernel ahead of it. -/
theorem found_window (h : Tame s.tab) (hlen : 0 < length.toInt) (hbase : searchBase addr s = .ok base u)
    (hloop : placeLoop u.tab (roundLength length) base (2^32) base = .ok v) :
    InWindow v length ↔ base.toNat % PGSIZE = 0 ∧
      ∃ x, FirstFit (busy s.tab) (pageCeil length.toInt).toNat base.toNat x ∧
        x+(pageCeil length.toInt).toNat ≤ 0x80000000 := by
  obtain ⟨hlow,hhigh,halign⟩ := searchBase_tame h hbase
  have hre := (bumps_retouched ((dropping_searchBase _).ok hbase)).1
  have hu : Tame u.tab := h.retouch hre
  have hround := roundLength_toNat hlen
  have hceil := pageCeil_of_pos hlen
  have hn : (roundLength length).toNat = (pageCeil length.toInt).toNat := by omega
  have hmod : (roundLength length).toNat % 4096 = 0 := by omega
  rw [← busy_retouched hre]
  constructor
  · intro hv
    have hvlow := hv.low
    have hvhigh := hv.high
    have hrpos := round_pos hlen (by omega)
    have hbase0 : base.toNat % 4096 = 0 := by
      refine halign.elim id fun hnil => ?_
      have hnil' : u.tab.entries = [] := by
        rw [entries_eq,List.map_eq_nil_iff] at hnil ⊢
        rw [hre.allNodes,hnil]
      rw [← placeLoop_empty hu.wf hnil' hrpos hloop]
      exact hv.aligned
    obtain ⟨hle,hclear⟩ := placeLoop_clear hu.ranged hmod hbase0 le_rfl hloop
    obtain ⟨x,hx,hxv⟩ := hclear.exists_firstFit hle
    rw [hn] at hx
    exact ⟨hbase0,x,hx,by omega⟩
  · rintro ⟨hbase0,x,hx,hxn⟩
    have hle := hx.le
    have hrpos := round_pos hlen (by omega)
    obtain ⟨a,hexit,rfl,ha0⟩ := placeExit_firstFit hu.ranged hrpos hmod (2^32) (hn ▸ hx) (by omega) hbase0
      le_rfl (by omega)
    rw [placeLoop_eq,hexit] at hloop
    obtain rfl : a = v := Except.ok.inj hloop
    exact ⟨ha0,by omega,hxn⟩

/-- A request that is answered gets a range of the area if and only if it meets the condition. -/
theorem wmap_window (h : Tame s.initialised.tab) (hrun : wmap addr length flags fd s = .ok v s') (hv : v ≠ -1) :
    InWindow v length ↔ WindowFits s addr length flags := by
  rcases wmap_ok hrun with ⟨rfl,-⟩ | ⟨u,hlen,hplaced,hins,-⟩
  · exact absurd rfl hv
  · cases hplaced with
    | fixed hflag hlow hhigh hu ha hpage =>
      subst ha
      have halign := PGROUNDDOWN_toNat addr
      constructor
      · exact fun hw => ⟨fun _ _ _ _ => hw.high,fun hnot => absurd hnot hflag⟩
      · exact fun hw => ⟨by rw [halign]; exact Nat.mul_mod_left _ _,hlow,hw.fixed hflag hlow hhigh hpage⟩
    | found base hflag hbase hloop =>
      rw [found_window h hlen hbase hloop]
      constructor
      · intro hcond
        refine ⟨fun hnot => absurd hflag hnot,fun _ _ base' u' hbase' => ?_⟩
        rw [hbase] at hbase'
        cases hbase'
        exact hcond
      · exact fun hw => hw.search hflag hlen base u hbase

end Condition

section Outcomes
variable {α β : Type}

def After (P : Table → Prop) : EStateM.Result Stop Ctx α → Prop
  | .ok _ u => P u.tab
  | .error _ u => P u.tab

theorem After.ok {P : Table → Prop} {x : KernelM α} {a : α} (h : After P (x s)) (hx : x s = .ok a s') : P s'.tab := by
  rw [hx] at h
  exact h

theorem After.error {P : Table → Prop} {x : KernelM α} {e : Stop} (h : After P (x s))
    (hx : x s = .error e s') : P s'.tab := by
  rw [hx] at h
  exact h

theorem Settled.after_drop (h : Settled s.tab) {x : KernelM α} (hx : Along Drop x) : After Settled (x s) := by
  cases hs : x s with
  | ok a u => exact h.drops (hx.ok hs)
  | error e u => exact h.drops (hx.error hs)

theorem After.bind {P : Table → Prop} {x : KernelM α} {f : α → KernelM β} (hx : After P (x s))
    (hf : ∀ a u, x s = .ok a u → After P (f a u)) : After P ((x >>= f) s) := by
  rw [bind_apply]
  cases hs : x s with
  | ok a u => exact hf a u hs
  | error e u =>
    rw [hs] at hx
    exact hx

theorem regular_new (hlen : 0 < length.toInt) (hw : InWindow v length) :
    Regular ⟨v,(roundLength length).sdiv 4096,length,fd,flags,0⟩ := by
  have hceil := pageCeil_of_pos hlen
  have hpos := toNat_of_pos hlen
  have hlow := hw.low
  have hhigh := hw.high
  have hext : (Entry.extent ⟨v,(roundLength length).sdiv 4096,length,fd,flags,0⟩).toNat =
      4096*((length.toNat+4095)/4096) := sdiv_extent hlen
  refine ⟨⟨hw.aligned,hlow,?_⟩,?_,?_⟩
  · change v.toNat < 0x80000000
    omega
  · omega
  · omega

theorem ne_failed_of_hashInsert {len np fd fl : Word} (h : hashInsert t v len np fd fl = .ok t') : v ≠ -1 := by
  obtain ⟨i,hi,-⟩ := bind_ok h
  exact ne_empty_of_slotOf hi

theorem Settled.after_wmap (h : Settled s.tab) (hfits : WindowFits s addr length flags) :
    After Settled (wmap addr length flags fd s) := by
  have htame := h.initialised
  have hrun := wmap_apply addr length flags fd s
  split at hrun
  · rw [hrun]
    exact .inr htame
  · have hdrop := dropping_place (PGROUNDDOWN addr) length flags s.initialised
    cases hr : place (PGROUNDDOWN addr) length flags s.initialised with
    | error e u =>
      rw [hr] at hrun hdrop
      rw [hrun]
      exact Settled.drops (.inr htame) hdrop
    | ok r u =>
      rw [hr] at hrun hdrop
      have hu : Tame u.tab := htame.retouch (bumps_retouched hdrop).1
      cases r with
      | none =>
        rw [hrun]
        exact .inr hu
      | some a =>
        dsimp only at hrun
        cases hins : hashInsert u.tab a length ((roundLength length).sdiv 4096) fd flags with
        | error e =>
          rw [hins] at hrun
          rw [hrun]
          exact .inr hu
        | ok t =>
          rw [hins] at hrun
          have hw := (wmap_window htame hrun (ne_failed_of_hashInsert hins)).mpr hfits
          rw [hrun]
          exact .inr (hu.insert (regular_new (by omega) hw) hins)

def WindowCall (s : Ctx) : Call → Prop
  | .wmap addr length flags _ => WindowFits s addr length flags
  | .wremap oldaddr oldsize newsize flags => ∀ p, Named s.tab oldaddr oldsize p → oldsize.toInt < newsize.toInt →
    canGrowInPlace s.tab oldaddr oldsize newsize = .ok false → flags &&& MREMAP_MAYMOVE ≠ 0 →
    WindowFits s MMAPBASE newsize ((s.tab.deref p).flags-MAP_FIXED)
  | .wunmap _ => True
  | .getwmapinfo => True
  | .fault _ => True
  | .exit => True

theorem after_onTable {P : Table → Prop} (h : P s.tab) {g : Table → Except Stop α} {f : α → KernelM β}
    (hf : ∀ a, g s.tab = .ok a → After P (f a s)) : After P ((onTable g >>= f) s) := by
  rw [bind_apply,onTable_apply]
  cases ha : g s.tab with
  | ok a => exact hf a ha
  | error e => exact h

theorem Settled.after_wremap {oldaddr oldsize newsize : Word} (h : Settled s.tab)
    (hfits : WindowCall s (.wremap oldaddr oldsize newsize flags)) :
    After Settled (wremap oldaddr oldsize newsize flags s) := by
  refine after_onTable h fun r hr => ?_
  cases r with
  | none => exact h
  | some p =>
    dsimp only
    rw [get_bind_apply]
    split
    · exact h
    · rename_i hlength
      rw [not_not] at hlength
      split
      · refine After.bind (h.after_drop (quiet_wunmapPartial _ _).dropping.along) fun _ u hu => ?_
        have htab : u.tab = s.tab := (quiet_wunmapPartial _ _).ok hu
        have hu' : Settled u.tab := htab ▸ h
        exact hu'.resize p newsize
      · split
        · rename_i hlt
          refine after_onTable h fun grows hgrow => ?_
          cases grows with
          | true => exact h.resize p newsize
          | false =>
            rw [if_neg Bool.false_ne_true]
            split
            · rename_i hflag
              have hmove := hfits p ⟨hr,hlength⟩ hlt hgrow hflag
              refine After.bind (h.after_wmap hmove) fun newaddr u hu => ?_
              have hsettled := (h.after_wmap hmove).ok hu
              split
              · exact hsettled.after_drop ((dropping_memmove _ _ _).along.bind fun _ =>
                  (along_wunmap _).bind fun _ => (quiet_pure _).dropping.along)
              · exact hsettled
            · exact h
        · exact h

theorem Settled.after_call {c : Call} (h : Settled s.tab) (hfits : WindowCall s c) : After Settled (c.run s) := by
  have hpure : ∀ (r : Answer) u, Settled u.tab → After Settled ((pure r : KernelM Answer) u) := fun _ _ hu => hu
  cases c with
  | wmap addr length flags fd => exact (h.after_wmap hfits).bind fun v u hu => hpure _ u ((h.after_wmap hfits).ok hu)
  | wunmap addr => exact h.after_drop ((along_wunmap _).bind fun _ => (quiet_pure _).dropping.along)
  | wremap oldaddr oldsize newsize flags =>
    exact (h.after_wremap hfits).bind fun v u hu => hpure _ u ((h.after_wremap hfits).ok hu)
  | getwmapinfo =>
    refine After.bind ?_ fun l u hu => hpure _ u (h.getwmapinfo (sysGetwmapinfo_ok hu).1)
    exact after_onTable h fun r hr => h.getwmapinfo hr
  | fault va => exact h.after_drop ((dropping_pageFault va).along.bind fun _ => (quiet_pure _).dropping.along)
  | exit => exact h.after_drop (along_sysExit.bind fun _ => (quiet_pure _).dropping.along)

theorem Settled.after_fork {r : Option Proc} (h : Settled s.tab) (hrun : fork s = .ok r s') : Settled s'.tab := by
  have hquiet := quiet_forkProc s
  rw [fork_apply] at hrun
  cases hp : forkProc s with
  | error e u =>
    rw [hp] at hrun
    cases hrun
  | ok child u =>
    rw [hp] at hrun hquiet
    have hu : Settled u.tab := (show u.tab = s.tab from hquiet) ▸ h
    cases child with
    | none =>
      cases hrun
      exact hu
    | some child =>
      dsimp only at hrun
      cases ht : forkHelper u.tab with
      | error e =>
        rw [ht] at hrun
        cases hrun
      | ok t =>
        rw [ht] at hrun
        cases hrun
        exact hu.copied ht

end Outcomes

section Runs

/-- The tables that calls with `WindowCall` lead to. -/
inductive Confined : Table → Prop
  | boot : Confined .boot
  | call {s s' : Ctx} {c : Call} {r : Answer} : Confined s.tab → WindowCall s c → c.run s = .ok r s' →
    Confined s'.tab
  | exited {s s' : Ctx} {c : Call} : Confined s.tab → WindowCall s c → c.run s = .error .exited s' →
    Confined s'.tab
  | fork {s s' : Ctx} {r : Option Proc} : Confined s.tab → fork s = .ok r s' → Confined s'.tab

theorem Confined.settled (h : Confined t) : Settled t := by
  induction h with
  | boot => exact .inl unused_boot
  | call _ hfits hrun ih => exact (ih.after_call hfits).ok hrun
  | exited _ hfits hrun ih => exact (ih.after_call hfits).error hrun
  | fork _ hrun ih => exact ih.after_fork hrun

/-- In every table that calls have led to under the condition, a request that is answered gets a
range of the area for mappings if and only if it meets the condition itself. -/
theorem stays_in_window (s : Ctx) (h : Confined s.tab) (addr length flags fd v : Word) (s' : Ctx)
    (hrun : wmap addr length flags fd s = .ok v s') (hv : v ≠ -1) :
    InWindow v length ↔ WindowFits s addr length flags := wmap_window h.settled.initialised hrun hv

theorem stays_in_window_fixed : ∃ s', wmap MMAPBASE 8192 14 0 firstCtx = .ok MMAPBASE s' ∧
    WindowFits firstCtx MMAPBASE 8192 14 ∧ InWindow MMAPBASE 8192 := by
  have hfits : WindowFits firstCtx MMAPBASE 8192 14 :=
    ⟨fun _ _ _ _ => by decide,fun hflag => absurd hflag (by decide)⟩
  exact ⟨_,rfl,hfits,(stays_in_window firstCtx .boot MMAPBASE 8192 14 0 MMAPBASE _ rfl (by decide)).mpr hfits⟩

/-- Only the first address of a fixed range is checked: two pages at the end of the area reach
into the kernel. -/
theorem window_left : Reachable firstCtx.tab ∧
    ∃ s', wmap 0x7FFFF000 8192 14 0 firstCtx = .ok 0x7FFFF000 s' ∧ ¬ InWindow 0x7FFFF000 8192 := by
  refine ⟨.boot,_,rfl,fun h => ?_⟩
  exact absurd h.high (by decide)

end Runs
end Xv6.Kernel
