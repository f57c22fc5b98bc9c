import Xv6.Kernel.Queries
import Xv6.Kernel.Search

/-! # First fit in the table of mappings

In a table whose mappings lie in the area for them, a request without `MAP_FIXED` gets
the first free range behind the mapping at the requested address, or behind the one
made last, as long as the table has room for one more entry.
-/
namespace Xv6.Kernel
open Wmap Gaps Program
variable {t : Table} {a addr length : Word} {p : Ptr}

section Start

def behind (t : Table) (addr : Word) : Option Ptr :=
  match pageInMappings t addr with
  | .ok (some p) => some p
  | .ok none => t.mostRecent
  | .error _ => none

theorem afterMapping_behind {s : Ctx} (hp : behind s.tab addr = some p) :
    afterMapping addr s = .ok (nodeEnd s.tab p) s := by
  unfold behind at hp
  rw [afterMapping,bind_apply,onTable_apply]
  cases hr : pageInMappings s.tab addr with
  | error e =>
    rw [hr] at hp
    cases hp
  | ok r =>
    rw [hr] at hp
    cases r with
    | some q =>
      cases hp
      rfl
    | none =>
      dsimp only at hp ⊢
      rw [afterRecent,get_bind_apply,hp]
      rfl

theorem searchBase_behind {s : Ctx} (hp : behind s.tab addr = some p) (hs : Paged (s.tab.entry p))
    (hlow : 0x60000000 ≤ (s.tab.entry p).limit) (hhigh : (s.tab.entry p).limit < 0x80000000) :
    searchBase addr s = .ok (nodeEnd s.tab p) s := by
  have hend := nodeEnd_toNat hs
  have hwindow : ¬ (nodeEnd s.tab p < 0x60000000 ∨ 0x80000000 ≤ nodeEnd s.tab p) := by
    rw [BitVec.lt_def,BitVec.le_def,hend]
    change ¬ (_ < 0x60000000 ∨ 0x80000000 ≤ _)
    omega
  rw [searchBase,bind_of_ok (afterMapping_behind hp),if_neg hwindow]
  rfl

/-- A table in use whose mappings lie on pages between `MMAPBASE` and `KERNBASE`. -/
structure Arranged (t : Table) : Prop where
  wf : WF t
  init : t.hashInit ≠ -1
  aligned : ∀ e ∈ t.entries, e.startAddress.toNat % PGSIZE = 0
  pages : ∀ e ∈ t.entries, 1 ≤ e.numPages.toInt
  low : ∀ e ∈ t.entries, 0x60000000 ≤ e.startAddress.toNat
  high : ∀ e ∈ t.entries, e.startAddress.toNat+PGSIZE*e.numPages.toNat ≤ 0x80000000
  recent : ∃ p ∈ t.allNodes, t.mostRecent = some p

namespace Arranged

theorem limit (h : Arranged t) {e : Entry} (he : e ∈ t.entries) :
    e.limit = e.startAddress.toNat+4096*e.numPages.toNat := by
  have hhigh : e.startAddress.toNat+4096*e.numPages.toNat ≤ 0x80000000 := h.high e he
  rw [Entry.limit,Entry.extent,BitVec.toNat_mul,page_toNat]
  omega

theorem ranged (h : Arranged t) : Ranged t := by
  refine ⟨h.wf,fun e he => ?_⟩
  have hlimit := h.limit he
  have hhigh : e.startAddress.toNat+4096*e.numPages.toNat ≤ 0x80000000 := h.high e he
  have hpos := toNat_of_pos (h.pages e he)
  refine ⟨h.aligned e he,?_,by omega⟩
  unfold Entry.limit at hlimit
  omega

theorem exists_behind (h : Arranged t) (ha : addr.toNat < 2^31) :
    ∃ p ∈ t.allNodes, behind t addr = some p := by
  obtain ⟨r,hr⟩ := pageInMappings_lower h.wf ha
  unfold behind
  rw [hr]
  cases r with
  | some p => exact ⟨p,(pageInMappings_mem h.wf hr).1,rfl⟩
  | none => exact h.recent

end Arranged
end Start

section Placing
variable {s : Ctx} {flags fd : Word}

def RoomFor (t : Table) (a : Word) : Prop := ∀ i, slotOf a = .ok i → t.bucket i = [] ∨ t.poolCounter < MAX_WMMAP_INFO

/-- The request is answered with a range of pages of the area for mappings that is disjoint from
all mappings, found by a jump out of the search, and the table has one more entry for it. -/
def PlacedRight (s : Ctx) (addr length flags fd : Word) : Prop :=
  ∃ base a s', searchBase (PGROUNDDOWN addr) s = .ok base s ∧
    placeExit s.tab (roundLength length) base (2^32) base = .ok (.createMap,a) ∧
    wmap addr length flags fd s = .ok a s' ∧
    a.toNat % PGSIZE = 0 ∧ 0x60000000 ≤ a.toNat ∧ a.toNat+(pageCeil length.toInt).toNat ≤ 0x80000000 ∧
    (∀ e ∈ s.tab.entries, a.toNat+(pageCeil length.toInt).toNat ≤ e.startAddress.toNat ∨
      e.startAddress.toNat+PGSIZE*e.numPages.toNat ≤ a.toNat) ∧
    Inserted s.tab s'.tab ⟨a,(roundLength length).sdiv 4096,length,fd,flags,0⟩

theorem roomFor_of_hashInsert {t' : Table} {len np fd fl : Word} (h : hashInsert t a len np fd fl = .ok t') :
    RoomFor t a := by
  obtain ⟨k,hk,hcases⟩ := hashInsert_cases h
  intro i hi
  rw [hi] at hk
  cases hk
  rcases hcases with ⟨he,-⟩ | ⟨-,j,hj,-⟩
  · exact .inl (bucket_of_empty he)
  · exact .inr (hj ▸ j.isLt)

theorem exists_firstFit_behind {n : ℕ} (hp : p ∈ t.allNodes)
    (hend : ∀ e ∈ t.entries, e.limit+n ≤ 0x80000000) :
    ∃ x, FirstFit (busy t) n (t.entry p).limit x ∧ x+n ≤ 0x80000000 := by
  have hmem : t.entry p ∈ t.entries.toFinset := by
    rw [List.mem_toFinset,entries_eq]
    exact List.mem_map_of_mem hp
  -- behind the last of the mappings the range is free
  obtain ⟨e,he,hmax⟩ := t.entries.toFinset.exists_max_image Entry.limit ⟨_,hmem⟩
  have hclear : Clear (busy t) n e.limit := by
    rw [clear_busy]
    exact fun f hf => .inr (hmax f (List.mem_toFinset.mpr hf))
  obtain ⟨x,hx,hle⟩ := hclear.exists_firstFit (hmax _ hmem)
  have := hend e (List.mem_toFinset.mp he)
  exact ⟨x,hx,by omega⟩

theorem Arranged.placed (h : Arranged s.tab) (addr : Word) (hflags : flags &&& MAP_FIXED = 0) (haddr : addr.toNat < 2^31)
    (hlen : 0 < length.toInt)
    (hend : ∀ e ∈ s.tab.entries, e.limit+(pageCeil length.toInt).toNat ≤ 0x80000000) :
    ∃ p ∈ s.tab.allNodes, ∃ a, behind s.tab addr = some p ∧
      FirstFit (busy s.tab) (pageCeil length.toInt).toNat (s.tab.entry p).limit a.toNat ∧
      a.toNat % 4096 = 0 ∧ a.toNat+(pageCeil length.toInt).toNat ≤ 0x80000000 ∧
      searchBase addr s = .ok (nodeEnd s.tab p) s ∧
      placeExit s.tab (roundLength length) (nodeEnd s.tab p) (2^32) (nodeEnd s.tab p) = .ok (.createMap,a) ∧
      place addr length flags s = .ok (some a) s := by
  obtain ⟨p,hp,hbehind⟩ := h.exists_behind haddr
  have hmem : s.tab.entry p ∈ s.tab.entries := by
    rw [entries_eq]
    exact List.mem_map_of_mem hp
  have hpaged := h.ranged.paged _ hmem
  have hlow := h.low _ hmem
  have hlim := hend _ hmem
  have hle : (s.tab.entry p).startAddress.toNat ≤ (s.tab.entry p).limit := Nat.le_add_right _ _
  have hround := roundLength_toNat hlen
  have hceil := pageCeil_of_pos hlen
  have hpos := toNat_of_pos hlen
  have hn : (roundLength length).toNat = (pageCeil length.toInt).toNat := by omega
  have hrpos : 0 < (roundLength length).toInt := by
    rw [BitVec.toInt_eq_toNat_of_lt (by omega)]
    omega
  have hbase := searchBase_behind hbehind hpaged (by omega) (by omega)
  have hnode := nodeEnd_toNat hpaged
  obtain ⟨x,hx,htop⟩ := exists_firstFit_behind hp hend
  have hfit : FirstFit (busy s.tab) (roundLength length).toNat (nodeEnd s.tab p).toNat x := by
    rw [hn,hnode]
    exact hx
  obtain ⟨a,hexit,rfl,halign⟩ := placeExit_firstFit h.ranged hrpos (by omega) (2^32) hfit (by omega)
    (hnode ▸ hpaged.limit_mod) le_rfl (by omega)
  refine ⟨p,hp,a,hbehind,hx,halign,htop,hbase,hexit,?_⟩
  have hloop : placeLoop s.tab (roundLength length) (nodeEnd s.tab p) (2^32) (nodeEnd s.tab p) = .ok a := by
    rw [placeLoop_eq,hexit]
    rfl
  unfold place
  rw [if_neg (not_not.mpr hflags),bind_of_ok hbase,bind_apply,onTable_apply,hloop]
  rfl

/-- A request without `MAP_FIXED` is placed right if and only if there is room for the first
range that fits. -/
theorem first_fit (s : Ctx) (h : Arranged s.tab) (addr length flags fd : Word)
    (hflags : flags &&& MAP_FIXED = 0) (haddr : addr.toNat < 0x80000000) (hlen : 0 < length.toInt)
    (hend : ∀ e ∈ s.tab.entries,
      e.startAddress.toNat+PGSIZE*e.numPages.toNat+(pageCeil length.toInt).toNat ≤ 0x80000000) :
    PlacedRight s addr length flags fd ↔ ∀ p a, behind s.tab (PGROUNDDOWN addr) = some p →
      FirstFit (busy s.tab) (pageCeil length.toInt).toNat (s.tab.entry p).limit a.toNat → RoomFor s.tab a := by
  have hround := PGROUNDDOWN_toNat addr
  have hceil := pageCeil_of_pos hlen
  have hpos := toNat_of_pos hlen
  have hinit : s.initialised = s := by
    unfold Ctx.initialised initialised
    rw [if_neg h.init]
  have hend' : ∀ e ∈ s.tab.entries, e.limit+(pageCeil length.toInt).toNat ≤ 0x80000000 := by
    intro e he
    rw [h.limit he]
    exact hend e he
  obtain ⟨p,hp,a,hbehind,hfit,halign,htop,hbase,hexit,hplace⟩ :=
    h.placed (PGROUNDDOWN addr) hflags (by omega) hlen hend'
  have hmem : s.tab.entry p ∈ s.tab.entries := by
    rw [entries_eq]
    exact List.mem_map_of_mem hp
  have hrun := wmap_apply addr length flags fd s
  rw [if_neg (by omega),hinit,hplace] at hrun
  dsimp only at hrun
  constructor
  · rintro ⟨base,a',s',hbase',hexit',hwmap,-⟩ q b hq hb
    rw [hbehind] at hq
    cases hq
    obtain rfl : a = b := BitVec.eq_of_toNat_eq (hfit.unique hb)
    cases hins : hashInsert s.tab a length ((roundLength length).sdiv 4096) fd flags with
    | error e =>
      rw [hins,hwmap] at hrun
      cases hrun
    | ok t => exact roomFor_of_hashInsert hins
  · intro hroom
    obtain ⟨i,hi⟩ := slotOf_lower (a := a) (by omega)
    obtain ⟨t',hins⟩ := hashInsert_returns length ((roundLength length).sdiv 4096) fd flags hi
      (hroom p a hbehind hfit i hi)
    rw [hins] at hrun
    have hlow := h.low _ hmem
    have hle := hfit.le
    have hlimit : (s.tab.entry p).startAddress.toNat ≤ (s.tab.entry p).limit := Nat.le_add_right _ _
    refine ⟨_,a,_,hbase,hexit,hrun,halign,by omega,htop,?_,hashInsert_inserted h.wf hins⟩
    intro e he
    have hclear := clear_busy.mp hfit.clear e he
    rw [h.limit he] at hclear
    exact hclear

theorem arranged_single {e : Entry} (hr : Reachable t) (hentries : t.entries = [e]) (hinit : t.hashInit ≠ -1)
    (hnodes : t.allNodes = [p]) (hrecent : t.mostRecent = some p)
    (he : e.startAddress.toNat % PGSIZE = 0 ∧ 1 ≤ e.numPages.toInt ∧ 0x60000000 ≤ e.startAddress.toNat ∧
      e.startAddress.toNat+PGSIZE*e.numPages.toNat ≤ 0x80000000) : Arranged t := by
  refine ⟨hr.wf,hinit,?_,?_,?_,?_,p,by rw [hnodes]; exact List.mem_singleton_self p,hrecent⟩
  all_goals
    intro f hf
    rw [hentries,List.mem_singleton] at hf
    subst hf
  · exact he.1
  · exact he.2.1
  · exact he.2.2.1
  · exact he.2.2.2

def leavesOne (calls : List Call) (n : ℕ) : Bool :=
  match runCalls calls firstCtx with
  | some s => decide (s.tab.entries = [⟨MMAPBASE,19,77824,0,14,0⟩] ∧ s.tab.hashInit = 1 ∧
      s.tab.allNodes = [.slot 7] ∧ s.tab.mostRecent = some (.slot 7) ∧ s.tab.poolCounter = n)
  | none => false

theorem arranged_of_leavesOne (calls : List Call) (n : ℕ) (h : leavesOne calls n = true) :
    ∃ s, runCalls calls firstCtx = some s ∧ Arranged s.tab ∧ s.tab.entries = [⟨MMAPBASE,19,77824,0,14,0⟩] ∧
      s.tab.poolCounter = n := by
  unfold leavesOne at h
  split at h
  · rename_i s hs
    obtain ⟨hentries,hinit,hnodes,hrecent,hcount⟩ := of_decide_eq_true h
    refine ⟨s,hs,arranged_single (Reachable.runCalls .boot hs) hentries (by rw [hinit]; decide) hnodes hrecent ?_,
      hentries,hcount⟩
    decide
  · cases h

theorem first_fit_nineteen : ∃ s, runCalls [.wmap MMAPBASE 77824 14 0] firstCtx = some s ∧ Arranged s.tab ∧
    PlacedRight s 0 4096 6 0 := by
  obtain ⟨s,hs,harr,hentries,hcount⟩ := arranged_of_leavesOne [.wmap MMAPBASE 77824 14 0] 0
    (by decide +kernel)
  refine ⟨s,hs,harr,(first_fit s harr 0 4096 6 0 (by decide) (by decide) (by decide) ?_).mpr ?_⟩
  · intro e he
    rw [hentries,List.mem_singleton] at he
    subst he
    decide
  · intro p a _ _ i _
    rw [hcount]
    exact .inr (by decide)

def worn : List Call := .wmap MMAPBASE 4096 14 0 ::
  (List.replicate 16 [.wmap 0x60013000 4096 14 0,.wunmap 0x60013000]).flatten ++
  [.wunmap MMAPBASE,.wmap MMAPBASE 77824 14 0]

/-- The first range that fits shares its slot with the mapping that is left, and the insertion
writes behind the pool. -/
theorem first_fit_worn : ∃ s, runCalls worn firstCtx = some s ∧ Reachable s.tab ∧ Arranged s.tab ∧
    (∀ e ∈ s.tab.entries, e.startAddress.toNat+PGSIZE*e.numPages.toNat+(pageCeil 4096).toNat ≤ 0x80000000) ∧
    ¬ PlacedRight s 0 4096 6 0 := by
  obtain ⟨s,hs,harr,hentries,-⟩ := arranged_of_leavesOne worn 16 (by decide +kernel)
  have hfails : ((runCalls worn firstCtx).bind (runCalls [.wmap 0 4096 6 0])).isNone = true := by decide +kernel
  rw [hs,Option.bind_some] at hfails
  refine ⟨s,hs,Reachable.runCalls .boot hs,harr,?_,?_⟩
  · intro e he
    rw [hentries,List.mem_singleton] at he
    subst he
    decide
  · rintro ⟨base,a,s',-,-,hwmap,-⟩
    rw [runCalls,Call.run,bind_of_ok hwmap] at hfails
    cases hfails

end Placing
end Xv6.Kernel
