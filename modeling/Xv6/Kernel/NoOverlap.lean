import Xv6.Kernel.Placement
import Xv6.Kernel.Reachable
import Xv6.Library.Runs

/-! # Mappings that do not overlap

A condition on the state before each call under which the ranges of the mappings stay
apart: a fixed request finds its whole range free, the search starts at a page
boundary, a mapping grows in place only within its page count, and a removal does not
move a smaller mapping under a larger page count.
-/
namespace Xv6.Kernel
open Wmap Program Relation Runs
variable {s s' : Ctx} {t t' : Table} {addr length flags fd v : Word}

section Bumps

theorem layout_bumps (hl : Layout t) (h : Bumps t t') : Layout t' := by
  obtain ⟨hre,hlen⟩ := bumps_retouched h
  apply hre.layout hl
  intro p hp
  rw [hlen p]
  exact (hl.sound _ (by rw [entries_eq]; exact List.mem_map_of_mem hp)).bytes

end Bumps

section Conditions

def Free (t : Table) (a n : ℕ) : Prop := ∀ e ∈ t.entries, a+n ≤ e.startAddress.toNat ∨ e.limit ≤ a

/-- A fixed range is free as a whole if its first page is; a search starts on a page. -/
structure WmapFits (s : Ctx) (addr length flags : Word) : Prop where
  fixed : flags &&& MAP_FIXED ≠ 0 → pageInMappings s.initialised.tab (PGROUNDDOWN addr) = .ok none →
    Free s.initialised.tab (PGROUNDDOWN addr).toNat (pageCeil length.toInt).toNat
  search : flags &&& MAP_FIXED = 0 → ∀ base s', searchBase (PGROUNDDOWN addr) s.initialised = .ok base s' →
    base.toNat % PGSIZE = 0

/-- The pages of the entry suffice for its growth, or the move fits. -/
structure WremapFits (s : Ctx) (oldaddr oldsize newsize flags : Word) : Prop where
  grow : ∀ p, Named s.tab oldaddr oldsize p → canGrowInPlace s.tab oldaddr oldsize newsize = .ok true →
    pageCeil newsize.toInt ≤ (s.tab.entry p).extent.toNat
  move : ∀ p, Named s.tab oldaddr oldsize p → canGrowInPlace s.tab oldaddr oldsize newsize = .ok false →
    flags &&& MREMAP_MAYMOVE ≠ 0 →
    WmapFits s MMAPBASE newsize ((s.tab.deref p).flags-MAP_FIXED) ∧ RemovalFits s.tab oldaddr ∧
      (s.tab.entry p).extent.toNat ≤ pageCeil newsize.toInt

def Fits (s : Ctx) : Call → Prop
  | .wmap addr length flags _ => WmapFits s addr length flags
  | .wunmap addr => RemovalFits s.tab addr
  | .wremap oldaddr oldsize newsize flags => WremapFits s oldaddr oldsize newsize flags
  | .getwmapinfo => True
  | .fault _ => True
  | .exit => True

end Conditions

section Wmap

theorem wmap_layout (hl : Layout s.initialised.tab) (hfits : WmapFits s addr length flags)
    (h : wmap addr length flags fd s = .ok v s') : Layout s'.tab := by
  rcases wmap_ok h with ⟨-,rfl⟩ | ⟨u,hlen,hplaced,hins,-⟩
  · exact hl
  · have hceil := pageCeil_of_pos hlen
    have hpos := toNat_of_pos hlen
    cases hplaced with
    | fixed hflag hlow hhigh hu ha hpage =>
      subst hu ha
      have hfree := hfits.fixed hflag hpage
      have haligned := PGROUNDDOWN_toNat addr
      have hhigh' : (PGROUNDDOWN addr).toNat < 0x80000000 := hhigh
      obtain ⟨hsound,hlimit⟩ := sound_new (PGROUNDDOWN addr) fd flags hlen (by omega) (by omega)
      refine hl.insert hins hsound ?_
      intro f hf
      rw [Apart,hlimit]
      exact hfree f hf
    | found base hflag hbase hloop =>
      have hl' : Layout u.tab := layout_bumps hl ((dropping_searchBase _).ok hbase)
      obtain ⟨-,haligned,hround,hpages⟩ := placeLoop_ok hl'.ranged (hfits.search hflag base u hbase) le_rfl hloop
      rw [roundLength_toNat hlen,Nat.mul_div_cancel_left _ (by omega)] at hpages
      have hwrap := no_wrap haligned fun k hk => ⟨none,hpages k hk⟩
      have hfree := free_of_pages hl'.ranged haligned (by omega) hpages
      obtain ⟨hsound,hlimit⟩ := sound_new v fd flags hlen haligned (by omega)
      refine hl'.insert hins hsound ?_
      intro f hf
      rw [Apart,hlimit]
      have := hfree f hf
      dsimp only
      omega

end Wmap

section Blank

structure Blank (t : Table) : Prop where
  hashInit : t.hashInit = -1
  next : ∀ i, (t.table i).next = none
  start : ∀ i, (t.table i).startAddress = 0 ∨ (t.table i).startAddress = EMPTY
  numPages : ∀ i, (t.table i).numPages = 0
  length : ∀ i, (t.table i).length.toInt ≤ 0

theorem blank_boot : Blank .boot := ⟨rfl,fun _ => rfl,fun _ => .inl rfl,fun _ => rfl,fun _ => le_rfl⟩

namespace Blank

theorem chain (h : Blank t) (i : Slot) : t.chain i = [] := by
  rw [Table.chain,h.next i]
  rfl

theorem wf (h : Blank t) : WF t := by
  constructor
  · intro i
    rw [h.chain i,h.next i]
    rfl
  · exact fun i => h.chain i ▸ List.nodup_nil
  · intro i k j hj
    simp [h.chain i] at hj
  · intro i j hj
    simp [h.chain i] at hj
  · exact fun i _ => h.next i
  · intro i j hj
    simp [h.chain i] at hj

theorem node (h : Blank t) {p : Ptr} (hp : p ∈ t.allNodes) : ∃ i, p = .slot i := by
  obtain ⟨i,-,hi⟩ := List.mem_flatMap.mp hp
  rw [Table.nodes,h.chain i] at hi
  split at hi
  · cases hi
  · exact ⟨i,by simpa using hi⟩

theorem extent (h : Blank t) (i : Slot) : (t.entry (.slot i)).extent = 0 := by
  have : (t.entry (.slot i)).numPages = 0 := h.numPages i
  rw [Entry.extent,this]
  rfl

theorem noOverlap (h : Blank t) : NoOverlap t := by
  have hempty : ∀ e ∈ t.entries, e.byteRange = ∅ := by
    intro e he
    rw [entries_eq] at he
    obtain ⟨p,hp,rfl⟩ := List.mem_map.mp he
    obtain ⟨i,rfl⟩ := h.node hp
    have hlen : (t.entry (.slot i)).length.toInt ≤ 0 := h.length i
    rw [Entry.byteRange,Set.Ico_eq_empty_iff,pageCeil_eq]
    omega
  refine List.pairwise_of_forall_mem_list ?_
  intro e he f _
  rw [hempty e he]
  exact Set.empty_disjoint _

/-- Only node fields that do not matter here change, or a length stays at most zero. -/
theorem retouch (h : Blank t) (hre : Retouched t t') (hlen : ∀ i, (t'.table i).length.toInt ≤ 0) : Blank t' := by
  refine ⟨hre.hashInit.trans h.hashInit,?_,?_,?_,hlen⟩
  · exact fun i => (hre.next (.slot i)).trans (h.next i)
  · intro i
    have hs : (t'.table i).startAddress = (t.table i).startAddress := hre.start (.slot i)
    rw [hs]
    exact h.start i
  · exact fun i => (hre.numPages (.slot i)).trans (h.numPages i)

theorem bumps (h : Blank t) (hb : Bumps t t') : Blank t' := by
  obtain ⟨hre,hlen⟩ := bumps_retouched hb
  refine h.retouch hre fun i => ?_
  have hi : (t'.table i).length = (t.table i).length := hlen (.slot i)
  rw [hi]
  exact h.length i

theorem remove (h : Blank t) {a : Word} {r : ℤ} (hrem : removeValue t a = .ok (r,t')) : Blank t' := by
  obtain ⟨i,-,h1⟩ := bind_ok hrem
  dsimp only at h1
  rw [h.next i] at h1
  split at h1
  · cases h1
    have hset : ∀ k, (t.setSlot i { t.table i with startAddress := EMPTY, next := none }).table k =
        if k = i then { t.table i with startAddress := EMPTY, next := none } else t.table k := by
      intro k
      by_cases hk : k = i <;> simp [Table.setSlot,hk]
    refine ⟨h.hashInit,?_,?_,?_,?_⟩
    · intro k
      rw [hset k]
      split
      · rfl
      · exact h.next k
    · intro k
      rw [hset k]
      split
      · exact .inr rfl
      · exact h.start k
    · intro k
      rw [hset k]
      split
      · exact h.numPages i
      · exact h.numPages k
    · intro k
      rw [hset k]
      split
      · exact h.length i
      · exact h.length k
  · cases h1
    exact h

end Blank
end Blank

section Steps

def Tidy (t : Table) : Prop := Blank t ∨ Layout t

theorem Tidy.noOverlap (h : Tidy t) : NoOverlap t := by
  rcases h with h | h
  · exact h.noOverlap
  · exact h.noOverlap

theorem Tidy.wf (h : Tidy t) : WF t := by
  rcases h with h | h
  · exact h.wf
  · exact h.wf

theorem Tidy.bumps (h : Tidy t) (hb : Bumps t t') : Tidy t' := by
  rcases h with h | h
  · exact .inl (h.bumps hb)
  · exact .inr (layout_bumps h hb)

theorem layout_init (t : Table) (v : ℤ) : Layout { initHashTable t with hashInit := v } := by
  have hb : ∀ i, Table.bucket { initHashTable t with hashInit := v } i = [] := fun i => bucket_of_empty rfl
  have he : Table.entries { initHashTable t with hashInit := v } = [] := by
    rw [Table.entries,List.flatMap_eq_nil_iff]
    exact fun i _ => hb i
  constructor
  · exact wf_of_unlinked fun _ => rfl
  · rw [he]
    simp
  · rw [he]
    exact List.Pairwise.nil

theorem Tidy.initialised (h : Tidy s.tab) : Layout s.initialised.tab := by
  change Layout (Kernel.initialised s.tab)
  unfold Kernel.initialised
  split
  · exact layout_init _ _
  · rename_i hinit
    rcases h with h | h
    · exact absurd h.hashInit hinit
    · exact h

theorem Tidy.remove (h : Tidy t) {a : Word} {r : ℤ} (hrem : removeValue t a = .ok (r,t'))
    (hfits : RemovalFits t a) : Tidy t' := by
  rcases h with h | h
  · exact .inl (h.remove hrem)
  · exact .inr (h.remove hrem hfits)

theorem removalFits_retouched (hre : Retouched t t') {a : Word} (h : RemovalFits t a) : RemovalFits t' a := by
  intro i j hi hstart hnext
  have hs : (t'.table i).startAddress = (t.table i).startAddress := hre.start (.slot i)
  have hn : (t'.table i).next = (t.table i).next := hre.next (.slot i)
  have he : (t'.table i).extent = (t.table i).extent := hre.extent (.slot i)
  have hx : (t'.nodePool j).extent = (t.nodePool j).extent := hre.extent (.pool j)
  rw [he,hx]
  exact h i j hi (hs.symm.trans hstart) (hn.symm.trans hnext)

theorem pageInMappings_head {i : Slot} {p : Ptr} (hi : slotOf addr = .ok i) (hstart : (t.table i).startAddress = addr)
    (h : pageInMappings t addr = .ok (some p)) : p = .slot i := by
  have hsearch : hashSearch t addr = .ok (some (.slot i)) := by
    unfold hashSearch searchSlot
    rw [hi]
    exact if_pos (decide_eq_true hstart)
  unfold pageInMappings at h
  rw [hsearch] at h
  cases h
  rfl

/-- The mapping that `wremap` makes does not spoil the removal of the old one. -/
theorem removalFits_wmap {p : Ptr} (h : RemovalFits s.tab addr) (hl : Layout s.initialised.tab)
    (hfound : pageInMappings s.tab addr = .ok (some p)) (hextent : (s.tab.entry p).extent.toNat ≤ pageCeil length.toInt)
    (hrun : wmap MMAPBASE length flags fd s = .ok v s') (hv : v ≠ -1) : RemovalFits s'.tab addr := by
  obtain ⟨u,hlen,hplaced,hins,-⟩ := (wmap_ok hrun).resolve_left fun hc => hv hc.1
  have hbumps : Bumps s.initialised.tab u.tab := by
    cases hplaced with
    | fixed _ _ _ hu => exact hu ▸ .refl
    | found base _ hbase => exact (dropping_searchBase _).ok hbase
  have hre := (bumps_retouched hbumps).1
  have hold : ∀ i, slotOf addr = .ok i → (s.initialised.tab.table i).startAddress = addr → s.initialised.tab = s.tab := by
    intro i hi hstart
    change Kernel.initialised s.tab = s.tab
    by_cases hinit : s.tab.hashInit = -1
    · have hempty : (s.initialised.tab.table i).startAddress = EMPTY := by
        simp [Ctx.initialised,Kernel.initialised,hinit,initHashTable]
      exact absurd (hstart.symm.trans hempty) (ne_empty_of_slotOf hi)
    · exact if_neg hinit
  refine RemovalFits.insert ?_ (hre.wf hl.wf) hins fun i hi hstart => ?_
  · refine removalFits_retouched hre fun i j hi hstart => ?_
    have htab := hold i hi hstart
    rw [htab] at hstart ⊢
    exact h i j hi hstart
  · have hstart' : (s.initialised.tab.table i).startAddress = addr := (hre.start (.slot i)).symm.trans hstart
    have hsame : (u.tab.table i).extent = (s.tab.table i).extent := by
      rw [← hold i hi hstart']
      exact hre.extent (.slot i)
    rw [hold i hi hstart'] at hstart'
    cases pageInMappings_head hi hstart' hfound
    rw [hsame]
    have hceil := pageCeil_of_pos hlen
    have hext : (Entry.extent ⟨v,(roundLength length).sdiv 4096,length,fd,flags,0⟩).toNat = _ := sdiv_extent hlen
    have hextent : ((s.tab.table i).extent.toNat : ℤ) ≤ pageCeil length.toInt := hextent
    omega

theorem Tidy.wunmap (h : Tidy s.tab) (hfits : RemovalFits s.tab addr) (hrun : wunmap addr s = .ok v s') :
    Tidy s'.tab := by
  rcases wunmap_ok hrun with ⟨-,-,rfl⟩ | ⟨p,t₁,r,t₂,-,-,hb₁,hrem,hb₂⟩
  · exact h
  · have hfits' := removalFits_retouched (bumps_retouched hb₁).1 hfits
    exact ((h.bumps hb₁).remove hrem hfits').bumps hb₂

theorem Tidy.resize (h : Tidy t) {p : Ptr} (hp : p ∈ t.allNodes) {newsize : Word}
    (hfits : pageCeil newsize.toInt ≤ (t.entry p).extent.toNat) :
    Tidy (t.setNode p { t.deref p with length := newsize }) := by
  have hre := retouched_setNode t p { t.deref p with length := newsize } rfl rfl rfl
  rcases h with h | h
  · obtain ⟨i,rfl⟩ := h.node hp
    rw [h.extent i,pageCeil_eq] at hfits
    have h0 : (0 : Word).toNat = 0 := rfl
    refine .inl (h.retouch hre fun k => ?_)
    by_cases hk : k = i
    · subst k
      simp only [Table.setNode,Table.setSlot,Function.update_self]
      omega
    · simpa [Table.setNode,Table.setSlot,hk] using h.length k
  · refine .inr (hre.layout h fun q hq => ?_)
    by_cases hqp : q = p
    · subst q
      cases p <;> simpa [Table.entry,Table.setNode,Table.setSlot,Table.setPool,Table.deref] using hfits
    · have hq' := (h.sound _ (by rw [entries_eq]; exact List.mem_map_of_mem hq)).bytes
      have hsame : (t.setNode p { t.deref p with length := newsize }).entry q = t.entry q := by
        cases p <;> cases q <;>
          simp_all [Table.entry,Table.setNode,Table.setSlot,Table.setPool,Table.deref]
      rw [hsame]
      exact hq'

theorem pageCeil_mono {m n : ℤ} (h : m ≤ n) : pageCeil m ≤ pageCeil n := by
  rw [pageCeil_eq,pageCeil_eq]
  omega

theorem Tidy.length_le (h : Tidy t) {p : Ptr} (hp : p ∈ t.allNodes) :
    pageCeil (t.entry p).length.toInt ≤ (t.entry p).extent.toNat := by
  rcases h with h | h
  · obtain ⟨i,rfl⟩ := h.node hp
    have hlen : (t.entry (.slot i)).length.toInt ≤ 0 := h.length i
    rw [pageCeil_eq]
    omega
  · exact (h.sound _ (by rw [entries_eq]; exact List.mem_map_of_mem hp)).bytes

theorem Tidy.wremap {oldaddr oldsize newsize : Word} (h : Tidy s.tab)
    (hfits : WremapFits s oldaddr oldsize newsize flags)
    (hrun : wremap oldaddr oldsize newsize flags s = .ok v s') : Tidy s'.tab := by
  cases wremap_ok hrun with
  | failed he =>
    rw [he]
    exact h
  | resized p hnamed hsize he =>
    obtain ⟨hp,-⟩ := pageInMappings_mem h.wf hnamed.found
    rw [he]
    refine h.resize hp ?_
    rcases hsize with hlt | hgrow
    · refine (pageCeil_mono ?_).trans (h.length_le hp)
      have hlen : (s.tab.entry p).length = oldsize := hnamed.length
      rw [hlen]
      omega
    · exact hfits.grow p hnamed hgrow
  | moved p u w newaddr r hnamed hgrow hflag hmap hne hb hunmap =>
    obtain ⟨hwmap,hremoval,hextent⟩ := hfits.move p hnamed hgrow hflag
    have hlayout : Tidy u.tab := .inr (wmap_layout h.initialised hwmap hmap)
    have hfits' := removalFits_wmap hremoval h.initialised hnamed.found hextent hmap hne
    have hfits' := removalFits_retouched (bumps_retouched hb).1 hfits'
    exact (hlayout.bumps hb).wunmap hfits' hunmap
  | unmoved p hnamed hgrow hflag hmap =>
    exact .inr (wmap_layout h.initialised (hfits.move p hnamed hgrow hflag).1 hmap)

theorem Tidy.getwmapinfo {l : List Info} (h : Tidy t) (hrun : getwmapinfo t = .ok (l,t')) : Tidy t' := by
  unfold Wmap.getwmapinfo at hrun
  split at hrun
  · cases hrun
    exact .inr (layout_init _ _)
  · obtain ⟨infos,-,hrun'⟩ := bind_ok hrun
    split at hrun'
    · cases hrun'
      exact h
    · cases hrun'

/-- A call that returns and meets the condition keeps the table tidy. -/
theorem Tidy.call {c : Call} {r : Answer} (h : Tidy s.tab) (hfits : Fits s c) (hrun : c.run s = .ok r s') :
    Tidy s'.tab := by
  cases c with
  | wmap addr length flags fd =>
    obtain ⟨v,u,hu,hpure⟩ := bind_eq_ok.mp hrun
    cases hpure
    exact .inr (wmap_layout h.initialised hfits hu)
  | wunmap addr =>
    obtain ⟨v,u,hu,hpure⟩ := bind_eq_ok.mp hrun
    cases hpure
    exact h.wunmap hfits hu
  | wremap oldaddr oldsize newsize flags =>
    obtain ⟨v,u,hu,hpure⟩ := bind_eq_ok.mp hrun
    cases hpure
    exact h.wremap hfits hu
  | getwmapinfo =>
    obtain ⟨v,u,hu,hpure⟩ := bind_eq_ok.mp hrun
    cases hpure
    exact h.getwmapinfo (sysGetwmapinfo_ok hu).1
  | fault va =>
    obtain ⟨v,u,hu,hpure⟩ := bind_eq_ok.mp hrun
    cases hpure
    exact h.bumps ((dropping_pageFault va).ok hu)
  | exit =>
    obtain ⟨v,u,hu,-⟩ := bind_eq_ok.mp hrun
    obtain ⟨_,w,-,hexit⟩ := bind_eq_ok.mp hu
    exact absurd hexit (neverReturns_exit w v u)

end Steps

structure CallStep (t : Table) (c : Ctx × Call) (t' : Table) : Prop where
  table : c.1.tab = t
  fits : Fits c.1 c.2
  returns : ∃ r s', c.2.run c.1 = .ok r s' ∧ s'.tab = t'

/-- In every run of calls that meet the condition, no two mappings overlap. -/
theorem no_overlap (calls : List (Ctx × Call)) (t : Table) (h : Run CallStep .boot calls t) : NoOverlap t := by
  refine Tidy.noOverlap (Run.invariant (I := fun _ t => Tidy t) (.inl blank_boot) ?_ h)
  intro _ u c v _ hu hstep
  obtain ⟨r,s',hrun,rfl⟩ := hstep.returns
  have htab := hstep.table
  subst htab
  exact hu.call hstep.fits hrun

section Instances

theorem NoOverlap.disjoint (h : NoOverlap t) {e f : Entry} (he : e ∈ t.entries) (hf : f ∈ t.entries)
    (hne : e ≠ f) : Disjoint e.byteRange f.byteRange := by
  have : Std.Symm fun e f : Entry => Disjoint e.byteRange f.byteRange := ⟨fun _ _ hd => Disjoint.symm hd⟩
  exact List.Pairwise.forall h he hf hne

def firstCtx : Ctx where
  tab := .boot
  mem := ⟨fun _ _ => 0,List.range' 0x400 64,⟨0x108,0x200,by decide,by decide,by decide⟩⟩
  files := ⟨fun _ => ⟨.none,0,false,false,0⟩,fun _ => ⟨false,false,1,1,[]⟩,fun _ => ⟨0,false,false⟩,100⟩
  unused := 62
  nextpid := 3
  cur :=
    { pid := 2
      initproc := false
      pgdir := ⟨0x300,fun d => if d = 0 then
        some (0x301,fun k => if k = 0 then ⟨0x302,true,true,true⟩ else .zero) else none⟩
      sz := 4096
      kstack := 0x303
      ofile := fun _ => none
      cwd := 1 }

/-- A fixed request checks its first page only: the second mapping covers the first one. -/
theorem overlap_fixed : ∃ r₁ s₁ r₂ s₂, (Call.wmap 0x60001000 4096 14 0).run firstCtx = .ok r₁ s₁ ∧
    (Call.wmap 0x60000000 8192 14 0).run s₁ = .ok r₂ s₂ ∧ ¬ NoOverlap s₂.tab := by
  refine ⟨_,_,_,_,rfl,rfl,?_⟩
  intro h
  have hd := NoOverlap.disjoint (e := ⟨0x60000000,2,8192,0,14,0⟩) (f := ⟨0x60001000,1,4096,0,14,0⟩) h
    (by decide +kernel) (by decide +kernel) (by decide)
  have h1 : (0x60001000 : ℤ) ∈ Entry.byteRange ⟨0x60000000,2,8192,0,14,0⟩ := by
    constructor <;> decide
  have h2 : (0x60001000 : ℤ) ∈ Entry.byteRange ⟨0x60001000,1,4096,0,14,0⟩ := by
    constructor <;> decide
  exact Set.disjoint_left.mp hd h1 h2

theorem wmapFits_fixed {l : List Entry} (hflags : flags &&& MAP_FIXED ≠ 0) (hl : s.initialised.tab.entries = l)
    (hfree : ∀ e ∈ l, (PGROUNDDOWN addr).toNat+(pageCeil length.toInt).toNat ≤ e.startAddress.toNat ∨
      e.limit ≤ (PGROUNDDOWN addr).toNat) : WmapFits s addr length flags := by
  refine ⟨fun _ _ => ?_,fun h => absurd h hflags⟩
  unfold Free
  rw [hl]
  exact hfree

/-- A mapping that is in the way of its neighbour's growth makes it move. -/
theorem no_overlap_moved : ∃ s₁ s₂ s₃ : Ctx, Run CallStep .boot [(firstCtx,.wmap 0x603FF000 1 14 0),
      (s₁,.wmap 0x60400000 4096 14 0),(s₂,.wremap 0x603FF000 1 8192 MREMAP_MAYMOVE)] s₃.tab ∧
    s₃.tab.entries = [⟨0x60400000,1,4096,0,14,0⟩,⟨0x60401000,2,8192,0,6,1⟩] ∧ NoOverlap s₃.tab := by
  obtain ⟨s₁,s₂,h₁,h₂,he₀,he₁,hfound,hgrow,hbase,hnode,hmove⟩ : ∃ s₁ s₂,
      (Call.wmap 0x603FF000 1 14 0).run firstCtx = .ok (.value 0x603FF000) s₁ ∧
      (Call.wmap 0x60400000 4096 14 0).run s₁ = .ok (.value 0x60400000) s₂ ∧
      firstCtx.initialised.tab.entries = [] ∧ s₁.initialised.tab.entries = [⟨0x603FF000,1,1,0,14,0⟩] ∧
      pageInMappings s₂.tab 0x603FF000 = .ok (some (.slot 12)) ∧
      canGrowInPlace s₂.tab 0x603FF000 1 8192 = .ok false ∧
      returns (fun base _ => decide (base = 0x60401000)) (searchBase (PGROUNDDOWN MMAPBASE) s₂.initialised) = true ∧
      s₂.tab.table 12 = ⟨⟨0x603FF000,1,1,0,14,0⟩,none⟩ ∧
      returns (fun _ s₃ => decide (s₃.tab.entries = [⟨0x60400000,1,4096,0,14,0⟩,⟨0x60401000,2,8192,0,6,1⟩]))
        ((Call.wremap 0x603FF000 1 8192 MREMAP_MAYMOVE).run s₂) = true :=
    ⟨_,_,rfl,rfl,by decide +kernel,by decide +kernel,by decide +kernel,by decide +kernel,by decide +kernel,rfl,
      by decide +kernel⟩
  have hfits₁ : Fits firstCtx (.wmap 0x603FF000 1 14 0) := wmapFits_fixed (by decide) he₀ nofun
  have hfits₂ : Fits s₁ (.wmap 0x60400000 4096 14 0) := wmapFits_fixed (by decide) he₁ (by decide)
  have hfits₃ : Fits s₂ (.wremap 0x603FF000 1 8192 MREMAP_MAYMOVE) := by
    refine ⟨fun p _ hg => ?_,fun p hp _ _ => ?_⟩
    · rw [hgrow] at hg
      cases hg
    · cases hfound.symm.trans hp.found
      have hflags : (s₂.tab.deref (.slot 12)).flags-MAP_FIXED = 6 := congrArg (fun n : Node => n.flags-MAP_FIXED) hnode
      have hext : (s₂.tab.entry (.slot 12)).extent = 4096 := congrArg (fun n : Node => n.toEntry.extent) hnode
      rw [hflags,hext]
      refine ⟨⟨fun hc => absurd hc (by decide),fun _ base s' hs' => ?_⟩,fun i j hi _ hj => ?_,by decide⟩
      · rw [hs'] at hbase
        obtain ⟨_,_,hok,haddr⟩ := exists_of_returns hbase
        cases hok
        rw [of_decide_eq_true haddr]
        rfl
      · have hi' : slotOf 0x603FF000 = .ok 12 := by decide
        cases hi'.symm.trans hi
        rw [hnode] at hj
        cases hj
  obtain ⟨r,s₃,h₃,hentries⟩ := exists_of_returns hmove
  have hrun : Run CallStep .boot [(firstCtx,.wmap 0x603FF000 1 14 0),(s₁,.wmap 0x60400000 4096 14 0),
      (s₂,.wremap 0x603FF000 1 8192 MREMAP_MAYMOVE)] s₃.tab :=
    .snoc (.snoc (.snoc .nil ⟨rfl,hfits₁,_,_,h₁,rfl⟩) ⟨rfl,hfits₂,_,_,h₂,rfl⟩) ⟨rfl,hfits₃,_,_,h₃,rfl⟩
  exact ⟨s₁,s₂,s₃,hrun,of_decide_eq_true hentries,no_overlap _ _ hrun⟩

end Instances
end Xv6.Kernel
