import Xv6.Kernel.NoOverlap
import Xv6.Wmap.Copies

/-! # Lookups and reports on reachable tables

The lookup of a page and the report of the mappings are right exactly when nothing lies
outside the arrays they go by: the slot index must not be negative, and the report has
room for sixteen mappings.
-/
namespace Xv6.Kernel
open Wmap Program
variable {t : Table} {a : Word} {p : Ptr} {e : Entry}

section Lookup

def Entry.Holds (e : Entry) (a : Word) : Prop := e.startAddress.toNat ≤ a.toNat ∧ a.toNat < e.limit

/-- The lookup returns a live mapping with the address on one of its pages, or nothing if there is none. -/
def LookupRight (t : Table) (a : Word) : Prop := ∃ r, pageInMappings t a = .ok r ∧
  match r with
  | some p => p ∈ t.allNodes ∧ (a.toNat : ℤ) ∈ (t.entry p).byteRange
  | none => ∀ p ∈ t.allNodes, (a.toNat : ℤ) ∉ (t.entry p).byteRange

/-- The remainder of the address is not negative, and a node that starts at it has a byte. Without such
a node, the first one that the scan takes for it has the address on one of its pages, and the scan takes
one for it if it is on a page of any. -/
structure Searchable (t : Table) (a : Word) : Prop where
  slot : 0 ≤ Wmap.hash a
  start : ∀ p, hashSearch t a = .ok (some p) → 0 < (t.entry p).length.toInt
  taken : hashSearch t a = .ok none → ∀ p, t.allNodes.find? (fun p => (t.entry p).covers a) = some p →
    (a.toNat : ℤ) ∈ (t.entry p).byteRange
  missed : hashSearch t a = .ok none → (∃ p ∈ t.allNodes, (a.toNat : ℤ) ∈ (t.entry p).byteRange) →
    ∃ p ∈ t.allNodes, (t.entry p).covers a = true

theorem slotOf_iff (a : Word) : (∃ i, slotOf a = .ok i) ↔ 0 ≤ Wmap.hash a := by
  unfold slotOf
  constructor
  · rintro ⟨i,hi⟩
    by_contra hneg
    rw [if_neg hneg] at hi
    cases hi
  · intro hpos
    exact ⟨_,if_pos hpos⟩

theorem start_mem_byteRange (e : Entry) : (e.startAddress.toNat : ℤ) ∈ e.byteRange ↔ 0 < e.length.toInt := by
  rw [Entry.byteRange,Set.mem_Ico,pageCeil_eq]
  omega

/-- The lookup is right exactly where the page counts and the lengths agree at the address. -/
theorem lookup_right (t : Table) (h : Reachable t) (a : Word) : LookupRight t a ↔ Searchable t a := by
  have hw := h.wf
  constructor
  · rintro ⟨r,hr,hright⟩
    obtain ⟨i,hi⟩ := pageInMappings_slot hr
    have hsearch := hashSearch_eq hw hi
    rw [pageInMappings_eq hw hi,Except.ok.injEq,Table.findPage] at hr
    refine ⟨(slotOf_iff a).mp ⟨i,hi⟩,?_,?_,?_⟩
    · intro p hp
      rw [hsearch,Except.ok.injEq] at hp
      rw [hp,Option.some_or] at hr
      subst hr
      have hstart : (t.entry p).startAddress = a := by simpa using List.find?_some hp
      exact (start_mem_byteRange _).mp (hstart ▸ hright.2)
    all_goals
      intro hnone
      rw [hsearch,Except.ok.injEq] at hnone
      rw [hnone,Option.none_or] at hr
    · intro p hp
      rw [hp] at hr
      subst hr
      exact hright.2
    · rintro ⟨q,hq,hmem⟩
      cases r with
      | none => exact absurd hmem (hright q hq)
      | some p => exact ⟨p,hright.1,by simpa using List.find?_some hr⟩
  · intro hs
    obtain ⟨i,hi⟩ := (slotOf_iff a).mpr hs.slot
    have hsearch := hashSearch_eq hw hi
    refine ⟨_,pageInMappings_eq hw hi,?_⟩
    rw [Table.findPage]
    cases hfind : (t.nodes i).find? fun p => (t.entry p).startAddress = a with
    | some p =>
      have hstart : (t.entry p).startAddress = a := by simpa using List.find?_some hfind
      have hmem := (start_mem_byteRange _).mpr (hs.start p (hfind ▸ hsearch))
      exact ⟨mem_allNodes_of_nodes (List.mem_of_find?_eq_some hfind),hstart ▸ hmem⟩
    | none =>
      rw [Option.none_or]
      cases hscan : t.allNodes.find? fun p => (t.entry p).covers a with
      | some p => exact ⟨List.mem_of_find?_eq_some hscan,hs.taken (hfind ▸ hsearch) p hscan⟩
      | none =>
        intro p hp hmem
        obtain ⟨q,hq,hcov⟩ := hs.missed (hfind ▸ hsearch) ⟨p,hp,hmem⟩
        exact List.find?_eq_none.mp hscan q hq hcov

/-- Two mappings in the slot of `0x60000000`. -/
def sameSlot : List Call := [.wmap 0x60000000 8192 14 0,.wmap 0x60013000 5000 14 0]

/-- At the first address of the kernel the remainder is negative and the lookup reads in front of
the table. -/
theorem lookup_kernbase : ∃ s, runCalls sameSlot firstCtx = some s ∧ Reachable s.tab ∧
    pageInMappings s.tab KERNBASE = .error .undefined ∧ ¬ LookupRight s.tab KERNBASE := by
  obtain ⟨s,hs,hundef⟩ : ∃ s, runCalls sameSlot firstCtx = some s ∧ pageInMappings s.tab KERNBASE = .error .undefined :=
    ⟨_,rfl,by decide +kernel⟩
  refine ⟨s,hs,Reachable.runCalls .boot hs,hundef,?_⟩
  rintro ⟨r,hr,-⟩
  rw [hundef] at hr
  cases hr

/-- An address on the second page of the mapping that is further down in the chain. -/
theorem lookup_right_chained : ∃ s, runCalls sameSlot firstCtx = some s ∧
    s.tab.entries = [⟨0x60000000,2,8192,0,14,0⟩,⟨0x60013000,2,5000,0,14,0⟩] ∧ Searchable s.tab 0x60014004 ∧
    ∃ p, pageInMappings s.tab 0x60014004 = .ok (some p) ∧ 0x60014004 ∈ (s.tab.entry p).byteRange := by
  obtain ⟨s,hs,hentries,hsearch,hscan,hnode⟩ : ∃ s, runCalls sameSlot firstCtx = some s ∧
      s.tab.entries = [⟨0x60000000,2,8192,0,14,0⟩,⟨0x60013000,2,5000,0,14,0⟩] ∧
      hashSearch s.tab 0x60014004 = .ok none ∧
      s.tab.allNodes.find? (fun p => (s.tab.entry p).covers 0x60014004) = some (.pool 0) ∧
      s.tab.entry (.pool 0) = ⟨0x60013000,2,5000,0,14,0⟩ :=
    ⟨_,rfl,by decide +kernel,by decide +kernel,by decide +kernel,rfl⟩
  have hmem : ((0x60014004 : Word).toNat : ℤ) ∈ (s.tab.entry (.pool 0)).byteRange := by
    rw [hnode]
    constructor <;> decide
  have hsearchable : Searchable s.tab 0x60014004 := by
    refine ⟨by decide,fun p hp => ?_,fun _ p hp => ?_,fun _ _ => ?_⟩
    · cases hsearch.symm.trans hp
    · cases hscan.symm.trans hp
      exact hmem
    · exact ⟨.pool 0,List.mem_of_find?_eq_some hscan,List.find?_some (p := fun p => (s.tab.entry p).covers _) hscan⟩
  obtain ⟨r,hr,hright⟩ := (lookup_right s.tab (Reachable.runCalls .boot hs) 0x60014004).mpr hsearchable
  cases r with
  | none => exact absurd hmem (hright (.pool 0) (List.mem_of_find?_eq_some hscan))
  | some p => exact ⟨s,hs,hentries,hsearchable,p,hr,hright.2⟩

end Lookup

section Report

def liveEntries (t : Table) : List Entry := if t.hashInit = -1 then [] else t.entries

/-- `getwmapinfo` reports the live mappings, each of them once. -/
def ReportRight (s : Ctx) : Prop := ∃ l s', sysGetwmapinfo s = .ok l s' ∧
  l.Perm ((liveEntries s.tab).map Entry.info)

theorem sysGetwmapinfo_apply {s : Ctx} {l : List Info} (h : getwmapinfo s.tab = .ok (l,t)) :
    sysGetwmapinfo s = .ok l { s with tab := t } := by
  unfold sysGetwmapinfo
  rw [bind_apply,onTable_apply,h]
  rfl

theorem ReportRight.length_le {s : Ctx} (h : ReportRight s) (hw : WF s.tab) :
    (liveEntries s.tab).length ≤ MAX_WMMAP_INFO := by
  obtain ⟨l,s',hrun,-⟩ := h
  have hl := (sysGetwmapinfo_ok hrun).1
  unfold liveEntries
  split
  · simp
  · rename_i hinit
    rw [getwmapinfo_eq hw hinit] at hl
    split at hl
    · assumption
    · cases hl

theorem reportRight_of_length {s : Ctx} (hw : WF s.tab) (hlen : (liveEntries s.tab).length ≤ MAX_WMMAP_INFO) :
    ReportRight s := by
  unfold ReportRight
  unfold liveEntries at hlen ⊢
  split at hlen
  · rename_i hinit
    have hreport : getwmapinfo s.tab = .ok ([],{ initHashTable s.tab with hashInit := 0 }) := if_pos hinit
    rw [if_pos hinit]
    exact ⟨_,_,sysGetwmapinfo_apply hreport,.rfl⟩
  · rename_i hinit
    have hreport := getwmapinfo_eq hw hinit
    rw [if_pos hlen] at hreport
    rw [if_neg hinit]
    exact ⟨_,_,sysGetwmapinfo_apply hreport,.rfl⟩

/-- The report is exact if and only if at most sixteen mappings are live. -/
theorem report_right (s : Ctx) (h : Reachable s.tab) :
    ReportRight s ↔ (liveEntries s.tab).length ≤ MAX_WMMAP_INFO :=
  ⟨fun hright => hright.length_le h.wf,reportRight_of_length h.wf⟩

def onePagers (n : ℕ) : List Call := (List.range n).map fun k =>
  .wmap (pageAt MMAPBASE k) 4096 (MAP_SHARED ||| MAP_ANONYMOUS ||| MAP_FIXED) 0

theorem runCalls_onePagers {n : ℕ} (hlen : (runCalls (onePagers n) firstCtx).map
    (fun s => (liveEntries s.tab).length) = some n) : ∃ s, runCalls (onePagers n) firstCtx = some s ∧
      Reachable s.tab ∧ (liveEntries s.tab).length = n := by
  obtain ⟨s,hs,hlen⟩ := Option.map_eq_some_iff.mp hlen
  exact ⟨s,hs,Reachable.runCalls .boot hs,hlen⟩

theorem report_right_sixteen : ∃ s, runCalls (onePagers 16) firstCtx = some s ∧ Reachable s.tab ∧
    (liveEntries s.tab).length = 16 ∧ ReportRight s := by
  obtain ⟨s,hs,hr,hlen⟩ := runCalls_onePagers (n := 16) (by decide +kernel)
  exact ⟨s,hs,hr,hlen,(report_right s hr).mpr hlen.le⟩

/-- Seventeen mappings fit in the table, and the report of them does not fit in the record. -/
theorem report_seventeen : ∃ s, runCalls (onePagers 17) firstCtx = some s ∧ Reachable s.tab ∧
    (liveEntries s.tab).length = 17 ∧ ¬ ReportRight s := by
  obtain ⟨s,hs,hr,hlen⟩ := runCalls_onePagers (n := 17) (by decide +kernel)
  refine ⟨s,hs,hr,hlen,fun hright => ?_⟩
  have hle := hright.length_le hr.wf
  rw [hlen] at hle
  exact absurd hle (by decide)

end Report
end Xv6.Kernel
