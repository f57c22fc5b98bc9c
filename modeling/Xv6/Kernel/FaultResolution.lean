import Xv6.Kernel.FaultBody
import Xv6.Kernel.Queries

/-! # Resolved page faults

A fault in a mapping ends with the page loaded, or with the end of the process, exactly
when the region of the page has no page table yet and the memory is either used up or
enough for an anonymous page and its page table.
-/
namespace Xv6.Kernel
open Wmap Program
variable {s s' s₁ : Ctx} {x a y : Word} {p : Ptr} {f g : Frame} {fs : List Frame} {pd : PageDir}

section Resolution

/-- The page of the address is present for the user, in the first free frame and with at most a
new page table in the second; no other page has changed, and the mapping counts one more page. -/
structure Loaded (s s' : Ctx) (x : Word) : Prop where
  page : ∃ f, walkpgdir s'.cur.pgdir x = some ⟨f,true,true,true⟩ ∧
    (s.mem.freelist = f :: s'.mem.freelist ∨ ∃ g, s.cur.pgdir.pde (PDX x) = none ∧
      (s'.cur.pgdir.pde (PDX x)).map Prod.fst = some g ∧ s.mem.freelist = f :: g :: s'.mem.freelist)
  others : ∀ y m, y.toNat/4096 ≠ x.toNat/4096 → translate s'.cur.pgdir m y = translate s.cur.pgdir m y
  count : ∃ p ∈ s.tab.allNodes, Entry.Holds (s.tab.entry p) x ∧
    s'.tab = s.tab.setNode p { s.tab.deref p with loadedPages := (s.tab.deref p).loadedPages+1 }

/-- The fault kills the process and costs no memory, or the page is loaded. -/
def Good (s : Ctx) (x : Word) : EStateM.Result Stop Ctx Bool → Prop
  | .ok true s' => s'.mem.freelist = s.mem.freelist
  | .ok false s' => Loaded s s' x
  | .error _ _ => False

def Resolved (s : Ctx) (x : Word) : Prop := Good s x (faultBody x s)

theorem Loaded.length_le (h : Loaded s s' x) : s.mem.freelist.length ≤ s'.mem.freelist.length+2 := by
  obtain ⟨f,-,hfree | ⟨g,-,-,hfree⟩⟩ := h.page
  · rw [hfree,List.length_cons]
    omega
  · rw [hfree,List.length_cons,List.length_cons]

theorem Loaded.present (h : Loaded s s' x) : s'.cur.pgdir.present x := by
  obtain ⟨f,hwalk,-⟩ := h.page
  exact ⟨_,hwalk,rfl⟩

theorem Loaded.head (h : Loaded s s' x) (hfree : s.mem.freelist = f :: fs) :
    walkpgdir s'.cur.pgdir x = some ⟨f,true,true,true⟩ := by
  obtain ⟨f',hwalk,hlist | ⟨g,-,-,hlist⟩⟩ := h.page
  · rw [hfree] at hlist
    rw [hwalk,(List.cons.inj hlist).1]
  · rw [hfree] at hlist
    rw [hwalk,(List.cons.inj hlist).1]

theorem not_loaded_of_next (hfree : s.mem.freelist = f :: fs) (hpres : ¬ s.cur.pgdir.present y)
    (hwalk : walkpgdir s'.cur.pgdir y = some ⟨f+1,true,true,true⟩) : ¬ Loaded s s' x := by
  intro h
  by_cases hy : y.toNat/4096 = x.toNat/4096
  · rw [walkpgdir_page hy,h.head hfree,Option.some.injEq,Pte.mk.injEq] at hwalk
    exact (Nat.lt_succ_self f).ne hwalk.1
  · have hother := h.others y .kernelRead hy
    rw [translate,hwalk] at hother
    change some (f+1) = _ at hother
    rw [translate] at hother
    split at hother
    · cases hother
    · rename_i pte hpte
      split at hother
      · rename_i hallowed
        exact hpres ⟨pte,hpte,hallowed⟩
      · cases hother

theorem setNode_inj {t : Table} {q : Ptr}
    (h : t.setNode p { t.deref p with loadedPages := (t.deref p).loadedPages+1 } =
      t.setNode q { t.deref q with loadedPages := (t.deref q).loadedPages+1 }) : p = q := by
  by_contra hne
  have hcount := congrArg (fun t : Table => (t.deref p).loadedPages) h
  simp only [deref_setNode,if_true,if_neg hne] at hcount
  bv_omega

theorem present_withPage (h : (pd.withPage a f g).present x) : pd.present x ∨ a.toNat/4096 = x.toNat/4096 := by
  rcases present_setPte h with h | h
  · exact .inl (present_addTable h)
  · have hdown := PGROUNDDOWN_toNat a
    exact .inr (by omega)

/-- An anonymous page is loaded if and only if there is a second frame for the page table, the
page is the one of the address, and no second page is mapped with it. -/
theorem loaded_iff {L : List Frame} (s₁ : Ctx) (habs : ¬ s.cur.pgdir.present x) (hp : p ∈ s.tab.allNodes)
    (hnone : s.cur.pgdir.pde (PDX a) = none) (hfree : s.mem.freelist = f :: L) (hcur : s₁.cur = s.cur)
    (htab : s₁.tab = s.tab) (hL : s₁.mem.freelist = L) (hrun : mapPage p a f s₁ = .ok false s') :
    Loaded s s' x ↔ ∃ g fs, L = g :: fs ∧ Entry.Holds (s.tab.entry p) x ∧ a.toNat/4096 = x.toNat/4096 ∧
      OnePage s.cur.pgdir a fs := by
  obtain ⟨s'',hrun',htab',-,-,hcases⟩ := mapPage_outcome (p := p) (f := f) (a := a) (s := s₁) (hcur ▸ hnone)
  rw [hrun] at hrun'
  cases hrun'
  rw [hcur,hL] at hcases
  rw [htab] at htab'
  rcases hcases with ⟨hnil,hpd,-⟩ | ⟨g,fs,hcons,hlen,⟨hone,hpd,hfs⟩ | ⟨hone,hpres,hwalk,-⟩⟩
  · constructor
    · intro h
      have := h.present
      rw [hpd] at this
      exact absurd this habs
    · rintro ⟨g,fs,hcons,-⟩
      rw [hnil] at hcons
      cases hcons
  · constructor
    · intro h
      refine ⟨g,fs,hcons,?_,?_,hone⟩
      · obtain ⟨q,-,hq,hset⟩ := h.count
        rw [htab'] at hset
        exact setNode_inj hset ▸ hq
      · have hpres := h.present
        rw [hpd] at hpres
        exact (present_withPage hpres).resolve_left habs
    · rintro ⟨g',fs',-,hholds,hpage,-⟩
      have hwalk : walkpgdir s'.cur.pgdir x = some ⟨f,true,true,true⟩ := by
        rw [hpd,← walkpgdir_page hpage,walkpgdir_withPage,if_pos rfl,if_pos rfl]
      have hregion : PDX x = PDX a := by
        apply Fin.ext
        rw [PDX_val,PDX_val]
        omega
      refine ⟨⟨f,hwalk,.inr ⟨g,hregion ▸ hnone,?_,?_⟩⟩,?_,p,hp,hholds,htab'⟩
      · rw [hpd,hregion]
        simp [PageDir.withPage,PageDir.setPte,PageDir.addTable,PDX_PGROUNDDOWN]
      · rw [hfree,hcons,hfs]
      · intro y m hy
        rw [hpd]
        exact translate_withPage_ne hnone (hpage ▸ hy) m
  · constructor
    · exact fun h => absurd h (not_loaded_of_next hfree hpres hwalk)
    · rintro ⟨g',fs',hcons',-,-,hone'⟩
      rw [hcons] at hcons'
      cases hcons'
      exact absurd hone' hone

theorem ofile_state {fd : Word} {r : Option (Fin NFILE)} (h : ofile fd s = .ok r s') : s' = s := by
  unfold ofile at h
  split at h
  · cases h
    rfl
  · cases h

theorem not_good_mapPage (habs : ¬ s.cur.pgdir.present x) (hnone : s.cur.pgdir.pde (PDX a) = none)
    (hfree : s.mem.freelist = f :: g :: fs) (hcur : s₁.cur = s.cur) (hL : s₁.mem.freelist = fs) :
    ¬ Good s x (mapPage p a g s₁) := by
  obtain ⟨s',hrun,-,-,-,hcases⟩ := mapPage_outcome (p := p) (f := g) (a := a) (s := s₁) (hcur ▸ hnone)
  rw [hrun]
  intro h
  rcases hcases with ⟨-,hpd,-⟩ | ⟨g',fs',hcons,hlen,-⟩
  · have hpres := Loaded.present h
    rw [hpd,hcur] at hpres
    exact habs hpres
  · have hle := Loaded.length_le h
    rw [hL] at hcons
    rw [hfree,hcons] at hle
    simp only [List.length_cons] at hle
    omega

/-- The frame that was cleared for a page of a file is lost, whatever follows. -/
theorem not_good_loadFile {L : List Frame} (s₁ : Ctx) (habs : ¬ s.cur.pgdir.present x)
    (hnone : s.cur.pgdir.pde (PDX a) = none) (hfree : s.mem.freelist = f :: L) (hcur : s₁.cur = s.cur)
    (hL : s₁.mem.freelist = L) (fd : Word) : ¬ Good s x (loadFile p fd a s₁) := by
  unfold loadFile
  rw [bind_apply,kalloc_apply,hL]
  cases L with
  | nil =>
    intro h
    change s₁.mem.freelist = s.mem.freelist at h
    rw [hL,hfree] at h
    cases h
  | cons g fs =>
    dsimp only
    rw [bind_apply]
    cases hfile : ofile fd { s₁ with mem := { s₁.mem with freelist := fs } } with
    | error e u => exact id
    | ok file u =>
      obtain rfl := ofile_state hfile
      cases file with
      | none =>
        intro h
        change fs = s.mem.freelist at h
        rw [hfree] at h
        have := congrArg List.length h
        simp only [List.length_cons] at this
        omega
      | some k =>
        dsimp only
        rw [bind_apply]
        cases hread : fileread k 4096 { s₁ with mem := { s₁.mem with freelist := fs } } with
        | error e u => exact id
        | ok bytes u =>
          cases bytes with
          | none => exact id
          | some bytes =>
            have hu := filesOnly_fileread hread
            exact not_good_mapPage habs hnone hfree (by rw [hu]; exact hcur) (by rw [hu])

def Ctx.cleared (s : Ctx) (f : Frame) (free : List Frame) : Ctx := { s with mem := { s.mem with
  page := Function.update s.mem.page f (fun _ => 0)
  freelist := free } }

theorem faultBody_found (h : pageInMappings s.tab x = .ok (some p)) : faultBody x s =
    match walkpgdir s.cur.pgdir (faultPage (s.tab.deref p).startAddress x) with
    | some _ => .ok false s
    | none =>
      match s.mem.freelist with
      | [] => .ok true s
      | f :: free =>
        if (s.tab.deref p).flags &&& MAP_ANONYMOUS ≠ 0 then
          mapPage p (faultPage (s.tab.deref p).startAddress x) f (s.cleared f free)
        else loadFile p (s.tab.deref p).fd (faultPage (s.tab.deref p).startAddress x) (s.cleared f free) := by
  unfold faultBody
  rw [bind_apply,onTable_apply,h]
  dsimp only
  rw [get_bind_apply,get_bind_apply]
  cases walkpgdir s.cur.pgdir (faultPage (s.tab.deref p).startAddress x) with
  | some pte => rfl
  | none =>
    dsimp only
    rw [bind_apply,kalloc_apply]
    cases s.mem.freelist with
    | nil => rfl
    | cons f free =>
      dsimp only
      split <;> rfl

def MappingResolvable (s : Ctx) (x : Word) (p : Ptr) : Prop :=
  walkpgdir s.cur.pgdir (faultPage (s.tab.deref p).startAddress x) = none ∧
  (s.mem.freelist = [] ∨ ∃ f g fs, s.mem.freelist = f :: g :: fs ∧
    (s.tab.deref p).flags &&& MAP_ANONYMOUS ≠ 0 ∧ Entry.Holds (s.tab.entry p) x ∧
    (faultPage (s.tab.deref p).startAddress x).toNat/4096 = x.toNat/4096 ∧
    OnePage s.cur.pgdir (faultPage (s.tab.deref p).startAddress x) fs)

theorem good_found (habs : ¬ s.cur.pgdir.present x) (hfound : pageInMappings s.tab x = .ok (some p))
    (hmem : p ∈ s.tab.allNodes) : Good s x (faultBody x s) ↔ MappingResolvable s x p := by
  rw [faultBody_found hfound,MappingResolvable]
  cases hwalk : walkpgdir s.cur.pgdir (faultPage (s.tab.deref p).startAddress x) with
  | some pte =>
    refine ⟨fun h => absurd (Loaded.present h) habs,fun h => ?_⟩
    cases h.1
  | none =>
    have hnone : s.cur.pgdir.pde (PDX (faultPage (s.tab.deref p).startAddress x)) = none := by
      rwa [walkpgdir,Option.map_eq_none_iff] at hwalk
    cases hfree : s.mem.freelist with
    | nil => exact ⟨fun _ => ⟨rfl,.inl rfl⟩,fun _ => rfl⟩
    | cons f free =>
      dsimp only
      by_cases hanon : (s.tab.deref p).flags &&& MAP_ANONYMOUS ≠ 0
      · rw [if_pos hanon]
        obtain ⟨s',hrun,-⟩ := mapPage_outcome (p := p) (f := f) (s := s.cleared f free) hnone
        rw [hrun]
        change Loaded s s' x ↔ _
        rw [loaded_iff (s.cleared f free) habs hmem hnone hfree rfl rfl rfl hrun]
        constructor
        · rintro ⟨g,fs,rfl,hrest⟩
          exact ⟨rfl,.inr ⟨f,g,fs,rfl,hanon,hrest⟩⟩
        · rintro ⟨-,hnil | ⟨f',g,fs,hcons,-,hrest⟩⟩
          · cases hnil
          · cases hcons
            exact ⟨g,fs,rfl,hrest⟩
      · rw [if_neg hanon]
        constructor
        · exact fun h => absurd h (not_good_loadFile (s.cleared f free) habs hnone hfree rfl rfl _)
        · rintro ⟨-,hnil | ⟨f',g,fs,-,hanon',-⟩⟩
          · cases hnil
          · exact absurd hanon' hanon

/-- The condition on a fault: the lookup stays in the table, and if it finds a mapping, there is
no page table for the page that the handler turns to, and either no free frame at all or, for an
anonymous mapping, frames for the page and for its page table. -/
structure Resolvable (s : Ctx) (x : Word) : Prop where
  slot : 0 ≤ Wmap.hash x
  found : ∀ p, pageInMappings s.tab x = .ok (some p) → MappingResolvable s x p

/-- A page fault at an absent page is resolved if and only if it meets the condition. -/
theorem fault_resolved (s : Ctx) (h : Reachable s.tab) (x : Word) (habs : ¬ s.cur.pgdir.present x) :
    Resolved s x ↔ Resolvable s x := by
  unfold Resolved
  by_cases hslot : 0 ≤ Wmap.hash x
  · obtain ⟨i,hi⟩ := (slotOf_iff x).mpr hslot
    have hlookup := pageInMappings_eq h.wf hi
    cases hr : s.tab.findPage i x with
    | none =>
      rw [hr] at hlookup
      have hbody : faultBody x s = .ok true s := by
        unfold faultBody
        rw [bind_apply,onTable_apply,hlookup]
        rfl
      rw [hbody]
      refine ⟨fun _ => ⟨hslot,fun p hp => ?_⟩,fun _ => rfl⟩
      rw [hlookup] at hp
      cases hp
    | some p =>
      rw [hr] at hlookup
      rw [good_found habs hlookup (pageInMappings_mem h.wf hlookup).1]
      refine ⟨fun hcond => ⟨hslot,fun q hq => ?_⟩,fun hcond => hcond.found p hlookup⟩
      rw [hlookup] at hq
      cases hq
      exact hcond
  · have hundef : pageInMappings s.tab x = .error .undefined := by
      rw [pageInMappings,hashSearch,slotOf,if_neg hslot]
      rfl
    have hbody : faultBody x s = .error .undefined s := by
      unfold faultBody
      rw [bind_apply,onTable_apply,hundef]
    rw [hbody]
    exact ⟨False.elim,fun hcond => absurd hcond.slot hslot⟩

end Resolution

section Instances

/-- The calls leave one anonymous mapping of two pages at `MMAPBASE`, whose page at the address is
not present. -/
def twoPages (calls : List Call) (x : Word) (loaded : Word) (pte : Option Pte) : Bool :=
  match runCalls calls firstCtx with
  | some s => decide (s.tab.allNodes = [.slot 7] ∧ s.tab.entry (.slot 7) = ⟨MMAPBASE,2,8192,0,14,loaded⟩ ∧
      pageInMappings s.tab x = .ok (some (.slot 7)) ∧ walkpgdir s.cur.pgdir x = pte ∧
      2 ≤ s.mem.freelist.length)
  | none => false

structure TwoPages (s : Ctx) (x loaded : Word) (pte : Option Pte) : Prop where
  reachable : Reachable s.tab
  nodes : s.tab.allNodes = [.slot 7]
  entry : s.tab.entry (.slot 7) = ⟨MMAPBASE,2,8192,0,14,loaded⟩
  found : pageInMappings s.tab x = .ok (some (.slot 7))
  walk : walkpgdir s.cur.pgdir x = pte
  free : 2 ≤ s.mem.freelist.length

theorem exists_twoPages (calls : List Call) (x loaded : Word) (pte : Option Pte)
    (h : twoPages calls x loaded pte = true) : ∃ s, runCalls calls firstCtx = some s ∧ TwoPages s x loaded pte := by
  unfold twoPages at h
  split at h
  · rename_i s hs
    obtain ⟨h1,h2,h3,h4,h5⟩ := of_decide_eq_true h
    exact ⟨s,hs,Reachable.runCalls .boot hs,h1,h2,h3,h4,h5⟩
  · cases h

theorem fault_resolved_first : ∃ s, runCalls [.wmap MMAPBASE 8192 14 0] firstCtx = some s ∧
    Resolvable s MMAPBASE ∧ Resolved s MMAPBASE := by
  obtain ⟨s,hs,h⟩ := exists_twoPages [.wmap MMAPBASE 8192 14 0] MMAPBASE 0 none (by decide +kernel)
  have habs : ¬ s.cur.pgdir.present MMAPBASE := by
    rintro ⟨pte,hw,-⟩
    rw [h.walk] at hw
    cases hw
  have hcond : Resolvable s MMAPBASE := by
    refine ⟨by decide,fun p hp => ?_⟩
    rw [h.found] at hp
    cases hp
    have hstart : (s.tab.deref (.slot 7)).startAddress = MMAPBASE := congrArg Entry.startAddress h.entry
    have hflags : (s.tab.deref (.slot 7)).flags = 14 := congrArg Entry.flags h.entry
    have hpage : faultPage MMAPBASE MMAPBASE = MMAPBASE := by decide
    rw [MappingResolvable,hstart,hflags,hpage]
    refine ⟨h.walk,.inr ?_⟩
    match hfree : s.mem.freelist, h.free with
    | f :: g :: fs, _ =>
      refine ⟨f,g,fs,rfl,by decide,?_,rfl,.inl (by decide)⟩
      rw [h.entry]
      exact ⟨by decide,by decide⟩
  exact ⟨s,hs,hcond,(fault_resolved s h.reachable MMAPBASE habs).mpr hcond⟩

/-- Once the first page of a mapping is loaded, its second page has a page table, and a fault there
does nothing. -/
theorem fault_unresolved : ∃ s, runCalls [.wmap MMAPBASE 8192 14 0,.fault MMAPBASE] firstCtx = some s ∧
    Reachable s.tab ∧ (∃ p ∈ s.tab.allNodes, Entry.Holds (s.tab.entry p) 0x60001000) ∧
    ¬ s.cur.pgdir.present 0x60001000 ∧ ¬ Resolved s 0x60001000 := by
  obtain ⟨s,hs,h⟩ := exists_twoPages [.wmap MMAPBASE 8192 14 0,.fault MMAPBASE] 0x60001000
    1 (some .zero) (by decide +kernel)
  have habs : ¬ s.cur.pgdir.present 0x60001000 := by
    rintro ⟨pte,hw,hp⟩
    rw [h.walk,Option.some.injEq] at hw
    rw [← hw] at hp
    cases hp
  have hmem : .slot 7 ∈ s.tab.allNodes := by
    rw [h.nodes]
    exact List.mem_singleton_self _
  refine ⟨s,hs,h.reachable,⟨.slot 7,hmem,?_⟩,habs,?_⟩
  · rw [h.entry]
    exact ⟨by decide,by decide⟩
  · rw [Resolved,good_found habs h.found hmem]
    rintro ⟨hwalk,-⟩
    have hstart : (s.tab.deref (.slot 7)).startAddress = MMAPBASE := congrArg Entry.startAddress h.entry
    have hpage : faultPage MMAPBASE 0x60001000 = 0x60001000 := by decide
    rw [hstart,hpage,h.walk] at hwalk
    cases hwalk

end Instances
end Xv6.Kernel
