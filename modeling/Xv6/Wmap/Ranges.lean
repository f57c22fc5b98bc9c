import Xv6.Wmap.Lookups

/-! # The address ranges of mappings

A mapping spans the pages that its length needs. The table also carries a page count,
and every search goes by that count. In a laid-out table the counts are large enough
for the lengths and the ranges of the counts do not meet.
-/
namespace Xv6.Wmap
open Program

def pageCeil (n : ℤ) : ℤ := PGSIZE*((n+(PGSIZE-1))/PGSIZE)

theorem pageCeil_eq (n : ℤ) : pageCeil n = 4096*((n+4095)/4096) := by norm_num [pageCeil]

/-- The bytes of a mapping, its length rounded up to pages. -/
def Entry.byteRange (e : Entry) : Set ℤ :=
  Set.Ico (e.startAddress.toNat : ℤ) (e.startAddress.toNat+pageCeil e.length.toInt)

/-- No byte belongs to two mappings. -/
def NoOverlap (t : Table) : Prop := t.entries.Pairwise fun e f => Disjoint e.byteRange f.byteRange

def Entry.limit (e : Entry) : ℕ := e.startAddress.toNat+e.extent.toNat

/-- A mapping on pages below `2^32`, with enough of them for its length. -/
structure Sound (e : Entry) : Prop where
  aligned : e.startAddress.toNat % 4096 = 0
  positive : 0 < e.extent.toNat
  below : e.limit < 2^32
  bytes : pageCeil e.length.toInt ≤ e.extent.toNat

structure Paged (e : Entry) : Prop where
  aligned : e.startAddress.toNat % 4096 = 0
  positive : 0 < e.extent.toNat
  below : e.limit < 2^32

theorem Sound.paged {e : Entry} (h : Sound e) : Paged e := ⟨h.aligned,h.positive,h.below⟩

def Apart (e f : Entry) : Prop := e.limit ≤ f.startAddress.toNat ∨ f.limit ≤ e.startAddress.toNat

theorem Apart.symm {e f : Entry} (h : Apart e f) : Apart f e := Or.symm h

structure Layout (t : Table) : Prop where
  wf : WF t
  sound : ∀ e ∈ t.entries, Sound e
  apart : t.entries.Pairwise Apart

structure Ranged (t : Table) : Prop where
  wf : WF t
  paged : ∀ e ∈ t.entries, Paged e

theorem Layout.ranged {t : Table} (h : Layout t) : Ranged t := ⟨h.wf,fun e he => (h.sound e he).paged⟩

theorem Layout.noOverlap {t : Table} (h : Layout t) : NoOverlap t := by
  refine h.apart.imp_of_mem ?_
  intro e f he hf hef
  have hbe := (h.sound e he).bytes
  have hbf := (h.sound f hf).bytes
  rw [Set.disjoint_left]
  rintro x ⟨hx1,hx2⟩ ⟨hx3,hx4⟩
  rcases hef with hef | hef <;> unfold Entry.limit at hef <;> omega

section Extents

theorem extent_mod (e : Entry) : e.extent.toNat % 4096 = 0 := by
  have h : e.extent.toNat = e.numPages.toNat*4096 % 2^32 := BitVec.toNat_mul _ _
  omega

theorem Paged.limit_mod {e : Entry} (h : Paged e) : e.limit % 4096 = 0 := by
  have h1 := h.aligned
  have h2 := extent_mod e
  unfold Entry.limit
  omega

theorem Paged.end_toNat {e : Entry} (h : Paged e) : (e.startAddress+e.extent).toNat = e.limit := by
  rw [BitVec.toNat_add]
  exact Nat.mod_eq_of_lt h.below

theorem Paged.covers_iff {e : Entry} (h : Paged e) (a : Word) :
    e.covers a = true ↔ e.startAddress.toNat ≤ a.toNat ∧ a.toNat < e.limit := by
  rw [Entry.covers,Bool.and_eq_true,decide_eq_true_eq,decide_eq_true_eq,BitVec.le_def,BitVec.lt_def,h.end_toNat]

end Extents

section Pages
variable {t : Table} {a : Word} {p : Ptr}

theorem pageInMappings_slot {r : Option Ptr} (h : pageInMappings t a = .ok r) : ∃ i, slotOf a = .ok i := by
  obtain ⟨q,hq,-⟩ := bind_ok h
  obtain ⟨i,hi,-⟩ := bind_ok hq
  exact ⟨i,hi⟩

theorem Ranged.page_free (hl : Ranged t) (h : pageInMappings t a = .ok none) :
    ∀ e ∈ t.entries, ¬ (e.startAddress.toNat ≤ a.toNat ∧ a.toNat < e.limit) := by
  obtain ⟨i,hi⟩ := pageInMappings_slot h
  rw [pageInMappings_eq hl.wf hi,Except.ok.injEq,Table.findPage,Option.or_eq_none_iff] at h
  intro e he hcov
  have hs := hl.paged e he
  rw [entries_eq] at he
  obtain ⟨q,hq,rfl⟩ := List.mem_map.mp he
  exact List.find?_eq_none.mp h.2 q hq ((hs.covers_iff a).mpr hcov)

theorem mem_allNodes_of_nodes {i : Slot} (h : p ∈ t.nodes i) : p ∈ t.allNodes :=
  List.mem_flatMap.mpr ⟨i,List.mem_finRange i,h⟩

/-- A node that the lookup finds is live, and starts at the address or covers it. -/
theorem pageInMappings_mem (hw : WF t) (h : pageInMappings t a = .ok (some p)) :
    p ∈ t.allNodes ∧ ((t.entry p).startAddress = a ∨ (t.entry p).covers a = true) := by
  obtain ⟨i,hi⟩ := pageInMappings_slot h
  rw [pageInMappings_eq hw hi,Except.ok.injEq,Table.findPage,Option.or_eq_some_iff] at h
  rcases h with h | ⟨-,h⟩
  · refine ⟨mem_allNodes_of_nodes (List.mem_of_find?_eq_some h),.inl ?_⟩
    simpa using List.find?_some h
  · refine ⟨List.mem_of_find?_eq_some h,.inr ?_⟩
    simpa using List.find?_some h

theorem Ranged.page_found (hl : Ranged t) (h : pageInMappings t a = .ok (some p)) :
    p ∈ t.allNodes ∧ Paged (t.entry p) ∧ (t.entry p).startAddress.toNat ≤ a.toNat ∧
      a.toNat < (t.entry p).limit := by
  obtain ⟨hp,hcov⟩ := pageInMappings_mem hl.wf h
  have hs : Paged (t.entry p) := hl.paged _ (by rw [entries_eq]; exact List.mem_map_of_mem hp)
  refine ⟨hp,hs,?_⟩
  rcases hcov with rfl | hcov
  · have := hs.positive
    unfold Entry.limit
    omega
  · exact (hs.covers_iff a).mp hcov

end Pages

section Changes
variable {t t' : Table} {a len np fd fl : Word} {i : Slot} {r : ℤ}

theorem flatMap_perm {β : Type} {f g : Slot → List β} (i : Slot) (hother : ∀ k, k ≠ i → g k = f k) :
    ∃ rest, ((List.finRange MEM_HASH_SIZE).flatMap f).Perm (f i ++ rest) ∧
      ((List.finRange MEM_HASH_SIZE).flatMap g).Perm (g i ++ rest) := by
  obtain ⟨l₁,l₂,hl⟩ := List.append_of_mem (List.mem_finRange i)
  have hnd := List.nodup_finRange MEM_HASH_SIZE
  rw [hl,List.perm_middle.nodup_iff,List.nodup_cons] at hnd
  have hsplit : ∀ f : Slot → List β,
      ((List.finRange MEM_HASH_SIZE).flatMap f).Perm (f i ++ (l₁.flatMap f ++ l₂.flatMap f)) := by
    intro f
    rw [hl,List.flatMap_append,List.flatMap_cons,← List.append_assoc,← List.append_assoc]
    exact List.perm_append_comm.append_right _
  have hsame : ∀ l : List Slot, i ∉ l → l.flatMap g = l.flatMap f := by
    intro l hi
    apply List.flatMap_congr
    intro k hk
    exact hother k (fun he => hi (he ▸ hk))
  refine ⟨_,hsplit f,?_⟩
  have h1 := hsame l₁ (fun hm => hnd.1 (List.mem_append_left _ hm))
  have h2 := hsame l₂ (fun hm => hnd.1 (List.mem_append_right _ hm))
  rw [← h1,← h2]
  exact hsplit g

theorem entries_perm (t t' : Table) (i : Slot) (hother : ∀ k, k ≠ i → t'.bucket k = t.bucket k) :
    ∃ rest, t.entries.Perm (t.bucket i ++ rest) ∧ t'.entries.Perm (t'.bucket i ++ rest) :=
  flatMap_perm i hother

theorem hashInsert_entries (hw : WF t) (h : hashInsert t a len np fd fl = .ok t') :
    t'.entries.Perm (⟨a,np,len,fd,fl,0⟩ :: t.entries) := by
  obtain ⟨i,-,-,hbucket,hother,-⟩ := hashInsert_ok hw h
  obtain ⟨rest,h1,h2⟩ := entries_perm t t' i hother
  rw [hbucket] at h2
  exact h2.trans (((insertEntry_perm _ _).append_right rest).trans (h1.symm.cons _))

/-- Entries are only lost, or the first of a bucket takes the place of the second. -/
theorem removed_entries (hrem : Removed t t' a i r) :
    (∃ gone, t.entries.Perm (t'.entries ++ gone)) ∨
    ∃ h x l rest, t.bucket i = h :: x :: l ∧ h.startAddress = a ∧ t.entries.Perm (h :: x :: rest) ∧
      t'.entries.Perm ({ h with startAddress := x.startAddress } :: rest) := by
  obtain ⟨rest,h1,h2⟩ := entries_perm t t' i hrem.other
  rw [hrem.bucket] at h2
  have hlost : ∀ l, (removeEntry a (t.bucket i)) = l → l.Sublist (t.bucket i) →
      ∃ gone, t.entries.Perm (t'.entries ++ gone) := by
    intro l hl hsub
    obtain ⟨gone,hgone⟩ := hsub.exists_perm_append
    rw [hl] at h2
    have hswap : (l ++ gone ++ rest).Perm (l ++ rest ++ gone) := by
      rw [List.append_assoc,List.append_assoc]
      exact List.perm_append_comm.append_left l
    exact ⟨gone,h1.trans ((hgone.append_right rest).trans (hswap.trans (h2.symm.append_right gone)))⟩
  cases hb : t.bucket i with
  | nil =>
    rw [hb] at hlost
    exact .inl (hlost [] rfl List.Sublist.slnil)
  | cons h l =>
    rw [hb] at hlost h1 h2
    by_cases hh : h.startAddress = a
    · cases l with
      | nil => exact .inl (hlost [] (removeEntry_single hh) (List.nil_sublist _))
      | cons x l =>
        rw [removeEntry_shift hh] at h2
        exact .inr ⟨h,x,l,l ++ rest,rfl,hh,h1,h2⟩
    · exact .inl (hlost _ (removeEntry_of_ne hh l) (List.eraseP_sublist.cons_cons h))

/-- The entry that comes up from the chain gets no more pages than it has. -/
def RemovalFits (t : Table) (addr : Word) : Prop := ∀ i j, slotOf addr = .ok i →
  (t.table i).startAddress = addr → (t.table i).next = some j →
  (t.table i).extent.toNat ≤ (t.nodePool j).extent.toNat

theorem RemovalFits.bucket (h : RemovalFits t a) (hw : WF t) (hi : slotOf a = .ok i) {e x : Entry}
    {l : List Entry} (hb : t.bucket i = e :: x :: l) (hea : e.startAddress = a) :
    e.extent.toNat ≤ x.extent.toNat := by
  by_cases he : (t.table i).startAddress = EMPTY
  · rw [bucket_of_empty he] at hb
    cases hb
  · rw [bucket_of_live he] at hb
    obtain ⟨rfl,hb'⟩ := List.cons.inj hb
    have hl := hw.linked i
    cases hch : t.chain i with
    | nil =>
      rw [hch] at hb'
      cases hb'
    | cons j js =>
      rw [hch] at hb' hl
      obtain ⟨rfl,-⟩ := List.cons.inj hb'
      exact h i j hi hea hl.1

/-- A new entry goes right behind the first one of its bucket. -/
theorem RemovalFits.insert {b : Word} (h : RemovalFits t b) (hw : WF t) (hins : hashInsert t a len np fd fl = .ok t')
    (hnew : ∀ i, slotOf b = .ok i → (t.table i).startAddress = b →
      (t.table i).extent.toNat ≤ (Entry.extent ⟨a,np,len,fd,fl,0⟩).toNat) : RemovalFits t' b := by
  intro i j hi hstart hnext
  obtain ⟨k,-,⟨he,rfl⟩ | ⟨-,m,hm,rfl⟩⟩ := hashInsert_cases hins
  · by_cases hik : i = k
    · subst hik
      simp [Table.fillSlot,Table.setSlot,hw.empty i he] at hnext
    · have htab : (t.fillSlot k ⟨a,np,len,fd,fl,0⟩).table i = t.table i := Function.update_of_ne hik ..
      rw [htab] at hstart hnext ⊢
      exact h i j hi hstart hnext
  · by_cases hik : i = k
    · subst hik
      simp only [Table.pushNode,Table.setSlot,Table.setPool,Function.update_self,Option.some.injEq] at hstart hnext ⊢
      subst hnext
      rw [Function.update_self]
      exact hnew i hi hstart
    · have htab : (t.pushNode k m ⟨a,np,len,fd,fl,0⟩).table i = t.table i := Function.update_of_ne hik ..
      rw [htab] at hstart hnext ⊢
      have hj : j ∈ t.chain i := by
        have hl := hw.linked i
        rw [hnext] at hl
        cases hch : t.chain i with
        | nil =>
          rw [hch] at hl
          cases hl
        | cons j' l =>
          rw [hch] at hl
          cases hl.1
          exact List.mem_cons_self
      have hjm : j ≠ m := fun he => hw.notMem_chain hm.ge i (he ▸ hj)
      have hpool : (t.pushNode k m ⟨a,np,len,fd,fl,0⟩).nodePool j = t.nodePool j := Function.update_of_ne hjm ..
      rw [hpool]
      exact h i j hi hstart hnext

theorem Layout.insert (h : Layout t) (hins : hashInsert t a len np fd fl = .ok t')
    (hs : Sound ⟨a,np,len,fd,fl,0⟩) (hfree : ∀ f ∈ t.entries, Apart ⟨a,np,len,fd,fl,0⟩ f) : Layout t' := by
  have hperm := hashInsert_entries h.wf hins
  obtain ⟨i,-,hwf,-⟩ := hashInsert_ok h.wf hins
  refine ⟨hwf,?_,?_⟩
  · intro e he
    rcases List.mem_cons.mp (hperm.mem_iff.mp he) with rfl | he
    · exact hs
    · exact h.sound e he
  · rw [hperm.pairwise_iff Apart.symm]
    exact List.pairwise_cons.mpr ⟨hfree,h.apart⟩

theorem Layout.remove (h : Layout t) (hrem : removeValue t a = .ok (r,t')) (hfits : RemovalFits t a) :
    Layout t' := by
  obtain ⟨i,hi,-⟩ := bind_ok hrem
  obtain ⟨r',u,hu,hremoved⟩ := removeValue_spec h.wf hi
  obtain ⟨rfl,rfl⟩ : r' = r ∧ u = t' := by simpa using hu.symm.trans hrem
  rcases removed_entries hremoved with ⟨gone,hperm⟩ | ⟨e,x,l,rest,hb,hea,hperm,hperm'⟩
  · refine ⟨hremoved.wf,?_,?_⟩
    · exact fun e he => h.sound e (hperm.mem_iff.mpr (List.mem_append_left _ he))
    · have := (hperm.pairwise_iff Apart.symm).mp h.apart
      exact (List.pairwise_append.mp this).1
  · have hle := hfits.bucket h.wf hi hb hea
    have hall := (hperm.pairwise_iff Apart.symm).mp h.apart
    obtain ⟨-,hall⟩ := List.pairwise_cons.mp hall
    obtain ⟨hx,hrest⟩ := List.pairwise_cons.mp hall
    have hse := h.sound e (hperm.mem_iff.mpr List.mem_cons_self)
    have hsx := h.sound x (hperm.mem_iff.mpr (List.mem_cons_of_mem _ List.mem_cons_self))
    have hlim : Entry.limit { e with startAddress := x.startAddress } ≤ x.limit :=
      Nat.add_le_add_left hle _
    refine ⟨hremoved.wf,?_,?_⟩
    · intro f hf
      rcases List.mem_cons.mp (hperm'.mem_iff.mp hf) with rfl | hf
      · exact ⟨hsx.aligned,hse.positive,lt_of_le_of_lt hlim hsx.below,hse.bytes⟩
      · exact h.sound f (hperm.mem_iff.mpr (List.mem_cons_of_mem _ (List.mem_cons_of_mem _ hf)))
    · rw [hperm'.pairwise_iff Apart.symm]
      refine List.pairwise_cons.mpr ⟨?_,hrest⟩
      intro f hf
      rcases hx f hf with hxf | hxf
      · exact .inl (hlim.trans hxf)
      · exact .inr hxf

end Changes

section Retouch
variable {t t' : Table}

structure Retouched (t t' : Table) : Prop where
  start : ∀ p, (t'.deref p).startAddress = (t.deref p).startAddress
  numPages : ∀ p, (t'.deref p).numPages = (t.deref p).numPages
  next : ∀ p, (t'.deref p).next = (t.deref p).next
  mostRecent : t'.mostRecent = t.mostRecent
  hashInit : t'.hashInit = t.hashInit
  poolCounter : t'.poolCounter = t.poolCounter

theorem Retouched.refl (t : Table) : Retouched t t := ⟨fun _ => rfl,fun _ => rfl,fun _ => rfl,rfl,rfl,rfl⟩

theorem Retouched.trans {u : Table} (h : Retouched t u) (h' : Retouched u t') : Retouched t t' :=
  ⟨fun p => (h'.start p).trans (h.start p),fun p => (h'.numPages p).trans (h.numPages p),
    fun p => (h'.next p).trans (h.next p),h'.mostRecent.trans h.mostRecent,h'.hashInit.trans h.hashInit,
    h'.poolCounter.trans h.poolCounter⟩

theorem deref_setNode (t : Table) (p q : Ptr) (n : Node) :
    (t.setNode p n).deref q = if q = p then n else t.deref q := by
  cases p with
  | slot i =>
    cases q with
    | slot k => by_cases hk : k = i <;> simp [Table.setNode,Table.setSlot,Table.deref,hk]
    | pool k => simp [Table.setNode,Table.setSlot,Table.deref]
  | pool i =>
    cases q with
    | slot k => simp [Table.setNode,Table.setPool,Table.deref]
    | pool k => by_cases hk : k = i <;> simp [Table.setNode,Table.setPool,Table.deref,hk]

theorem retouched_setNode (t : Table) (p : Ptr) (n : Node) (h1 : n.startAddress = (t.deref p).startAddress)
    (h2 : n.numPages = (t.deref p).numPages) (h3 : n.next = (t.deref p).next) : Retouched t (t.setNode p n) := by
  have hcase := deref_setNode t p (n := n)
  refine ⟨?_,?_,?_,?_,?_,?_⟩
  · intro q
    rw [hcase q]
    split
    · rename_i he
      rw [h1,he]
    · rfl
  · intro q
    rw [hcase q]
    split
    · rename_i he
      rw [h2,he]
    · rfl
  · intro q
    rw [hcase q]
    split
    · rename_i he
      rw [h3,he]
    · rfl
  all_goals cases p <;> rfl

namespace Retouched

theorem chain (h : Retouched t t') (i : Slot) : t'.chain i = t.chain i := by
  have hn : t'.nexts = t.nexts := funext fun j => h.next (.pool j)
  have hs : (t'.table i).next = (t.table i).next := h.next (.slot i)
  rw [Table.chain,Table.chain,hn,hs]

theorem nodes (h : Retouched t t') (i : Slot) : t'.nodes i = t.nodes i := by
  have hs : (t'.table i).startAddress = (t.table i).startAddress := h.start (.slot i)
  rw [Table.nodes,Table.nodes,h.chain i,hs]

theorem allNodes (h : Retouched t t') : t'.allNodes = t.allNodes :=
  List.flatMap_congr fun i _ => h.nodes i

theorem wf (h : Retouched t t') (hw : WF t) : WF t' := by
  have hn : t'.nexts = t.nexts := funext fun j => h.next (.pool j)
  constructor
  · intro i
    have hs : (t'.table i).next = (t.table i).next := h.next (.slot i)
    rw [h.chain i,hn,hs]
    exact hw.linked i
  · exact fun i => h.chain i ▸ hw.nodup i
  · intro i k j hi hk
    exact hw.apart i k j (h.chain i ▸ hi) (h.chain k ▸ hk)
  · intro i j hj
    rw [h.poolCounter]
    exact hw.fresh i j (h.chain i ▸ hj)
  · intro i he
    exact (h.next (.slot i)).trans (hw.empty i ((h.start (.slot i)).symm.trans he))
  · intro i j hj he
    exact hw.live i j (h.chain i ▸ hj) ((h.start (.pool j)).symm.trans he)

theorem extent (h : Retouched t t') (p : Ptr) : (t'.entry p).extent = (t.entry p).extent :=
  congrArg (· * 4096) (h.numPages p)

theorem limit (h : Retouched t t') (p : Ptr) : (t'.entry p).limit = (t.entry p).limit := by
  have hs : (t'.entry p).startAddress = (t.entry p).startAddress := h.start p
  rw [Entry.limit,Entry.limit,h.extent p,hs]

theorem layout (h : Retouched t t') (hl : Layout t)
    (hbytes : ∀ p ∈ t.allNodes, pageCeil (t'.entry p).length.toInt ≤ (t.entry p).extent.toNat) : Layout t' := by
  have hstart : ∀ p, (t'.entry p).startAddress = (t.entry p).startAddress := h.start
  refine ⟨h.wf hl.wf,?_,?_⟩
  · intro e he
    rw [entries_eq,h.allNodes] at he
    obtain ⟨p,hp,rfl⟩ := List.mem_map.mp he
    have hs := hl.sound _ (by rw [entries_eq]; exact List.mem_map_of_mem hp)
    refine ⟨?_,?_,?_,?_⟩
    · rw [hstart p]
      exact hs.aligned
    · rw [h.extent p]
      exact hs.positive
    · rw [h.limit p]
      exact hs.below
    · rw [h.extent p]
      exact hbytes p hp
  · have hap := hl.apart
    rw [entries_eq,List.pairwise_map] at hap ⊢
    rw [h.allNodes]
    refine hap.imp ?_
    intro p q hpq
    rw [Apart,h.limit p,h.limit q,hstart p,hstart q]
    exact hpq

end Retouched
end Retouch
end Xv6.Wmap
