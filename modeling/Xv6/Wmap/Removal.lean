import Xv6.Wmap.Insertion

/-! # Removal on buckets

A removal takes out the first entry with the address; when that entry is the inline
one, only the address of its successor moves up.
-/
namespace Xv6.Wmap
open NodePool Function

section Remove
variable {t : Table} {a : Word} {i : Slot} {p : Option PoolIdx} {prev : Ptr} {fuel : ℕ}

def Table.skip (t : Table) (q : Ptr) (k : PoolIdx) : Table :=
  let t' := t.setNode q { t.deref q with next := (t.nodePool k).next }
  t'.setPool k { t'.nodePool k with startAddress := EMPTY, next := none }

theorem unlink_missing {l : List PoolIdx} (hl : Linked t.nexts p l) (hlen : l.length ≤ fuel)
    (hno : ∀ j ∈ l, (t.nodePool j).startAddress ≠ a) : unlink t a fuel prev p = .ok (-1,t) := by
  induction l generalizing p prev fuel with
  | nil =>
    rw [linked_nil.mp hl]
    cases fuel <;> rfl
  | cons j l ih =>
    obtain ⟨rfl,hl⟩ := hl
    cases fuel with
    | zero => simp at hlen
    | succ fuel =>
      rw [unlink,if_neg (hno j List.mem_cons_self)]
      exact ih hl (by simpa using hlen) (fun k hk => hno k (List.mem_cons_of_mem _ hk))

theorem unlink_found {l₁ l₂ : List PoolIdx} {k : PoolIdx} (hl : Linked t.nexts p (l₁ ++ k :: l₂))
    (hlen : (l₁ ++ k :: l₂).length ≤ fuel) (hno : ∀ j ∈ l₁, (t.nodePool j).startAddress ≠ a)
    (hk : (t.nodePool k).startAddress = a) :
    unlink t a fuel prev p = .ok (1,t.skip ((l₁.map .pool).getLastD prev) k) := by
  induction l₁ generalizing p prev fuel with
  | nil =>
    obtain ⟨rfl,hl⟩ := hl
    cases fuel with
    | zero => simp at hlen
    | succ fuel =>
      rw [unlink,if_pos hk]
      rfl
  | cons j l₁ ih =>
    obtain ⟨rfl,hl⟩ := hl
    cases fuel with
    | zero => simp at hlen
    | succ fuel =>
      rw [unlink,if_neg (hno j List.mem_cons_self)]
      rw [List.map_cons,List.getLastD_cons]
      exact ih hl (by simpa using hlen) (fun k hk => hno k (List.mem_cons_of_mem _ hk))

theorem poolEntry_skip (t : Table) (q : Ptr) {j k : PoolIdx} (hjk : j ≠ k) :
    (t.skip q k).poolEntry j = t.poolEntry j := by
  cases q with
  | slot i => simp [Table.skip,Table.setNode,Table.setSlot,Table.setPool,Table.poolEntry,hjk]
  | pool m =>
    by_cases hjm : j = m
    · subst j
      simp [Table.skip,Table.setNode,Table.setPool,Table.poolEntry,Table.deref,hjk]
    · simp [Table.skip,Table.setNode,Table.setPool,Table.poolEntry,hjk,hjm]

theorem rechained_skip_slot (hw : WF t) {k : PoolIdx} {l : List PoolIdx} (hch : t.chain i = k :: l) :
    Rechained t (t.skip (.slot i) k) i l := by
  have hl := hw.linked i
  have hnd := hw.nodup i
  rw [hch] at hl hnd
  obtain ⟨hkl,hnd⟩ := List.nodup_cons.mp hnd
  have hmem : ∀ j ∈ l, j ∈ t.chain i := fun j hj => hch ▸ List.mem_cons_of_mem _ hj
  have hk : k ∈ t.chain i := hch ▸ List.mem_cons_self
  constructor
  · intro m hm
    simp [Table.skip,Table.setNode,Table.setSlot,Table.setPool,hm]
  · intro m hm j hj
    have hjk : j ≠ k := fun he => hm (hw.apart m i j hj (he ▸ hk))
    simp [Table.skip,Table.setNode,Table.setSlot,Table.setPool,hjk]
  · have h := hl.2.update_of_notMem hkl none
    rw [Table.skip,nexts_setPool]
    change Linked (update t.nexts k none) (update t.table i _ i).next l
    rw [update_self]
    exact h
  · exact hnd
  · exact fun m hm j hj hj' => hm (hw.apart i m j (hmem j hj) hj').symm
  · exact le_rfl
  · exact fun j hj => hw.fresh i j (hmem j hj)
  · intro he
    have he' : (t.table i).startAddress = EMPTY := by
      simpa [Table.skip,Table.setNode,Table.setSlot,Table.setPool,Table.deref] using he
    have hnone := hw.empty i he'
    rw [hl.1] at hnone
    cases hnone
  · intro j hj
    have hjk : j ≠ k := fun he => hkl (he ▸ hj)
    have := congrArg Entry.startAddress (poolEntry_skip t (.slot i) hjk)
    exact fun he => hw.live i j (hmem j hj) (this.symm.trans he)

theorem rechained_skip_pool (hw : WF t) {j k : PoolIdx} {l₁ l₂ : List PoolIdx}
    (hch : t.chain i = l₁ ++ j :: k :: l₂) : Rechained t (t.skip (.pool j) k) i (l₁ ++ j :: l₂) := by
  have hl := hw.linked i
  have hnd := hw.nodup i
  rw [hch] at hl hnd
  have hsub : (l₁ ++ j :: l₂).Sublist (l₁ ++ j :: k :: l₂) :=
    List.Sublist.append_left (List.Sublist.cons_cons j (List.sublist_cons_self k l₂)) l₁
  have hkl : k ∉ l₁ ++ j :: l₂ := by
    intro hm
    have hperm : (l₁ ++ j :: k :: l₂).Perm (k :: (l₁ ++ j :: l₂)) := by
      have h : ((l₁ ++ [j]) ++ k :: l₂).Perm (k :: ((l₁ ++ [j]) ++ l₂)) := List.perm_middle
      simpa using h
    exact (List.nodup_cons.mp (hperm.nodup_iff.mp hnd)).1 hm
  have hmem : ∀ m ∈ l₁ ++ j :: l₂, m ∈ t.chain i := fun m hm => hch ▸ hsub.subset hm
  have hj : j ∈ t.chain i := hmem j (by simp)
  have hk : k ∈ t.chain i := hch ▸ (by simp)
  constructor
  · exact fun m _ => rfl
  · intro m hm x hx
    have hxk : x ≠ k := fun he => hm (hw.apart m i x hx (he ▸ hk))
    have hxj : x ≠ j := fun he => hm (hw.apart m i x hx (he ▸ hj))
    simp [Table.skip,Table.setNode,Table.setPool,hxk,hxj]
  · have h := (hl.unlink hnd).update_of_notMem hkl none
    rw [Table.skip,nexts_setPool,Table.setNode,nexts_setPool]
    exact h
  · exact hnd.sublist hsub
  · exact fun m hm x hx hx' => hm (hw.apart i m x (hmem x hx) hx').symm
  · exact le_rfl
  · exact fun x hx => hw.fresh i x (hmem x hx)
  · exact hw.empty i
  · intro x hx
    have hxk : x ≠ k := fun he => hkl (he ▸ hx)
    have := congrArg Entry.startAddress (poolEntry_skip t (.pool j) hxk)
    exact fun he => hw.live i x (hmem x hx) (this.symm.trans he)

theorem rechained_shift (hw : WF t) {k : PoolIdx} {l : List PoolIdx} (hch : t.chain i = k :: l) :
    Rechained t (t.setSlot i { t.table i with
      startAddress := (t.nodePool k).startAddress, next := (t.nodePool k).next }) i l := by
  have hl := hw.linked i
  have hnd := hw.nodup i
  rw [hch] at hl hnd
  have hmem : ∀ j ∈ l, j ∈ t.chain i := fun j hj => hch ▸ List.mem_cons_of_mem _ hj
  have hk : k ∈ t.chain i := hch ▸ List.mem_cons_self
  constructor
  · exact fun m hm => update_of_ne hm _ _
  · exact fun _ _ _ _ => rfl
  · change Linked t.nexts (update t.table i _ i).next l
    rw [update_self]
    exact hl.2
  · exact (List.nodup_cons.mp hnd).2
  · exact fun m hm j hj hj' => hm (hw.apart i m j (hmem j hj) hj').symm
  · exact le_rfl
  · exact fun j hj => hw.fresh i j (hmem j hj)
  · intro he
    have he' : (t.nodePool k).startAddress = EMPTY := by simpa [Table.setSlot] using he
    exact absurd he' (hw.live i k hk)
  · exact fun j hj => hw.live i j (hmem j hj)

theorem rechained_clear (t : Table) (i : Slot) :
    Rechained t (t.setSlot i { t.table i with startAddress := EMPTY, next := none }) i [] := by
  constructor
  · exact fun m hm => update_of_ne hm _ _
  · exact fun _ _ _ _ => rfl
  · simp [Table.setSlot]
  · exact List.nodup_nil
  · simp
  · exact le_rfl
  · simp
  · simp [Table.setSlot]
  · simp

/-- `removeValue` has taken the address out of its bucket. Every node keeps its payload. -/
structure Removed (t t' : Table) (a : Word) (i : Slot) (r : ℤ) : Prop where
  wf : WF t'
  bucket : t'.bucket i = removeEntry a (t.bucket i)
  other : ∀ k, k ≠ i → t'.bucket k = t.bucket k
  result : r = if ∃ e ∈ t.bucket i, e.startAddress = a then 1 else -1
  hashInit : t'.hashInit = t.hashInit
  poolCounter : t'.poolCounter = t.poolCounter
  mostRecent : t'.mostRecent = t.mostRecent
  payload : ∀ q, (t'.deref q).payload = (t.deref q).payload

theorem rechained_skip (hw : WF t) {l₁ l₂ : List PoolIdx} {k : PoolIdx} (hch : t.chain i = l₁ ++ k :: l₂) :
    Rechained t (t.skip ((l₁.map .pool).getLastD (.slot i)) k) i (l₁ ++ l₂) := by
  rcases List.eq_nil_or_concat l₁ with rfl | ⟨l,j,rfl⟩
  · exact rechained_skip_slot hw hch
  · have hch' : t.chain i = l ++ j :: k :: l₂ := by simpa using hch
    simpa using rechained_skip_pool hw hch'

theorem slotEntry_skip (t : Table) (q : Ptr) (k : PoolIdx) (i : Slot) :
    ((t.skip q k).table i).toEntry = (t.table i).toEntry := by
  cases q with
  | slot m =>
    by_cases him : i = m
    · subst i
      simp [Table.skip,Table.setNode,Table.setSlot,Table.setPool,Table.deref]
    · simp [Table.skip,Table.setNode,Table.setSlot,Table.setPool,him]
  | pool m => rfl

theorem payload_skip (t : Table) (q : Ptr) (k : PoolIdx) (r : Ptr) :
    ((t.skip q k).deref r).payload = (t.deref r).payload := by
  cases r with
  | slot i => exact congrArg Entry.payload (slotEntry_skip t q k i)
  | pool j =>
    by_cases hjk : j = k
    · subst j
      cases q with
      | slot m => simp [Table.skip,Table.setNode,Table.setSlot,Table.setPool,Table.deref,Entry.payload]
      | pool m =>
        by_cases hkm : k = m
        · subst k
          simp [Table.skip,Table.setNode,Table.setPool,Table.deref,Entry.payload]
        · simp [Table.skip,Table.setNode,Table.setPool,Table.deref,Entry.payload,hkm]
    · exact congrArg Entry.payload (poolEntry_skip t q hjk)

theorem removed_skip (hw : WF t) {l₁ l₂ : List PoolIdx} {k : PoolIdx} (hch : t.chain i = l₁ ++ k :: l₂)
    (hhead : (t.table i).startAddress ≠ a)
    (hno : ∀ j ∈ l₁, (t.nodePool j).startAddress ≠ a) (hk : (t.nodePool k).startAddress = a) :
    Removed t (t.skip ((l₁.map .pool).getLastD (.slot i)) k) a i 1 := by
  set q := (l₁.map Ptr.pool).getLastD (.slot i)
  obtain ⟨hwf,hchain,hother⟩ := (rechained_skip hw hch).wf hw
  have hlive : (t.table i).startAddress ≠ EMPTY := by
    intro he
    have := hw.chain_of_empty he
    rw [hch] at this
    simp at this
  have hslot := slotEntry_skip t q k i
  have hlive' : ((t.skip q k).table i).startAddress ≠ EMPTY := by
    rw [congrArg Entry.startAddress hslot]
    exact hlive
  have hkl : k ∉ l₁ ++ l₂ := by
    have hnd := hw.nodup i
    rw [hch,List.perm_middle.nodup_iff,List.nodup_cons] at hnd
    exact hnd.1
  refine ⟨hwf,?_,hother,?_,?_,?_,?_,payload_skip t q k⟩
  · rw [bucket_of_live hlive,bucket_of_live hlive',hchain,hslot,hch,removeEntry_of_ne hhead]
    have herase : ((l₁ ++ k :: l₂).map t.poolEntry).eraseP (fun e => e.startAddress = a) =
        (l₁ ++ l₂).map t.poolEntry := by
      have hka : (t.poolEntry k).startAddress = a := hk
      have hla : ∀ e ∈ l₁.map t.poolEntry, ¬ decide (e.startAddress = a) = true := by
        intro e he
        obtain ⟨j,hj,rfl⟩ := List.mem_map.mp he
        exact Bool.eq_false_iff.mp (decide_eq_false (hno j hj))
      rw [List.map_append,List.map_cons,List.eraseP_append_right _ hla,List.map_append]
      simp [hka]
    rw [herase]
    congr 1
    apply List.map_congr_left
    intro j hj
    exact poolEntry_skip t q (fun he => hkl (he ▸ hj))
  · rw [if_pos]
    refine ⟨t.poolEntry k,?_,hk⟩
    rw [bucket_of_live hlive,hch]
    simp
  all_goals cases q <;> rfl

theorem payload_setSlot (t : Table) (i : Slot) (x : Word) (p : Option PoolIdx) (q : Ptr) :
    ((t.setSlot i { t.table i with startAddress := x, next := p }).deref q).payload = (t.deref q).payload := by
  cases q with
  | slot m =>
    by_cases hm : m = i
    · subst m
      simp [Table.deref,Table.setSlot,Entry.payload]
    · simp [Table.deref,Table.setSlot,hm]
  | pool j => rfl

theorem removed_shift (hw : WF t) {k : PoolIdx} {l : List PoolIdx} (hch : t.chain i = k :: l)
    (ha : a ≠ EMPTY) (hhead : (t.table i).startAddress = a) :
    Removed t (t.setSlot i { t.table i with
      startAddress := (t.nodePool k).startAddress, next := (t.nodePool k).next }) a i 1 := by
  obtain ⟨hwf,hchain,hother⟩ := (rechained_shift hw hch).wf hw
  have hlive : (t.table i).startAddress ≠ EMPTY := fun he => ha (hhead.symm.trans he)
  have hk : (t.nodePool k).startAddress ≠ EMPTY := hw.live i k (hch ▸ List.mem_cons_self)
  refine ⟨hwf,?_,hother,?_,rfl,rfl,rfl,payload_setSlot t i _ _⟩
  · rw [bucket_of_live hlive,bucket_of_live (by simpa [Table.setSlot] using hk),hchain,hch,List.map_cons,
      removeEntry_shift hhead]
    simp [Table.setSlot,Table.poolEntry]
  · rw [if_pos]
    exact ⟨(t.table i).toEntry,by rw [bucket_of_live hlive]; exact List.mem_cons_self,hhead⟩

theorem removed_clear (hw : WF t) (hch : t.chain i = []) (ha : a ≠ EMPTY)
    (hhead : (t.table i).startAddress = a) :
    Removed t (t.setSlot i { t.table i with startAddress := EMPTY, next := none }) a i 1 := by
  obtain ⟨hwf,_,hother⟩ := (rechained_clear t i).wf hw
  have hlive : (t.table i).startAddress ≠ EMPTY := fun he => ha (hhead.symm.trans he)
  refine ⟨hwf,?_,hother,?_,rfl,rfl,rfl,payload_setSlot t i _ _⟩
  · rw [bucket_of_live hlive,bucket_of_empty (by simp [Table.setSlot]),hch]
    exact (removeEntry_single hhead).symm
  · rw [if_pos]
    exact ⟨(t.table i).toEntry,by rw [bucket_of_live hlive]; exact List.mem_cons_self,hhead⟩

theorem removed_missing (hw : WF t) (hhead : (t.table i).startAddress ≠ a)
    (hno : ∀ j ∈ t.chain i, (t.nodePool j).startAddress ≠ a) : Removed t t a i (-1) := by
  have hmiss : ∀ e ∈ t.bucket i, e.startAddress ≠ a := by
    by_cases he : (t.table i).startAddress = EMPTY
    · simp [bucket_of_empty he]
    · rw [bucket_of_live he]
      intro e hm
      rcases List.mem_cons.mp hm with rfl | hm
      · exact hhead
      · obtain ⟨j,hj,rfl⟩ := List.mem_map.mp hm
        exact hno j hj
  refine ⟨hw,?_,fun _ _ => rfl,?_,rfl,rfl,rfl,fun _ => rfl⟩
  · cases hb : t.bucket i with
    | nil => rfl
    | cons h l =>
      rw [hb] at hmiss
      rw [removeEntry_of_ne (hmiss h List.mem_cons_self),List.eraseP_of_forall_not]
      intro e hm
      simpa using hmiss e (List.mem_cons_of_mem _ hm)
  · rw [if_neg]
    rintro ⟨e,hm,he⟩
    exact hmiss e hm he

theorem split_chain (t : Table) (a : Word) (l : List PoolIdx) :
    (∀ j ∈ l, (t.nodePool j).startAddress ≠ a) ∨ ∃ l₁ k l₂, l = l₁ ++ k :: l₂ ∧
      (∀ j ∈ l₁, (t.nodePool j).startAddress ≠ a) ∧ (t.nodePool k).startAddress = a := by
  induction l with
  | nil => exact .inl (by simp)
  | cons j l ih =>
    by_cases hj : (t.nodePool j).startAddress = a
    · exact .inr ⟨[],j,l,rfl,by simp,hj⟩
    · rcases ih with h | ⟨l₁,k,l₂,rfl,h,hk⟩
      · exact .inl (by simpa [hj] using h)
      · exact .inr ⟨j :: l₁,k,l₂,rfl,by simpa [hj] using h,hk⟩

theorem removeValue_spec (hw : WF t) (hi : slotOf a = .ok i) :
    ∃ r t', removeValue t a = .ok (r,t') ∧ Removed t t' a i r := by
  have ha := ne_empty_of_slotOf hi
  have hl := hw.linked i
  have hlen : (t.chain i).length ≤ MAX_WMMAP_INFO := by
    have := Linked.length_le (hw.nodup i)
    rwa [Fintype.card_fin] at this
  unfold removeValue
  rw [hi]
  change ∃ r t', (if (t.table i).startAddress = a then _ else _) = Except.ok (r,t') ∧ _
  by_cases hhead : (t.table i).startAddress = a
  · rw [if_pos hhead]
    cases hch : t.chain i with
    | nil =>
      rw [hch] at hl
      rw [linked_nil.mp hl]
      exact ⟨_,_,rfl,removed_clear hw hch ha hhead⟩
    | cons k l =>
      rw [hch] at hl
      rw [hl.1]
      exact ⟨_,_,rfl,removed_shift hw hch ha hhead⟩
  · rw [if_neg hhead]
    rcases split_chain t a (t.chain i) with hno | ⟨l₁,k,l₂,hch,hno,hk⟩
    · exact ⟨_,_,unlink_missing hl hlen hno,removed_missing hw hhead hno⟩
    · rw [hch] at hl hlen
      exact ⟨_,_,unlink_found hl hlen hno hk,removed_skip hw hch hhead hno hk⟩

end Remove
end Xv6.Wmap
