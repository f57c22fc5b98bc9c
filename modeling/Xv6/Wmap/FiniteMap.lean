import Xv6.Wmap.Histories

/-! # The table as a finite map

Searches and removals agree with the finite map on which keys are present. A node that
is found carries the fields of its key as long as no removal moves an address onto
other fields.
-/
namespace Xv6.Wmap
open NodePool Runs
variable {t t' : Table} {m : Mappings} {a len np fd fl : Word} {i : Slot} {r : ℤ}

/-- Every entry of the table is the one that the map has for its address. -/
def Accurate (t : Table) (m : Mappings) : Prop := ∀ i, ∀ e ∈ t.bucket i, m.lookup e.startAddress = some e

theorem find_node (h : Keyed t m) {e : Entry} (he : e ∈ t.bucket i)
    (hea : e.startAddress = a) :
    ∃ p, ((t.nodes i).find? fun p => (t.entry p).startAddress = a) = some p ∧ t.entry p = e := by
  cases hf : (t.nodes i).find? fun p => (t.entry p).startAddress = a with
  | none =>
    rw [bucket_eq] at he
    obtain ⟨p,hp,rfl⟩ := List.mem_map.mp he
    exact absurd (decide_eq_true hea) (List.find?_eq_none.mp hf p hp)
  | some p =>
    refine ⟨p,rfl,?_⟩
    have hp : (t.entry p).startAddress = a := by simpa using List.find?_some hf
    have hmem : t.entry p ∈ t.bucket i := by
      rw [bucket_eq]
      exact List.mem_map_of_mem (List.mem_of_find?_eq_some hf)
    exact List.inj_on_of_nodup_map (h.nodup i) hmem he (hp.trans hea.symm)

theorem Keyed.finds (h : Keyed t m) : Finds t m := by
  intro a ha
  obtain ⟨i,hi⟩ := ha.slotOf
  refine ⟨_,hashSearch_eq h.wf hi,?_⟩
  rw [h.mem_iff hi,List.find?_isSome,List.mem_map,bucket_eq]
  constructor
  · rintro ⟨p,hp,hpa⟩
    exact ⟨t.entry p,List.mem_map_of_mem hp,of_decide_eq_true hpa⟩
  · rintro ⟨e,he,hea⟩
    obtain ⟨p,hp,rfl⟩ := List.mem_map.mp he
    exact ⟨p,hp,decide_eq_true hea⟩

theorem Keyed.carries_iff (h : Keyed t m) : Carries t m ↔ Accurate t m := by
  constructor
  · intro hc i e he
    have hmem : e.startAddress ∈ m := (h.mem _).mpr ⟨i,List.mem_map_of_mem he⟩
    obtain ⟨p,hp,rfl⟩ := find_node h he rfl
    apply hc _ p (h.valid _ hmem)
    rw [hashSearch_eq h.wf (h.home i _ he),hp]
  · intro hacc a p ha hs
    obtain ⟨i,hi⟩ := ha.slotOf
    rw [hashSearch_eq h.wf hi,Except.ok.injEq] at hs
    have hpa : (t.entry p).startAddress = a := by simpa using List.find?_some hs
    have hmem : t.entry p ∈ t.bucket i := by
      rw [bucket_eq]
      exact List.mem_map_of_mem (List.mem_of_find?_eq_some hs)
    rw [← hpa]
    exact hacc i _ hmem

theorem Accurate.insert (hacc : Accurate t m) (h : Keyed t m) (ha : a ∉ m)
    (hins : hashInsert t a len np fd fl = .ok t') : Accurate t' (m.insert a ⟨a,np,len,fd,fl,0⟩) := by
  obtain ⟨i,-,-,hbucket,hother,-⟩ := hashInsert_ok h.wf hins
  have hold : ∀ k, ∀ e ∈ t.bucket k, (m.insert a ⟨a,np,len,fd,fl,0⟩).lookup e.startAddress = some e := by
    intro k e he
    have hne : e.startAddress ≠ a := by
      rintro rfl
      exact ha ((h.mem _).mpr ⟨k,List.mem_map_of_mem he⟩)
    rw [AList.lookup_insert_ne hne]
    exact hacc k e he
  intro k e he
  by_cases hk : k = i
  · subst k
    rw [hbucket,(insertEntry_perm _ _).mem_iff] at he
    rcases List.mem_cons.mp he with rfl | he
    · exact AList.lookup_insert _
    · exact hold i e he
  · rw [hother k hk] at he
    exact hold k e he

theorem keepsPayload_iff (hw : WF t) (hi : slotOf a = .ok i) :
    keepsPayload t (.remove a) ↔
      ∀ h x l, t.bucket i = h :: x :: l → h.startAddress = a → x.payload = h.payload := by
  have hl := hw.linked i
  have hempty := hw.empty i
  constructor
  · intro hk h x l hb hha
    by_cases he : (t.table i).startAddress = EMPTY
    · rw [bucket_of_empty he] at hb
      cases hb
    · rw [bucket_of_live he] at hb
      obtain ⟨rfl,hb'⟩ := List.cons.inj hb
      clear hb
      cases hch : t.chain i with
      | nil =>
        rw [hch] at hb'
        cases hb'
      | cons j js =>
        rw [hch] at hb' hl
        obtain ⟨rfl,-⟩ := List.cons.inj hb'
        exact hk i j hi hha hl.1
  · intro hk k j hk' hka hnext
    rw [hi] at hk'
    cases hk'
    have he : (t.table i).startAddress ≠ EMPTY := by
      intro he
      rw [hempty he] at hnext
      cases hnext
    cases hch : t.chain i with
    | nil =>
      rw [hch,linked_nil,hnext] at hl
      cases hl
    | cons x js =>
      rw [hch] at hl
      have hx : x = j := Option.some.inj (hl.1.symm.trans hnext)
      subst hx
      refine hk _ (t.poolEntry x) (js.map t.poolEntry) ?_ hka
      rw [bucket_of_live he,hch]
      rfl

theorem payload_eq_iff {h x : Entry} : x.payload = h.payload ↔ { h with startAddress := x.startAddress } = x := by
  cases h
  cases x
  simp only [Entry.payload,Entry.mk.injEq,true_and]
  tauto

/-- A removal keeps the table accurate exactly when it moves no address onto other fields. -/
theorem Accurate.remove_iff (hacc : Accurate t m) (h : Keyed t m) (hi : slotOf a = .ok i)
    (hrem : Removed t t' a i r) : Accurate t' (m.erase a) ↔ keepsPayload t (.remove a) := by
  obtain ⟨hkeyed,-⟩ := h.remove hi hrem
  have hold : ∀ k e, e ∈ t'.bucket k → e ∈ t.bucket k → (m.erase a).lookup e.startAddress = some e := by
    intro k e he' he
    have hmem : e.startAddress ∈ m.erase a := (hkeyed.mem _).mpr ⟨k,List.mem_map_of_mem he'⟩
    rw [AList.lookup_erase_ne (AList.mem_erase.mp hmem).1]
    exact hacc k e he
  rw [keepsPayload_iff h.wf hi]
  constructor
  · intro hacc' y x l hb hya
    have hx : x ∈ t.bucket i := by simp [hb]
    have hy : { y with startAddress := x.startAddress } ∈ t'.bucket i := by
      rw [hrem.bucket,hb,removeEntry_shift hya]
      exact List.mem_cons_self
    have h1 := hacc' i _ hy
    have hmem : x.startAddress ∈ m.erase a := (hkeyed.mem _).mpr ⟨i,List.mem_map.mpr ⟨_,hy,rfl⟩⟩
    rw [AList.lookup_erase_ne (AList.mem_erase.mp hmem).1,hacc i x hx] at h1
    exact payload_eq_iff.mpr (Option.some.inj h1).symm
  · intro hkeep k e he
    refine hold k e he ?_
    by_cases hk : k = i
    · subst k
      rw [hrem.bucket] at he
      cases hb : t.bucket i with
      | nil =>
        rw [hb] at he
        cases he
      | cons y l =>
        rw [hb] at he
        by_cases hya : y.startAddress = a
        · cases l with
          | nil =>
            rw [removeEntry_single hya] at he
            cases he
          | cons x l =>
            rw [removeEntry_shift hya,payload_eq_iff.mp (hkeep y x l hb hya)] at he
            exact List.mem_cons_of_mem _ he
        · rw [removeEntry_of_ne hya] at he
          exact (List.Sublist.cons_cons y List.eraseP_sublist).subset he
    · rwa [hrem.other k hk] at he

section Histories
variable {s s' : Session} {sp : Spec} {op : Op} {ops : List Op}

/-- The table has the addresses of the map, and the same answers and collisions. -/
structure Tracks (s : Session) (sp : Spec) : Prop where
  keyed : Keyed s.tab sp.map
  results : s.results = sp.results
  counter : s.tab.poolCounter = sp.collisions

theorem tracks_init : Tracks .init .init := by
  refine ⟨⟨wf_initHashTable _,?_,?_,?_,?_⟩,rfl,rfl⟩
  · intro i e he
    rw [Session.init,bucket_initHashTable] at he
    cases he
  · intro i
    rw [Session.init,bucket_initHashTable]
    exact List.nodup_nil
  · intro a
    simp [Session.init,Spec.init,bucket_initHashTable]
  · intro a ha
    simp [Spec.init] at ha

/-- One step returns, agrees with the map on keys and results, and keeps the fields exactly
under the condition on removals. -/
theorem Tracks.step (h : Tracks s sp) (hv : ValidKey op.key) (ha : sp.admits op)
    (hroom : (sp.step op).collisions ≤ MAX_WMMAP_INFO) :
    ∃ s', s.step op = .ok s' ∧ Tracks s' (sp.step op) ∧
      (Accurate s.tab sp.map → (Accurate s'.tab (sp.step op).map ↔ keepsPayload s.tab op)) := by
  obtain ⟨i,hi⟩ := hv.slotOf
  cases op with
  | insert a len np fd fl =>
    change slotOf a = .ok i at hi
    have hocc := h.keyed.occupied_iff hi
    have hfree : s.tab.bucket i = [] ∨ s.tab.poolCounter < MAX_WMMAP_INFO := by
      by_cases hb : s.tab.bucket i = []
      · exact .inl hb
      · right
        simp only [Spec.step,hocc.mpr hb,if_true] at hroom
        have := h.counter
        omega
    obtain ⟨t',ht'⟩ : ∃ t', hashInsert s.tab a len np fd fl = .ok t' := hashInsert_returns len np fd fl hi hfree
    refine ⟨{ s with tab := t' },?_,⟨h.keyed.insert hv ha ht',h.results,?_⟩,?_⟩
    · rw [Session.step,ht']
      rfl
    · change t'.poolCounter = _
      rw [hashInsert_counter ht' hi,h.counter]
      simp only [Spec.step]
      by_cases hb : s.tab.bucket i = []
      · rw [if_pos hb,if_neg (fun hany => hocc.mp hany hb),Nat.add_zero]
      · rw [if_neg hb,if_pos (hocc.mpr hb)]
    · exact fun hacc => ⟨fun _ => trivial,fun _ => hacc.insert h.keyed ha ht'⟩
  | remove a =>
    change slotOf a = .ok i at hi
    obtain ⟨r,t',ht',hrem⟩ := removeValue_spec h.keyed.wf hi
    obtain ⟨hkeyed,hr⟩ := h.keyed.remove hi hrem
    refine ⟨⟨t',s.results ++ [r]⟩,?_,⟨hkeyed,?_,hrem.poolCounter.trans h.counter⟩,?_⟩
    · rw [Session.step,ht']
      rfl
    · simp only [Spec.step,h.results,hr]
    · exact fun hacc => hacc.remove_iff h.keyed hi hrem

theorem collisions_step (sp : Spec) (op : Op) : sp.collisions ≤ (sp.step op).collisions := by
  cases op with
  | insert => exact Nat.le_add_right _ _
  | remove => exact le_rfl

theorem specOf_snoc (ops : List Op) (op : Op) : specOf (ops ++ [op]) = (specOf ops).step op := by
  simp [specOf]

theorem collisions_append (ops₁ ops₂ : List Op) :
    (specOf ops₁).collisions ≤ (specOf (ops₁ ++ ops₂)).collisions := by
  induction ops₂ using List.reverseRecOn with
  | nil => simp
  | append_singleton l op ih =>
    rw [← List.append_assoc,specOf_snoc]
    exact ih.trans (collisions_step _ op)

theorem Legal.room_take (h : Legal ops) (n : ℕ) : (specOf (ops.take n)).collisions ≤ MAX_WMMAP_INFO := by
  have := collisions_append (ops.take n) (ops.drop n)
  rw [List.take_append_drop] at this
  exact this.trans h.room

theorem Legal.next (h : Legal ops) {n : ℕ} (hn : n < ops.length)
    (hexec : exec Session.step .init (ops.take n) = .ok s) (ht : Tracks s (specOf (ops.take n))) :
    ∃ s', exec Session.step .init (ops.take (n+1)) = .ok s' ∧ Tracks s' (specOf (ops.take (n+1))) ∧
      (Accurate s.tab (specOf (ops.take n)).map →
        (Accurate s'.tab (specOf (ops.take (n+1))).map ↔ keepsPayload s.tab ops[n])) := by
  have hroom := h.room_take (n+1)
  rw [List.take_succ_eq_append_getElem hn] at hroom ⊢
  rw [specOf_snoc] at hroom ⊢
  obtain ⟨s',hs',htracks,hacc⟩ := ht.step (h.valid _ (List.getElem_mem hn)) (h.fresh n hn) hroom
  refine ⟨s',?_,htracks,hacc⟩
  rw [exec_append,hexec]
  simp only [exec,hs']

theorem Legal.tracks (h : Legal ops) {n : ℕ} (hn : n ≤ ops.length) :
    ∃ s, exec Session.step .init (ops.take n) = .ok s ∧ Tracks s (specOf (ops.take n)) := by
  induction n with
  | zero => exact ⟨.init,rfl,tracks_init⟩
  | succ n ih =>
    obtain ⟨s,hexec,ht⟩ := ih (Nat.le_of_succ_le hn)
    obtain ⟨s',hexec',ht',-⟩ := h.next hn hexec ht
    exact ⟨s',hexec',ht'⟩

/-- In every legal history the calls return, removals report and searches find exactly the
keys present. After every step the nodes found carry the entries of their keys exactly
when no removal of the history moves an address onto other fields. -/
theorem finite_map (ops : List Op) (h : Legal ops) :
    (∀ n ≤ ops.length, ∃ s, exec Session.step .init (ops.take n) = .ok s ∧
      s.results = (specOf (ops.take n)).results ∧ Finds s.tab (specOf (ops.take n)).map) ∧
    ((∀ n ≤ ops.length, ∀ s, exec Session.step .init (ops.take n) = .ok s →
        Carries s.tab (specOf (ops.take n)).map) ↔
      ∀ n, ∀ hn : n < ops.length, ∀ s, exec Session.step .init (ops.take n) = .ok s →
        keepsPayload s.tab ops[n]) := by
  refine ⟨?_,?_,?_⟩
  · intro n hn
    obtain ⟨s,hexec,ht⟩ := h.tracks hn
    exact ⟨s,hexec,ht.results,ht.keyed.finds⟩
  · intro hcar n hn s hexec
    obtain ⟨u,hu,ht⟩ := h.tracks (Nat.le_of_lt hn)
    obtain rfl : u = s := Except.ok.inj (hu.symm.trans hexec)
    obtain ⟨s',hexec',ht',hiff⟩ := h.next hn hexec ht
    have hacc := ht.keyed.carries_iff.mp (hcar n (Nat.le_of_lt hn) u hexec)
    exact (hiff hacc).mp (ht'.keyed.carries_iff.mp (hcar (n+1) hn s' hexec'))
  · intro hkeep n
    induction n with
    | zero =>
      intro _ s hexec a p ha hs
      cases hexec
      obtain ⟨r,hr,hiff⟩ := tracks_init.keyed.finds a ha
      rw [hs] at hr
      cases hr
      simp [Spec.init] at hiff
    | succ n ih =>
      intro hn s hexec
      obtain ⟨u,hu,ht⟩ := h.tracks (Nat.le_of_succ_le hn)
      obtain ⟨s',hexec',ht',hiff⟩ := h.next hn hu ht
      obtain rfl : s' = s := Except.ok.inj (hexec'.symm.trans hexec)
      have hacc := ht.keyed.carries_iff.mp (ih (Nat.le_of_succ_le hn) u hu)
      exact ht'.keyed.carries_iff.mpr ((hiff hacc).mpr (hkeep n hn u hu))

def shiftedKeys : List Op :=
  [.insert 0x60000000 100 1 3 2,.insert 0x60013000 5000 2 4 6,.remove 0x60000000]

theorem legal_shiftedKeys : Legal shiftedKeys := by
  constructor
  · decide
  · decide +kernel
  · decide +kernel

theorem finite_map_shiftedKeys : Legal shiftedKeys ∧ ∃ s, exec Session.step .init shiftedKeys = .ok s ∧
    s.results = [1] ∧ Finds s.tab (specOf shiftedKeys).map := by
  obtain ⟨s,hexec,hres,hfinds⟩ := (finite_map shiftedKeys legal_shiftedKeys).1 3 le_rfl
  exact ⟨legal_shiftedKeys,s,hexec,hres,hfinds⟩

/-- The node found for the second key carries its address with the fields of the first. -/
theorem shiftedKeys_payload : Legal shiftedKeys ∧ ∃ s, exec Session.step .init shiftedKeys = .ok s ∧
    hashSearch s.tab 0x60013000 = .ok (some (.slot 7)) ∧
    s.tab.entry (.slot 7) = ⟨0x60013000,1,100,3,2,0⟩ ∧
    (specOf shiftedKeys).map.lookup 0x60013000 = some ⟨0x60013000,2,5000,4,6,0⟩ := by
  refine ⟨legal_shiftedKeys,_,rfl,?_,?_,?_⟩
  · decide +kernel
  · decide +kernel
  · decide +kernel

end Histories
end Xv6.Wmap
