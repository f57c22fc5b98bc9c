import Xv6.Wmap.Insertion

/-! # The use of the node pool

Every insertion into an occupied slot takes the next node of the pool, and no node is
ever given back. The nodes taken are therefore numbered by the insertions that met an
occupied slot.
-/
namespace Xv6.Wmap
open NodePool Program
variable {t t' : Table} {a : Word}

section Insertions

abbrev Insertion := Table × Word

def occupied (x : Insertion) : Bool :=
  match slotOf x.2 with
  | .ok i => decide ((x.1.table i).startAddress ≠ EMPTY)
  | .error _ => false

def poolIndex (x : Insertion) : Option ℕ := if occupied x then some x.1.poolCounter else none

def chainInsertions : ℕ → Table → Option Ptr → List Insertion
  | _, _, none => []
  | 0, _, some _ => []
  | fuel+1, t, some p =>
    let n := t.deref p
    if n.startAddress = EMPTY then []
    else (t,n.startAddress) :: match hashInsert t n.startAddress n.length n.numPages n.fd n.flags with
      | .ok t' => chainInsertions fuel t' ((t'.deref p).next.map .pool)
      | .error _ => []

def slotInsertions : List Slot → Table → List Insertion
  | [], _ => []
  | i :: is, t => chainInsertions (2*MAX_WMMAP_INFO+3) t (some (.slot i)) ++
    match forkChain (2*MAX_WMMAP_INFO+3) t (some (.slot i)) with
    | .ok t' => slotInsertions is t'
    | .error _ => []

end Insertions

section Counting

/-- The insertions into occupied slots take the nodes of the pool in order. -/
def Numbered (n : ℕ) (l : List Insertion) : Prop := l.filterMap poolIndex = List.range' n (l.countP occupied)

theorem Numbered.nil (n : ℕ) : Numbered n [] := rfl

theorem Numbered.cons {n : ℕ} {x : Insertion} {l : List Insertion} (hx : x.1.poolCounter = n)
    (h : Numbered (if occupied x then n+1 else n) l) : Numbered n (x :: l) := by
  unfold Numbered at h ⊢
  cases ho : occupied x with
  | true =>
    rw [ho,if_pos rfl] at h
    rw [List.filterMap_cons_some (by rw [poolIndex,if_pos ho,hx]),List.countP_cons_of_pos ho,h,
      List.range'_succ]
  | false =>
    rw [ho,if_neg Bool.false_ne_true] at h
    rw [List.filterMap_cons_none (by rw [poolIndex,ho]; rfl),List.countP_cons_of_neg (by simp [ho]),h]

theorem Numbered.append {n : ℕ} {l l' : List Insertion} (h : Numbered n l)
    (h' : Numbered (n+l.countP occupied) l') : Numbered n (l ++ l') := by
  unfold Numbered at h h' ⊢
  rw [List.filterMap_append,List.countP_append,h,h',List.range'_append_1]

theorem Numbered.lt_iff {l : List Insertion} (h : Numbered 0 l) (m : ℕ) :
    (∀ x ∈ l, ∀ j, poolIndex x = some j → j < m) ↔ l.countP occupied ≤ m := by
  have hmem : ∀ j, (∃ x ∈ l, poolIndex x = some j) ↔ j < l.countP occupied := by
    intro j
    rw [← List.mem_filterMap,h,List.mem_range'_1]
    omega
  constructor
  · intro hlt
    by_contra hgt
    obtain ⟨x,hx,hj⟩ := (hmem m).mpr (by omega)
    exact absurd (hlt x hx m hj) (lt_irrefl m)
  · intro hle x hx j hj
    exact lt_of_lt_of_le ((hmem j).mp ⟨x,hx,hj⟩) hle

theorem counter_hashInsert {len np fd fl : Word} (h : hashInsert t a len np fd fl = .ok t') :
    t'.poolCounter = if occupied (t,a) then t.poolCounter+1 else t.poolCounter := by
  obtain ⟨i,hi,hcases⟩ := hashInsert_cases h
  unfold occupied
  rw [hi]
  rcases hcases with ⟨he,rfl⟩ | ⟨he,j,-,rfl⟩
  · simp [he,Table.fillSlot,Table.setSlot]
  · simp [he,Table.pushNode]

structure Counts (t : Table) (l : List Insertion) (r : Except Stop Table) : Prop where
  numbered : Numbered t.poolCounter l
  counter : ∀ t', r = .ok t' → t'.poolCounter = t.poolCounter+l.countP occupied
  stops : r ≠ .error .exited

theorem Counts.refl (t : Table) : Counts t [] (.ok t) where
  numbered := .nil _
  counter := by
    rintro _ ⟨⟩
    rfl
  stops := by simp

theorem Counts.stop (t : Table) {e : Stop} (he : e ≠ .exited) : Counts t [] (.error e) where
  numbered := .nil _
  counter := by
    rintro _ ⟨⟩
  stops := by simpa using he

theorem Counts.append {l l' : List Insertion} {r : Except Stop Table} (h : Counts t l (.ok t'))
    (h' : Counts t' l' r) : Counts t (l ++ l') r := by
  have hc := h.counter t' rfl
  refine ⟨h.numbered.append (hc ▸ h'.numbered),fun u hu => ?_,h'.stops⟩
  rw [h'.counter u hu,hc,List.countP_append]
  omega

theorem counts_insert (t : Table) (a len np fd fl : Word) :
    Counts t [(t,a)] (hashInsert t a len np fd fl) := by
  refine ⟨.cons rfl (.nil _),fun t' ht' => ?_,?_⟩
  · rw [counter_hashInsert ht',List.countP_singleton]
    split <;> rfl
  · unfold hashInsert slotOf
    split
    · change (if _ then _ else _) ≠ _
      split
      · simp
      · split <;> simp
    · rintro ⟨⟩

theorem Counts.insert_bind {l : List Insertion} {len np fd fl : Word} {f : Table → Except Stop Table}
    (herr : ∀ e, hashInsert t a len np fd fl = .error e → l = [(t,a)])
    (hok : ∀ t', hashInsert t a len np fd fl = .ok t' → ∃ l', l = (t,a) :: l' ∧ Counts t' l' (f t')) :
    Counts t l (hashInsert t a len np fd fl >>= f) := by
  have hins := counts_insert t a len np fd fl
  cases h : hashInsert t a len np fd fl with
  | error e =>
    rw [herr e h]
    rw [h] at hins
    exact ⟨hins.numbered,by rintro _ ⟨⟩,hins.stops⟩
  | ok t' =>
    obtain ⟨l',rfl,hrest⟩ := hok t' h
    rw [h] at hins
    exact hins.append hrest

theorem counts_chain (fuel : ℕ) (t : Table) (p : Option Ptr) :
    Counts t (chainInsertions fuel t p) (forkChain fuel t p) := by
  induction fuel generalizing t p with
  | zero =>
    cases p with
    | none => exact .refl t
    | some p => exact .stop t (by decide)
  | succ fuel ih =>
    cases p with
    | none => exact .refl t
    | some p =>
      rw [chainInsertions,forkChain]
      split
      · exact .refl t
      · refine Counts.insert_bind (fun e he => by rw [he]) fun t' ht' => ?_
        exact ⟨_,by rw [ht'],ih t' _⟩

theorem counts_slots (l : List Slot) (t : Table) : Counts t (slotInsertions l t)
    (l.foldlM (fun t i => forkChain (2*MAX_WMMAP_INFO+3) t (some (.slot i))) t) := by
  induction l generalizing t with
  | nil => exact .refl t
  | cons i l ih =>
    have hchain := counts_chain (2*MAX_WMMAP_INFO+3) t (some (.slot i))
    rw [slotInsertions,List.foldlM_cons]
    cases h : forkChain (2*MAX_WMMAP_INFO+3) t (some (.slot i)) with
    | error e =>
      rw [h] at hchain
      rw [List.append_nil]
      exact ⟨hchain.numbered,by rintro _ ⟨⟩,hchain.stops⟩
    | ok t' =>
      rw [h] at hchain
      exact hchain.append (ih t')

theorem counts_forkHelper (t : Table) :
    Counts t (slotInsertions (List.finRange MEM_HASH_SIZE) t) (forkHelper t) := counts_slots _ t

theorem unlink_counter {fuel : ℕ} {prev : Ptr} {o : Option PoolIdx} {r : ℤ}
    (h : unlink t a fuel prev o = .ok (r,t')) : t'.poolCounter = t.poolCounter := by
  fun_induction unlink t a fuel prev o with
  | case1 =>
    cases h
    rfl
  | case2 => cases h
  | case3 fuel prev j =>
    cases h
    cases prev <;> rfl
  | case4 fuel prev j hne ih => exact ih h

theorem removeValue_counter {r : ℤ} (h : removeValue t a = .ok (r,t')) : t'.poolCounter = t.poolCounter := by
  obtain ⟨i,-,h⟩ := bind_ok h
  dsimp only at h
  split at h
  · split at h
    · cases h
      rfl
    · cases h
      rfl
  · exact unlink_counter h

end Counting
end Xv6.Wmap
