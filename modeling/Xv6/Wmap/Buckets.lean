import Xv6.Library.NodePool
import Xv6.Wmap.Table

/-! # The table as lists of entries

A slot with its chain stands for a list of entries. Insertion puts an entry behind
the first one; removal of the first entry moves the address of the second one up and
keeps the other fields in place.
-/
namespace Xv6.Wmap
open NodePool Function

abbrev Slot := Fin MEM_HASH_SIZE
abbrev PoolIdx := Fin MAX_WMMAP_INFO

def Table.nexts (t : Table) : PoolIdx → Option PoolIdx := fun j => (t.nodePool j).next

def Table.poolEntry (t : Table) (j : PoolIdx) : Entry := (t.nodePool j).toEntry

/-- The nodes behind a slot. -/
def Table.chain (t : Table) (i : Slot) : List PoolIdx := follow t.nexts MAX_WMMAP_INFO (t.table i).next

/-- The entries of a slot: the inline one and those of its chain. -/
def Table.bucket (t : Table) (i : Slot) : List Entry :=
  if (t.table i).startAddress = EMPTY then [] else (t.table i).toEntry :: (t.chain i).map t.poolEntry

/-- The chains end, share no node, and have nodes that were handed out and are in use. -/
structure WF (t : Table) : Prop where
  linked : ∀ i, Linked t.nexts (t.table i).next (t.chain i)
  nodup : ∀ i, (t.chain i).Nodup
  apart : ∀ i k j, j ∈ t.chain i → j ∈ t.chain k → i = k
  fresh : ∀ i, ∀ j ∈ t.chain i, j.val < t.poolCounter
  empty : ∀ i, (t.table i).startAddress = EMPTY → (t.table i).next = none
  live : ∀ i, ∀ j ∈ t.chain i, (t.nodePool j).startAddress ≠ EMPTY

section Chains
variable {t : Table} {ch : Slot → List PoolIdx}

theorem chain_eq {i : Slot} {l : List PoolIdx} (h : Linked t.nexts (t.table i).next l) (hnd : l.Nodup) :
    t.chain i = l := by
  apply h.follow
  have := Linked.length_le hnd
  rwa [Fintype.card_fin] at this

theorem WF.of_chains (linked : ∀ i, Linked t.nexts (t.table i).next (ch i)) (nodup : ∀ i, (ch i).Nodup)
    (apart : ∀ i k j, j ∈ ch i → j ∈ ch k → i = k) (fresh : ∀ i, ∀ j ∈ ch i, j.val < t.poolCounter)
    (empty : ∀ i, (t.table i).startAddress = EMPTY → (t.table i).next = none)
    (live : ∀ i, ∀ j ∈ ch i, (t.nodePool j).startAddress ≠ EMPTY) : WF t ∧ ∀ i, t.chain i = ch i := by
  have he : ∀ i, t.chain i = ch i := fun i => chain_eq (linked i) (nodup i)
  refine ⟨⟨?_,?_,?_,?_,empty,?_⟩,he⟩
  · exact fun i => he i ▸ linked i
  · exact fun i => he i ▸ nodup i
  · intro i k j hi hk
    exact apart i k j (he i ▸ hi) (he k ▸ hk)
  · exact fun i j hj => fresh i j (he i ▸ hj)
  · exact fun i j hj => live i j (he i ▸ hj)

end Chains

theorem slotOf_lower {a : Word} (ha : a.toNat < 2^31) : ∃ i, slotOf a = .ok i := by
  have hint : a.toInt = a.toNat := BitVec.toInt_eq_toNat_of_lt (by omega)
  have hpos : 0 ≤ hash a := by
    rw [hash,hint]
    exact Int.tmod_nonneg _ (by omega)
  exact ⟨_,if_pos hpos⟩

theorem slotOf_empty : slotOf EMPTY = .error .undefined := by decide

theorem ne_empty_of_slotOf {a : Word} {i : Slot} (h : slotOf a = .ok i) : a ≠ EMPTY := by
  rintro rfl
  rw [slotOf_empty] at h
  cases h

def insertEntry (e : Entry) : List Entry → List Entry
  | [] => [e]
  | h :: l => h :: e :: l

theorem insertEntry_perm (e : Entry) (l : List Entry) : (insertEntry e l).Perm (e :: l) := by
  cases l with
  | nil => rfl
  | cons h l => exact List.Perm.swap e h l

def removeEntry (a : Word) : List Entry → List Entry
  | [] => []
  | h :: l =>
    if h.startAddress = a then
      match l with
      | [] => []
      | x :: l => { h with startAddress := x.startAddress } :: l
    else h :: l.eraseP (fun e => e.startAddress = a)

theorem removeEntry_of_ne {a : Word} {h : Entry} (hne : h.startAddress ≠ a) (l : List Entry) :
    removeEntry a (h :: l) = h :: l.eraseP (fun e => e.startAddress = a) := by
  simp [removeEntry,hne]

theorem removeEntry_single {a : Word} {h : Entry} (he : h.startAddress = a) : removeEntry a [h] = [] := by
  simp [removeEntry,he]

theorem removeEntry_shift {a : Word} {h : Entry} (he : h.startAddress = a) (x : Entry) (l : List Entry) :
    removeEntry a (h :: x :: l) = { h with startAddress := x.startAddress } :: l := by
  simp [removeEntry,he]

section Insert
variable {t t' : Table} {a len np fd fl : Word} {i : Slot}

theorem WF.chain_of_empty (hw : WF t) (he : (t.table i).startAddress = EMPTY) : t.chain i = [] := by
  rw [Table.chain,hw.empty i he]
  rfl

theorem bucket_of_empty (he : (t.table i).startAddress = EMPTY) : t.bucket i = [] := if_pos he
theorem bucket_of_live (he : (t.table i).startAddress ≠ EMPTY) :
    t.bucket i = (t.table i).toEntry :: (t.chain i).map t.poolEntry := if_neg he

end Insert

theorem wf_of_unlinked {t : Table} (h : ∀ i, (t.table i).next = none) : WF t := by
  have hch : ∀ i, t.chain i = [] := by
    intro i
    unfold Table.chain
    rw [h i]
    rfl
  constructor
  · intro i
    rw [hch i,h i]
    rfl
  · exact fun i => hch i ▸ List.nodup_nil
  · intro i k j hj
    simp [hch i] at hj
  · intro i j hj
    simp [hch i] at hj
  · exact fun i _ => h i
  · intro i j hj
    simp [hch i] at hj

theorem wf_initHashTable (t : Table) : WF (initHashTable t) := wf_of_unlinked fun _ => rfl

theorem bucket_initHashTable (t : Table) (i : Slot) : (initHashTable t).bucket i = [] := bucket_of_empty rfl

/-- Only slot `i` and nodes outside the other chains change; `l` is the new chain of `i`. -/
structure Rechained (t t' : Table) (i : Slot) (l : List PoolIdx) : Prop where
  table : ∀ k, k ≠ i → t'.table k = t.table k
  pool : ∀ k, k ≠ i → ∀ j ∈ t.chain k, t'.nodePool j = t.nodePool j
  linked : Linked t'.nexts (t'.table i).next l
  nodup : l.Nodup
  apart : ∀ k, k ≠ i → ∀ j ∈ l, j ∉ t.chain k
  counter : t.poolCounter ≤ t'.poolCounter
  fresh : ∀ j ∈ l, j.val < t'.poolCounter
  empty : (t'.table i).startAddress = EMPTY → (t'.table i).next = none
  live : ∀ j ∈ l, (t'.nodePool j).startAddress ≠ EMPTY

theorem Rechained.wf {t t' : Table} {i : Slot} {l : List PoolIdx} (h : Rechained t t' i l) (hw : WF t) :
    WF t' ∧ t'.chain i = l ∧ ∀ k, k ≠ i → t'.bucket k = t.bucket k := by
  let ch := update t.chain i l
  have hself : ch i = l := update_self _ _ _
  have hne : ∀ k, k ≠ i → ch k = t.chain k := fun k hk => update_of_ne hk _ _
  obtain ⟨hwf,hch⟩ : WF t' ∧ ∀ k, t'.chain k = ch k := by
    apply WF.of_chains
    · intro k
      by_cases hk : k = i
      · subst k
        rw [hself]
        exact h.linked
      · rw [hne k hk,h.table k hk]
        apply (hw.linked k).congr
        intro j hj
        rw [Table.nexts,h.pool k hk j hj]
        rfl
    · intro k
      by_cases hk : k = i
      · subst k
        rw [hself]
        exact h.nodup
      · rw [hne k hk]
        exact hw.nodup k
    · intro k m j hj hj'
      by_cases hk : k = i <;> by_cases hm : m = i
      · rw [hk,hm]
      · rw [hk,hself] at hj
        rw [hne m hm] at hj'
        exact absurd hj' (h.apart m hm j hj)
      · rw [hm,hself] at hj'
        rw [hne k hk] at hj
        exact absurd hj (h.apart k hk j hj')
      · rw [hne k hk] at hj
        rw [hne m hm] at hj'
        exact hw.apart k m j hj hj'
    · intro k j hj
      by_cases hk : k = i
      · subst k
        rw [hself] at hj
        exact h.fresh j hj
      · rw [hne k hk] at hj
        exact lt_of_lt_of_le (hw.fresh k j hj) h.counter
    · intro k hk
      by_cases hki : k = i
      · subst k
        exact h.empty hk
      · rw [h.table k hki] at hk ⊢
        exact hw.empty k hk
    · intro k j hj
      by_cases hk : k = i
      · subst k
        rw [hself] at hj
        exact h.live j hj
      · rw [hne k hk] at hj
        rw [h.pool k hk j hj]
        exact hw.live k j hj
  refine ⟨hwf,(hch i).trans hself,?_⟩
  intro k hk
  rw [Table.bucket,Table.bucket,hch k,hne k hk,h.table k hk]
  split
  · rfl
  · congr 1
    apply List.map_congr_left
    intro j hj
    rw [Table.poolEntry,h.pool k hk j hj]
    rfl

theorem nexts_setPool (t : Table) (j : PoolIdx) (n : Node) :
    (t.setPool j n).nexts = Function.update t.nexts j n.next := by
  funext k
  by_cases hk : k = j
  · subst k
    simp [Table.nexts,Table.setPool]
  · simp [Table.nexts,Table.setPool,hk]

end Xv6.Wmap
