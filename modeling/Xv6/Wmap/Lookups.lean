import Xv6.Wmap.Removal

/-! # Lookups on buckets

A search walks the live nodes of one slot, or of all slots in order, and returns the
first node that passes its test.
-/
namespace Xv6.Wmap
open NodePool
variable {t : Table} {a : Word} {i : Slot} {test : Entry → Bool}

def Table.entry (t : Table) (p : Ptr) : Entry := (t.deref p).toEntry

def Table.nodes (t : Table) (i : Slot) : List Ptr :=
  if (t.table i).startAddress = EMPTY then [] else .slot i :: (t.chain i).map .pool

/-- The nodes that are in use, in the order of `getwmapinfo`. -/
def Table.allNodes (t : Table) : List Ptr := (List.finRange MEM_HASH_SIZE).flatMap t.nodes

def Table.entries (t : Table) : List Entry := (List.finRange MEM_HASH_SIZE).flatMap t.bucket

theorem bucket_eq (t : Table) (i : Slot) : t.bucket i = (t.nodes i).map t.entry := by
  rw [Table.bucket,Table.nodes]
  split
  · rfl
  · rw [List.map_cons,List.map_map]
    rfl

theorem entries_eq (t : Table) : t.entries = t.allNodes.map t.entry := by
  rw [Table.entries,Table.allNodes,List.map_flatMap]
  exact congrArg (List.flatMap · _) (funext (bucket_eq t))

theorem mem_entries {e : Entry} : e ∈ t.entries ↔ ∃ i, e ∈ t.bucket i := by
  simp [Table.entries]

theorem WF.chain_length (hw : WF t) (i : Slot) : (t.chain i).length ≤ MAX_WMMAP_INFO := by
  have := Linked.length_le (hw.nodup i)
  rwa [Fintype.card_fin] at this

theorem searchChain_eq {p : Option PoolIdx} {l : List PoolIdx} {fuel : ℕ} (hl : Linked t.nexts p l)
    (hlen : l.length ≤ fuel) :
    searchChain t test fuel p = .ok (l.find? fun j => test (t.poolEntry j)) := by
  induction l generalizing p fuel with
  | nil =>
    rw [linked_nil.mp hl]
    cases fuel <;> rfl
  | cons j l ih =>
    obtain ⟨rfl,hl⟩ := hl
    cases fuel with
    | zero => simp at hlen
    | succ fuel =>
      rw [searchChain,List.find?_cons]
      change (if test (t.poolEntry j) = true then _ else _) = _
      cases htest : test (t.poolEntry j) with
      | true => rfl
      | false => exact ih hl (by simpa using hlen)

theorem searchSlot_eq (hw : WF t) (htest : ∀ e, e.startAddress = EMPTY → test e = false) (i : Slot) :
    searchSlot t test i = .ok ((t.nodes i).find? fun p => test (t.entry p)) := by
  rw [searchSlot,searchChain_eq (hw.linked i) (hw.chain_length i),Table.nodes]
  by_cases he : (t.table i).startAddress = EMPTY
  · rw [if_pos he,hw.chain_of_empty he,htest _ he]
    rfl
  · rw [if_neg he,List.find?_cons]
    change (if test (t.entry (.slot i)) = true then _ else _) = _
    cases test (t.entry (.slot i)) with
    | true => rfl
    | false =>
      rw [List.find?_map]
      rfl

theorem hashSearch_eq (hw : WF t) (hi : slotOf a = .ok i) :
    hashSearch t a = .ok ((t.nodes i).find? fun p => (t.entry p).startAddress = a) := by
  unfold hashSearch
  rw [hi]
  have htest : ∀ e : Entry, e.startAddress = EMPTY → (fun e => decide (e.startAddress = a)) e = false := by
    intro e he
    exact decide_eq_false (fun h => ne_empty_of_slotOf hi (h.symm.trans he))
  exact searchSlot_eq hw htest i

theorem coverIn_eq (hw : WF t) (ha : a ≠ EMPTY) (is : List Slot) :
    coverIn t a is = .ok ((is.flatMap t.nodes).find? fun p => (t.entry p).covers a) := by
  have htest : ∀ e : Entry, e.startAddress = EMPTY → e.covers a = false := by
    intro e he
    have hle : ¬ EMPTY ≤ a := by
      intro hle
      apply ha
      apply BitVec.eq_of_toNat_eq
      have h := BitVec.le_def.mp hle
      have := a.isLt
      simp only [EMPTY] at h ⊢
      simp at h ⊢
      omega
    rw [Entry.covers,he,decide_eq_false hle,Bool.false_and]
  induction is with
  | nil => rfl
  | cons i is ih =>
    rw [coverIn,searchSlot_eq hw htest i,List.flatMap_cons,List.find?_append]
    cases (t.nodes i).find? fun p => (t.entry p).covers a with
    | some p => rfl
    | none => exact ih

/-- The node that `pageInMappings` finds: one that starts at the address, or else the first
one that covers it. -/
def Table.findPage (t : Table) (i : Slot) (a : Word) : Option Ptr :=
  ((t.nodes i).find? fun p => (t.entry p).startAddress = a).or (t.allNodes.find? fun p => (t.entry p).covers a)

theorem pageInMappings_eq (hw : WF t) (hi : slotOf a = .ok i) :
    pageInMappings t a = .ok (t.findPage i a) := by
  unfold pageInMappings Table.findPage
  rw [hashSearch_eq hw hi,coverIn_eq hw (ne_empty_of_slotOf hi)]
  cases (t.nodes i).find? fun p => (t.entry p).startAddress = a with
  | some p => rfl
  | none => rfl

end Xv6.Wmap
