import Xv6.Library.Runs
import Xv6.Wmap.Lookups

/-! # Histories of insertions and removals

A history of keys in the mapping area is run on the table and on a finite map. The
buckets of the table hold the keys of the map after every step, and every removal
returns what the map says.
-/
namespace Xv6.Wmap
open NodePool Runs

/-- The start of a page between `MMAPBASE` and `KERNBASE`. -/
structure ValidKey (a : Word) : Prop where
  aligned : a.toNat % PGSIZE = 0
  low : 0x60000000 ≤ a.toNat
  high : a.toNat < 0x80000000

instance (a : Word) : Decidable (ValidKey a) :=
  decidable_of_iff (a.toNat % PGSIZE = 0 ∧ 0x60000000 ≤ a.toNat ∧ a.toNat < 0x80000000)
    ⟨fun h => ⟨h.1,h.2.1,h.2.2⟩,fun h => ⟨h.aligned,h.low,h.high⟩⟩

theorem ValidKey.slotOf {a : Word} (h : ValidKey a) : ∃ i, slotOf a = .ok i := slotOf_lower h.high

inductive Op
  | insert (startAddress length numPages fd flags : Word)
  | remove (startAddress : Word)
  deriving DecidableEq

def Op.key : Op → Word
  | .insert startAddress .. => startAddress
  | .remove startAddress => startAddress

abbrev Mappings := AList fun _ : Word => Entry

/-- The table as a finite map, with the answers and the number of collisions so far. -/
structure Spec where
  map : Mappings
  results : List ℤ
  collisions : ℕ

def Spec.init : Spec := ⟨∅,[],0⟩

def Spec.step (s : Spec) : Op → Spec
  | .insert a len np fd fl =>
    { s with
      map := s.map.insert a ⟨a,np,len,fd,fl,0⟩
      collisions := s.collisions + if s.map.keys.any (fun k => hash k = hash a) then 1 else 0 }
  | .remove a => { s with map := s.map.erase a, results := s.results ++ [if a ∈ s.map then 1 else -1] }

def specOf (ops : List Op) : Spec := ops.foldl Spec.step .init

def Spec.admits (s : Spec) : Op → Prop
  | .insert a .. => a ∉ s.map
  | .remove _ => True

instance (s : Spec) : (op : Op) → Decidable (s.admits op)
  | .insert a .. => inferInstanceAs (Decidable (a ∉ s.map))
  | .remove _ => .isTrue trivial

/-- A history that inserts no address that is there and does not use up the pool. -/
structure Legal (ops : List Op) : Prop where
  valid : ∀ op ∈ ops, ValidKey op.key
  fresh : ∀ n, ∀ h : n < ops.length, (specOf (ops.take n)).admits ops[n]
  room : (specOf ops).collisions ≤ MAX_WMMAP_INFO

structure Session where
  tab : Table
  results : List ℤ

def Session.init : Session := ⟨initHashTable .boot,[]⟩

def Session.step (s : Session) : Op → Except Stop Session
  | .insert a len np fd fl => do
    let t ← hashInsert s.tab a len np fd fl
    .ok { s with tab := t }
  | .remove a => do
    let (r,t) ← removeValue s.tab a
    .ok ⟨t,s.results ++ [r]⟩

/-- `hashSearch` returns, and finds the addresses of the map and no others. -/
def Finds (t : Table) (m : Mappings) : Prop :=
  ∀ a, ValidKey a → ∃ r, hashSearch t a = .ok r ∧ (r.isSome ↔ a ∈ m)

/-- What `hashSearch` finds is the entry of the map. -/
def Carries (t : Table) (m : Mappings) : Prop :=
  ∀ a p, ValidKey a → hashSearch t a = .ok (some p) → m.lookup a = some (t.entry p)

def keepsPayload (t : Table) : Op → Prop
  | .insert .. => True
  | .remove a => ∀ i j, slotOf a = .ok i → (t.table i).startAddress = a → (t.table i).next = some j →
      (t.nodePool j).payload = (t.table i).payload

section Entries

theorem removeEntry_starts (a : Word) (l : List Entry) :
    (removeEntry a l).map Entry.startAddress = (l.map Entry.startAddress).erase a := by
  cases l with
  | nil => rfl
  | cons h l =>
    by_cases hh : h.startAddress = a
    · rw [List.map_cons,hh,List.erase_cons_head]
      cases l with
      | nil => rw [removeEntry_single hh]
      | cons x l =>
        rw [removeEntry_shift hh]
        rfl
    · rw [removeEntry_of_ne hh,List.map_cons,List.map_cons,List.erase_cons_tail (by simpa using hh)]
      congr 1
      rw [List.erase_eq_eraseP',List.eraseP_map]
      rfl

end Entries

theorem hash_of_slotOf {a : Word} {i : Slot} (h : slotOf a = .ok i) : hash a = i.val := by
  unfold slotOf at h
  split at h
  · rename_i hpos
    cases h
    have hlt : hash a < MEM_HASH_SIZE := Int.tmod_lt_of_pos _ (by decide)
    have hmod : (hash a).toNat % MEM_HASH_SIZE = (hash a).toNat := Nat.mod_eq_of_lt (by omega)
    simp only [Fin.ofNat,hmod]
    omega
  · cases h

theorem slotOf_eq_iff {a k : Word} {i : Slot} (ha : slotOf a = .ok i) (hk : ∃ j, slotOf k = .ok j) :
    hash k = hash a ↔ slotOf k = .ok i := by
  obtain ⟨j,hj⟩ := hk
  rw [hash_of_slotOf ha,hash_of_slotOf hj,hj,Except.ok.injEq,Fin.ext_iff]
  omega

/-- The addresses of the table are those of the map, each in its slot. -/
structure Keyed (t : Table) (m : Mappings) : Prop where
  wf : WF t
  home : ∀ i, ∀ e ∈ t.bucket i, slotOf e.startAddress = .ok i
  nodup : ∀ i, ((t.bucket i).map Entry.startAddress).Nodup
  mem : ∀ a, a ∈ m ↔ ∃ i, a ∈ (t.bucket i).map Entry.startAddress
  valid : ∀ a ∈ m, ValidKey a

namespace Keyed
variable {t t' : Table} {m : Mappings} {a len np fd fl : Word} {i : Slot} {r : ℤ}

theorem mem_iff (h : Keyed t m) (hi : slotOf a = .ok i) :
    a ∈ m ↔ a ∈ (t.bucket i).map Entry.startAddress := by
  rw [h.mem]
  constructor
  · rintro ⟨k,hk⟩
    obtain ⟨e,he,rfl⟩ := List.mem_map.mp hk
    have hik := h.home k e he
    rw [hi] at hik
    cases hik
    exact hk
  · exact fun hm => ⟨i,hm⟩

theorem occupied_iff (h : Keyed t m) (hi : slotOf a = .ok i) :
    m.keys.any (fun k => hash k = hash a) = true ↔ t.bucket i ≠ [] := by
  rw [List.any_eq_true]
  constructor
  · rintro ⟨k,hk,hh⟩ hnil
    have hk : k ∈ m := hk
    have hki := (slotOf_eq_iff hi (h.valid k hk).slotOf).mp (of_decide_eq_true hh)
    have := (h.mem_iff hki).mp hk
    rw [hnil] at this
    simp at this
  · intro hne
    obtain ⟨e,he⟩ := List.exists_mem_of_ne_nil _ hne
    have hk : e.startAddress ∈ m := (h.mem _).mpr ⟨i,List.mem_map_of_mem he⟩
    refine ⟨e.startAddress,hk,decide_eq_true ?_⟩
    exact (slotOf_eq_iff hi (h.valid _ hk).slotOf).mpr (h.home i e he)

theorem insert (h : Keyed t m) (hv : ValidKey a) (ha : a ∉ m) (hins : hashInsert t a len np fd fl = .ok t') :
    Keyed t' (m.insert a ⟨a,np,len,fd,fl,0⟩) := by
  obtain ⟨i,hi,hwf,hbucket,hother,-⟩ := hashInsert_ok h.wf hins
  have hperm : (t'.bucket i).Perm (⟨a,np,len,fd,fl,0⟩ :: t.bucket i) := hbucket ▸ insertEntry_perm _ _
  have hkeys := hperm.map Entry.startAddress
  refine ⟨hwf,?_,?_,?_,?_⟩
  · intro k e he
    by_cases hk : k = i
    · subst k
      rcases List.mem_cons.mp (hperm.mem_iff.mp he) with rfl | he
      · exact hi
      · exact h.home i e he
    · exact h.home k e (hother k hk ▸ he)
  · intro k
    by_cases hk : k = i
    · subst k
      rw [hkeys.nodup_iff,List.map_cons,List.nodup_cons]
      exact ⟨fun hm => ha ((h.mem_iff hi).mpr hm),h.nodup i⟩
    · rw [hother k hk]
      exact h.nodup k
  · intro b
    rw [AList.mem_insert,h.mem]
    constructor
    · rintro (rfl | ⟨k,hk⟩)
      · exact ⟨i,hkeys.mem_iff.mpr List.mem_cons_self⟩
      · by_cases hki : k = i
        · subst k
          exact ⟨i,hkeys.mem_iff.mpr (List.mem_cons_of_mem _ hk)⟩
        · exact ⟨k,by rwa [hother k hki]⟩
    · rintro ⟨k,hk⟩
      by_cases hki : k = i
      · subst k
        rcases List.mem_cons.mp (hkeys.mem_iff.mp hk) with rfl | hk
        · exact .inl rfl
        · exact .inr ⟨i,hk⟩
      · exact .inr ⟨k,by rwa [hother k hki] at hk⟩
  · intro b hb
    rcases (AList.mem_insert _).mp hb with rfl | hb
    · exact hv
    · exact h.valid b hb

theorem remove (h : Keyed t m) (hi : slotOf a = .ok i) (hrem : Removed t t' a i r) :
    Keyed t' (m.erase a) ∧ r = if a ∈ m then 1 else -1 := by
  have hkeys : (t'.bucket i).map Entry.startAddress = ((t.bucket i).map Entry.startAddress).erase a := by
    rw [hrem.bucket,removeEntry_starts]
  have hmem : ∀ b k, b ∈ (t'.bucket k).map Entry.startAddress ↔
      b ≠ a ∧ b ∈ (t.bucket k).map Entry.startAddress := by
    intro b k
    by_cases hk : k = i
    · subst k
      rw [hkeys,(h.nodup i).mem_erase_iff]
    · rw [hrem.other k hk,iff_and_self]
      rintro hb rfl
      obtain ⟨e,he,rfl⟩ := List.mem_map.mp hb
      rw [h.home k e he,Except.ok.injEq] at hi
      exact hk hi
  refine ⟨⟨hrem.wf,?_,?_,?_,?_⟩,?_⟩
  · intro k e he
    have hb := ((hmem _ k).mp (List.mem_map_of_mem he)).2
    obtain ⟨x,hx,hxe⟩ := List.mem_map.mp hb
    rw [← hxe]
    exact h.home k x hx
  · intro k
    by_cases hk : k = i
    · subst k
      rw [hkeys]
      exact (h.nodup i).erase a
    · rw [hrem.other k hk]
      exact h.nodup k
  · intro b
    rw [AList.mem_erase,h.mem]
    simp only [hmem,exists_and_left]
  · intro b hb
    exact h.valid b ((AList.mem_erase.mp hb).2)
  · rw [hrem.result]
    congr 1
    rw [h.mem_iff hi,List.mem_map]

end Keyed
end Xv6.Wmap
