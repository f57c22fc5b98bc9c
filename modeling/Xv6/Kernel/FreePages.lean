import Xv6.Library.NodePool
import Xv6.Library.Runs
import Xv6.Param

/-! # The page allocator

The list of free pages lies in the free pages: the first word of each is the address of the
next. Callers store what they like into the pages they have. Whatever they do, every page that
the allocator was given is on the list once or with one caller.
-/
namespace Xv6.Kalloc
open NodePool Runs Function

abbrev KERNBASE : ℕ := 0x80000000
abbrev PHYSTOP : ℕ := 0xE000000

/-- The words at the multiples of 4, and `kmem.freelist`. -/
structure Kmem where
  word : ℕ → ℕ
  freelist : ℕ

/-- `fin` is the address `end` behind the kernel; no result is the panic. -/
def kfree (fin v : ℕ) (k : Kmem) : Option Kmem :=
  if v % PGSIZE ≠ 0 ∨ v < fin ∨ PHYSTOP ≤ v-KERNBASE then none
  else some ⟨fun a => if a = v then k.freelist else if v ≤ a ∧ a < v+PGSIZE then 0x01010101 else k.word a,v⟩

def kalloc (k : Kmem) : ℕ × Kmem :=
  (k.freelist,if k.freelist = 0 then k else { k with freelist := k.word k.freelist })

def PGROUNDUP (a : ℕ) : ℕ := (a+PGSIZE-1)/PGSIZE*PGSIZE

/-- The whole pages between two addresses, in the order of the loop of `freerange`. -/
def pages (vstart vend : ℕ) : List ℕ :=
  (List.range ((vend-PGROUNDUP vstart)/PGSIZE)).map fun i => PGROUNDUP vstart+i*PGSIZE

def freerange (fin vstart vend : ℕ) (k : Kmem) : Option Kmem := (pages vstart vend).foldlM (fun k p => kfree fin p k) k

/-- The allocator with the pages it was given and those that callers have. -/
structure Sys where
  k : Kmem
  given : List ℕ
  out : List ℕ

inductive Action
  | freerange (vstart vend : ℕ)
  | kalloc
  | kfree (v : ℕ)
  | store (a x : ℕ)

/-- Callers free pages that they have, and store words outside the free pages. The allocator is
given memory between the kernel and `PHYSTOP` that it does not have yet. -/
def next (fin : ℕ) (s : Sys) : Action → Option Sys
  | .freerange vstart vend =>
    if fin ≤ vstart ∧ vend ≤ KERNBASE+PHYSTOP ∧ (∀ v ∈ pages vstart vend, v ∉ s.given) then
      (freerange fin vstart vend s.k).map fun k => ⟨k,pages vstart vend ++ s.given,s.out⟩
    else none
  | .kalloc =>
    let (r,k) := kalloc s.k
    some ⟨k,s.given,if r = 0 then s.out else r :: s.out⟩
  | .kfree v => if v ∈ s.out then (kfree fin v s.k).map fun k => ⟨k,s.given,s.out.erase v⟩ else none
  | .store a x =>
    if ∀ v ∈ s.given, v ≤ a → a < v+PGSIZE → v ∈ s.out then
      some { s with k := { s.k with word := update s.k.word a x } }
    else none

def Step (fin : ℕ) (s : Sys) (a : Action) (s' : Sys) : Prop := next fin s a = some s'

def boot (word : ℕ → ℕ) : Sys := ⟨⟨word,0⟩,[],[]⟩

section Lists
variable {fin v p vend : ℕ} {k k' : Kmem} {l : List ℕ}

def pointer (x : ℕ) : Option ℕ := if x = 0 then none else some x

/-- The free list leads through the pages `l`. -/
def Holds (k : Kmem) (l : List ℕ) : Prop := Linked (fun a => pointer (k.word a)) (pointer k.freelist) l

/-- A page that `kfree` accepts. -/
def Valid (fin v : ℕ) : Prop := v % PGSIZE = 0 ∧ fin ≤ v ∧ v-KERNBASE < PHYSTOP ∧ v ≠ 0

theorem Holds.congr (h : Holds k l) (hhead : k'.freelist = k.freelist) (hword : ∀ a ∈ l, k'.word a = k.word a) :
    Holds k' l := by
  unfold Holds
  rw [hhead]
  exact Linked.congr h fun a ha => by rw [hword a ha]

theorem Holds.alloc_cons (h : Holds k (v :: l)) : (kalloc k).1 = v ∧ v ≠ 0 ∧ Holds (kalloc k).2 l := by
  obtain ⟨hv,htail⟩ := h
  unfold pointer at hv
  split at hv
  · cases hv
  · rename_i hne
    cases hv
    refine ⟨rfl,hne,?_⟩
    simpa [kalloc,hne,Holds] using htail

theorem Holds.alloc_nil (h : Holds k []) : kalloc k = (0,k) := by
  have hzero : k.freelist = 0 := by
    by_contra hne
    simp [Holds,pointer,hne] at h
  simp [kalloc,hzero]

/-- Only the freed page is filled, and its first word becomes the link to the others. -/
theorem Holds.free (h : Holds k l) (hv : Valid fin v) (hl : ∀ u ∈ l, u % PGSIZE = 0) (hnew : v ∉ l) :
    ∃ k', kfree fin v k = some k' ∧ Holds k' (v :: l) := by
  obtain ⟨halign,hfin,htop,hne⟩ := hv
  refine ⟨_,if_neg (by omega),by simp [pointer,hne],?_⟩
  have hlink : Linked (fun a => pointer (k.word a)) (pointer k.freelist) l := h
  simp only [↓reduceIte]
  refine hlink.congr fun u hu => ?_
  have hualign := hl u hu
  have huv : u ≠ v := fun he => hnew (he ▸ hu)
  have hout : ¬ (v ≤ u ∧ u < v+PGSIZE) := by
    simp only [PGSIZE] at *
    omega
  simp [huv,hout]

theorem Holds.freeAll {ps : List ℕ} (h : Holds k l) (hps : ∀ p ∈ ps, Valid fin p) (hl : ∀ u ∈ l, u % PGSIZE = 0)
    (hnd : (ps.reverse ++ l).Nodup) : ∃ k', ps.foldlM (fun k p => kfree fin p k) k = some k' ∧ Holds k' (ps.reverse ++ l) := by
  induction ps generalizing k l with
  | nil => exact ⟨k,rfl,h⟩
  | cons p ps ih =>
    rw [List.reverse_cons,List.append_assoc] at hnd ⊢
    have hp : p ∉ l := (List.nodup_cons.mp (List.nodup_append.mp hnd).2.1).1
    obtain ⟨hvalid,hrest⟩ := List.forall_mem_cons.mp hps
    obtain ⟨k1,hfree,hk1⟩ := h.free hvalid hl hp
    obtain ⟨k2,hfold,hk2⟩ := ih hk1 hrest (List.forall_mem_cons.mpr ⟨hvalid.1,hl⟩) hnd
    exact ⟨k2,by rw [List.foldlM_cons,hfree]; exact hfold,hk2⟩

theorem pages_valid (hfin : KERNBASE ≤ fin) {vstart : ℕ} (hstart : fin ≤ vstart) (hend : vend ≤ KERNBASE+PHYSTOP)
    (hv : v ∈ pages vstart vend) : Valid fin v := by
  obtain ⟨i,hi,rfl⟩ := List.mem_map.mp hv
  have hi := List.mem_range.mp hi
  have hrange : fin ≤ PGROUNDUP vstart+i*PGSIZE ∧ PGROUNDUP vstart+i*PGSIZE < vend ∧
      (PGROUNDUP vstart+i*PGSIZE) % PGSIZE = 0 := by
    unfold PGROUNDUP PGSIZE at *
    omega
  have hle := hfin.trans hrange.1
  exact ⟨hrange.2.2,hrange.1,(Nat.sub_lt_iff_lt_add' hle).mpr (hrange.2.1.trans_le hend),
    Nat.ne_of_gt (Nat.lt_of_lt_of_le (by decide) hle)⟩

theorem pages_nodup (vstart vend : ℕ) : (pages vstart vend).Nodup :=
  List.nodup_range.map fun i j hij => Nat.eq_of_mul_eq_mul_right (by decide) (Nat.add_left_cancel hij)

end Lists

section Steps
variable {fin : ℕ} {s s' : Sys} {a : Action}

structure Conserved (fin : ℕ) (s : Sys) (l : List ℕ) : Prop where
  holds : Holds s.k l
  perm : (l ++ s.out).Perm s.given
  nodup : s.given.Nodup
  valid : ∀ v ∈ s.given, Valid fin v

variable {l : List ℕ}

theorem Conserved.mem (h : Conserved fin s l) {v : ℕ} (hv : v ∈ l) : v ∈ s.given :=
  h.perm.mem_iff.mp (List.mem_append_left _ hv)

theorem Conserved.aligned (h : Conserved fin s l) : ∀ v ∈ l, v % PGSIZE = 0 := fun v hv => (h.valid v (h.mem hv)).1

theorem Conserved.apart (h : Conserved fin s l) {v : ℕ} (hv : v ∈ l) : v ∉ s.out :=
  fun ho => (List.nodup_append.mp (h.perm.nodup_iff.mpr h.nodup)).2.2 v hv v ho rfl

theorem Conserved.free (h : Conserved fin s l) {v : ℕ} (hv : v ∈ s.out) :
    ∃ k, kfree fin v s.k = some k ∧ Conserved fin ⟨k,s.given,s.out.erase v⟩ (v :: l) := by
  obtain ⟨k,hk,hholds⟩ := h.holds.free (h.valid v (h.perm.mem_iff.mp (List.mem_append_right _ hv))) h.aligned
    (fun hl => h.apart hl hv)
  refine ⟨k,hk,hholds,?_,h.nodup,h.valid⟩
  exact (List.perm_middle.symm.trans ((List.perm_cons_erase hv).symm.append_left l)).trans h.perm

theorem Conserved.step (hfin : KERNBASE ≤ fin) (h : Conserved fin s l) (hstep : Step fin s a s') :
    ∃ l', Conserved fin s' l' := by
  cases a with
  | freerange vstart vend =>
    simp only [Step,next] at hstep
    split at hstep
    · rename_i hok
      obtain ⟨hstart,hend,hnew⟩ := hok
      have hvalid := fun v => pages_valid (v := v) hfin hstart hend
      have hnd := (List.nodup_reverse.mpr (pages_nodup vstart vend)).append (List.nodup_append.mp
        (h.perm.nodup_iff.mpr h.nodup)).1 fun v hv hl => hnew v (List.mem_reverse.mp hv) (h.mem hl)
      obtain ⟨k,hk,hholds⟩ := h.holds.freeAll hvalid h.aligned hnd
      rw [freerange,hk] at hstep
      cases hstep
      refine ⟨_,hholds,?_,(pages_nodup _ _).append h.nodup fun v hv => hnew v hv,fun v hv => ?_⟩
      · rw [List.append_assoc]
        exact (List.reverse_perm _).append h.perm
      · exact (List.mem_append.mp hv).elim (hvalid v) (h.valid v)
    · cases hstep
  | kalloc =>
    cases l with
    | nil =>
      simp only [Step,next,h.holds.alloc_nil,↓reduceIte] at hstep
      cases hstep
      exact ⟨[],h⟩
    | cons v l =>
      obtain ⟨hv,hne,hrest⟩ := h.holds.alloc_cons
      simp only [Step,next,hv,if_neg hne] at hstep
      cases hstep
      exact ⟨l,hrest,List.perm_middle.trans h.perm,h.nodup,h.valid⟩
  | kfree v =>
    simp only [Step,next] at hstep
    split at hstep
    · rename_i hv
      obtain ⟨k,hk,hfree⟩ := h.free hv
      rw [hk] at hstep
      cases hstep
      exact ⟨_,hfree⟩
    · cases hstep
  | store a x =>
    simp only [Step,next] at hstep
    split at hstep
    · rename_i hok
      cases hstep
      refine ⟨l,h.holds.congr rfl fun v hv => update_of_ne ?_ _ _,h.perm,h.nodup,h.valid⟩
      rintro rfl
      exact h.apart hv (hok v (h.mem hv) le_rfl (Nat.lt_add_of_pos_right (by decide)))
    · cases hstep

/-- Every page that the allocator was given is on the list or with a caller, and not both. `kalloc`
takes the first page of the list, which nobody has, and fails only when callers have all of them;
`kfree` takes back any page that a caller has, without a panic. -/
theorem pages_conserved {word : ℕ → ℕ} {t : List Action} (hfin : KERNBASE ≤ fin) (h : Run (Step fin) (boot word) t s) :
    ∃ l, Holds s.k l ∧ (l ++ s.out).Perm s.given ∧ s.given.Nodup ∧
      (match l with
        | [] => kalloc s.k = (0,s.k)
        | v :: l' => (kalloc s.k).1 = v ∧ Valid fin v ∧ v ∉ s.out ∧ Holds (kalloc s.k).2 l') ∧
      ∀ v ∈ s.out, ∃ k, kfree fin v s.k = some k ∧ Holds k (v :: l) := by
  have hinv : ∃ l, Conserved fin s l := by
    refine Run.invariant (I := fun _ s => ∃ l, Conserved fin s l) ⟨[],?_,.refl _,List.nodup_nil,by simp [boot]⟩ ?_ h
    · simp [Holds,pointer,boot]
    · rintro t u a v - ⟨l,hl⟩ hstep
      exact hl.step hfin hstep
  obtain ⟨l,hl⟩ := hinv
  refine ⟨l,hl.holds,hl.perm,hl.nodup,?_,fun v hv => ?_⟩
  · cases l with
    | nil => exact hl.holds.alloc_nil
    | cons v l =>
      obtain ⟨hv,_,hrest⟩ := hl.holds.alloc_cons
      exact ⟨hv,hl.valid v (hl.mem List.mem_cons_self),hl.apart List.mem_cons_self,hrest⟩
  · obtain ⟨k,hk,hfree⟩ := hl.free hv
    exact ⟨k,hk,hfree.holds⟩

/-- Two pages are given, one is allocated and written to. -/
theorem pages_conserved_two : ∃ s, Run (Step KERNBASE) (boot fun _ => 0)
      [.freerange KERNBASE (KERNBASE+2*PGSIZE),.kalloc,.store (KERNBASE+PGSIZE) 5] s ∧
    ∃ l, (l ++ [KERNBASE+PGSIZE]).Perm [KERNBASE,KERNBASE+PGSIZE] ∧
      ∃ k, kfree KERNBASE (KERNBASE+PGSIZE) s.k = some k ∧ Holds k ((KERNBASE+PGSIZE) :: l) := by
  obtain ⟨s,hs,hgiven,hout⟩ : ∃ s, List.foldlM (next KERNBASE) (boot fun _ => 0)
      [.freerange KERNBASE (KERNBASE+2*PGSIZE),.kalloc,.store (KERNBASE+PGSIZE) 5] = some s ∧
      s.given = [KERNBASE,KERNBASE+PGSIZE] ∧ s.out = [KERNBASE+PGSIZE] := ⟨_,rfl,rfl,rfl⟩
  have hrun := Run.of_foldlM hs
  obtain ⟨l,-,hperm,-,-,hfree⟩ := pages_conserved le_rfl hrun
  rw [hout,hgiven] at hperm
  exact ⟨s,hrun,l,hperm,hfree _ (by simp [hout])⟩

end Steps
end Xv6.Kalloc
