import Xv6.Param
import Xv6.Library.Ring
import Xv6.Library.Runs

/-! # The list of buffers

The buffers are linked in a ring by hand. `bget` searches it in both directions, `brelse` moves a
buffer that nobody refers to any more behind the head. The calls are cut at the sections that
`bcache.lock` protects, and the sections of all processes interleave.
-/
namespace Xv6.Bio.BufferList
open LinkedRing NodePool Runs Function

abbrev Word := BitVec 32

structure Bcache where
  links : Links (Fin NBUF)
  dev : Fin NBUF → Word
  blockno : Fin NBUF → Word
  refcnt : Fin NBUF → ℕ
  dirty : Fin NBUF → Bool

section Code

def binit (r : Links (Fin NBUF)) : Links (Fin NBUF) := (List.finRange NBUF).foldl Links.linkFront r.clear

def scan (link : Option (Fin NBUF) → Option (Fin NBUF)) (test : Fin NBUF → Bool) :
    ℕ → Option (Fin NBUF) → Option (Option (Fin NBUF))
  | _, none => some none
  | 0, some _ => none
  | fuel+1, some b => if test b then some (some b) else scan link test fuel (link (some b))

def Bcache.cached (c : Bcache) (dev blockno : Word) (b : Fin NBUF) : Bool := c.dev b = dev && c.blockno b = blockno
def Bcache.unused (c : Bcache) (b : Fin NBUF) : Bool := c.refcnt b = 0 && !c.dirty b

def bget (c : Bcache) (dev blockno : Word) : Option (Fin NBUF × Bcache) := do
  match ← scan c.links.next (c.cached dev blockno) NBUF (c.links.next none) with
  | some b => some (b,{ c with refcnt := Function.update c.refcnt b (c.refcnt b+1) })
  | none =>
    match ← scan c.links.prev c.unused NBUF (c.links.prev none) with
    | some b => some (b,{ c with
        dev := Function.update c.dev b dev
        blockno := Function.update c.blockno b blockno
        dirty := Function.update c.dirty b false
        refcnt := Function.update c.refcnt b 1 })
    | none => none

def brelse (c : Bcache) (b : Fin NBUF) : Bcache :=
  let c := { c with refcnt := Function.update c.refcnt b (c.refcnt b-1) }
  if c.refcnt b = 0 then { c with links := (c.links.unlink b).linkFront b } else c

end Code

section System

/-- The cache with the processes at each buffer: those that wait for its sleep lock after `bget`, the one that has
it, and those in `brelse` that have given it up. `released` is the time of the last transition to `refcnt` 0. -/
structure Sys where
  cache : Bcache
  waiting : Fin NBUF → ℕ
  locked : Fin NBUF → Bool
  leaving : Fin NBUF → ℕ
  released : Fin NBUF → ℕ
  clock : ℕ

inductive Action
  | bget (dev blockno : Word)
  | acquiresleep (b : Fin NBUF)
  | releasesleep (b : Fin NBUF)
  | brelse (b : Fin NBUF)
  /-- The disk driver, `bwrite` or `log_write` sets or clears `B_DIRTY`. -/
  | flags (b : Fin NBUF) (dirty : Bool)

def Sys.stamps (s : Sys) (b : Fin NBUF) : Fin NBUF → ℕ :=
  if s.cache.refcnt b = 1 then Function.update s.released b (s.clock+1) else s.released

def next (s : Sys) : Action → Option Sys
  | .bget dev blockno => (bget s.cache dev blockno).map fun (b,c) =>
    { s with cache := c, waiting := Function.update s.waiting b (s.waiting b+1), clock := s.clock+1 }
  | .acquiresleep b => if 0 < s.waiting b ∧ s.locked b = false then
      some { s with waiting := Function.update s.waiting b (s.waiting b-1), locked := Function.update s.locked b true }
    else none
  | .releasesleep b => if s.locked b = true then
      some { s with locked := Function.update s.locked b false, leaving := Function.update s.leaving b (s.leaving b+1) }
    else none
  | .brelse b => if 0 < s.leaving b then
      some { s with
        cache := brelse s.cache b, leaving := Function.update s.leaving b (s.leaving b-1)
        released := s.stamps b, clock := s.clock+1 }
    else none
  | .flags b dirty => some { s with cache := { s.cache with dirty := Function.update s.cache.dirty b dirty } }

def Step (s : Sys) (a : Action) (t : Sys) : Prop := next s a = some t

def start (r : Links (Fin NBUF)) : Sys :=
  ⟨⟨binit r,fun _ => 0,fun _ => 0,fun _ => 0,fun _ => false⟩,fun _ => 0,fun _ => false,fun _ => 0,fun _ => 0,0⟩

end System

section Invariant

theorem rep_binit (r : Links (Fin NBUF)) : Rep (binit r) (List.finRange NBUF).reverse := by
  have hfold : ∀ (l m : List (Fin NBUF)) (r : Links (Fin NBUF)), Rep r m → l.Nodup → (∀ x ∈ l, x ∉ m) →
      Rep (l.foldl Links.linkFront r) (l.reverse ++ m) := by
    intro l
    induction l with
    | nil => exact fun m r h _ _ => h
    | cons x l ih =>
      intro m r h hl hdis
      obtain ⟨hx,hl⟩ := List.nodup_cons.mp hl
      rw [List.foldl_cons,List.reverse_cons,List.append_assoc]
      refine ih (x :: m) _ (h.linkFront (hdis x List.mem_cons_self)) hl fun y hy hmem => ?_
      rcases List.mem_cons.mp hmem with rfl | hmem
      · exact hx hy
      · exact hdis y (List.mem_cons_of_mem _ hy) hmem
  have := hfold (List.finRange NBUF) [] r.clear (.clear r) (List.nodup_finRange _) (by simp)
  rwa [List.append_nil] at this

theorem scan_eq {link : Option (Fin NBUF) → Option (Fin NBUF)} {test : Fin NBUF → Bool} {p : Option (Fin NBUF)}
    {l : List (Fin NBUF)} {fuel : ℕ} (hl : Linked (fun b => link (some b)) p l) (hlen : l.length ≤ fuel) :
    scan link test fuel p = some (l.find? test) := by
  induction l generalizing p fuel with
  | nil =>
    rw [linked_nil.mp hl]
    cases fuel <;> rfl
  | cons b l ih =>
    obtain ⟨rfl,hl⟩ := hl
    cases fuel with
    | zero => simp at hlen
    | succ fuel =>
      rw [scan,List.find?_cons]
      cases test b with
      | true => rfl
      | false => exact ih hl (by simpa using hlen)

def Newer (released : Fin NBUF → ℕ) (i j : Fin NBUF) : Prop :=
  released j < released i ∨ released i = 0 ∧ released j = 0

structure Ordered (s : Sys) (l : List (Fin NBUF)) : Prop where
  rep : Rep s.cache.links l
  all : ∀ b, b ∈ l
  sorted : l.Pairwise (Newer s.released)
  past : ∀ b, s.released b ≤ s.clock
  refs : ∀ b, s.cache.refcnt b = s.waiting b+(s.locked b).toNat+s.leaving b

variable {s t : Sys} {l : List (Fin NBUF)} {c : Bcache} {b : Fin NBUF} {dev blockno : Word}

theorem Ordered.length_le (h : Ordered s l) : l.length ≤ NBUF := by
  have := Linked.length_le h.rep.nodup
  rwa [Fintype.card_fin] at this

theorem Ordered.bget_eq (h : Ordered s l) : bget s.cache dev blockno =
    match l.find? (s.cache.cached dev blockno) with
    | some b => some (b,{ s.cache with refcnt := Function.update s.cache.refcnt b (s.cache.refcnt b+1) })
    | none => (l.reverse.find? s.cache.unused).map fun b => (b,{ s.cache with
        dev := Function.update s.cache.dev b dev
        blockno := Function.update s.cache.blockno b blockno
        dirty := Function.update s.cache.dirty b false
        refcnt := Function.update s.cache.refcnt b 1 }) := by
  obtain ⟨hnext,hprev⟩ := h.rep.linked
  unfold bget
  rw [scan_eq hnext h.length_le,scan_eq hprev (by rw [List.length_reverse]; exact h.length_le)]
  change (match l.find? (s.cache.cached dev blockno) with | some b => _ | none => _) = _
  cases l.find? (s.cache.cached dev blockno) with
  | some b => rfl
  | none =>
    change (match l.reverse.find? s.cache.unused with | some b => _ | none => _) = _
    cases l.reverse.find? s.cache.unused with
    | some b => rfl
    | none => rfl

/-- The section of `bget` leaves the ring alone and takes one reference. -/
theorem Ordered.bget_refs (h : Ordered s l) (hget : bget s.cache dev blockno = some (b,c)) :
    c.links = s.cache.links ∧ c.refcnt = Function.update s.cache.refcnt b (s.cache.refcnt b+1) := by
  rw [h.bget_eq] at hget
  split at hget
  · cases hget
    exact ⟨rfl,rfl⟩
  · obtain ⟨i,hi,hpair⟩ := Option.map_eq_some_iff.mp hget
    cases hpair
    have hunused := List.find?_some hi
    simp only [Bcache.unused,Bool.and_eq_true,decide_eq_true_eq] at hunused
    rw [hunused.1]
    exact ⟨rfl,rfl⟩

theorem refcnt_brelse (c : Bcache) (b : Fin NBUF) :
    (brelse c b).refcnt = Function.update c.refcnt b (c.refcnt b-1) := by
  unfold brelse
  dsimp only
  split <;> rfl

/-- A buffer that is released comes to the front with the latest time. -/
theorem pairwise_moveFront {released : Fin NBUF → ℕ} {n : ℕ} (hs : l.Pairwise (Newer released)) (hnd : l.Nodup)
    (hpast : ∀ i, released i ≤ n) :
    (b :: l.erase b).Pairwise (Newer (Function.update released b (n+1))) := by
  have hne : ∀ i ∈ l.erase b, i ≠ b := fun i hi => (hnd.mem_erase_iff.mp hi).1
  refine List.pairwise_cons.mpr ⟨fun i hi => .inl ?_,?_⟩
  · rw [update_of_ne (hne i hi),update_self]
    have := hpast i
    omega
  · refine (hs.sublist (List.erase_sublist)).imp_of_mem fun {i j} hi hj hij => ?_
    unfold Newer
    rw [update_of_ne (hne i hi),update_of_ne (hne j hj)]
    exact hij

theorem Ordered.step {a : Action} (h : Ordered s l) (hstep : Step s a t) : ∃ l', Ordered t l' := by
  unfold Step at hstep
  cases a with
  | bget dev blockno =>
    obtain ⟨⟨b,c⟩,hget,rfl⟩ := Option.map_eq_some_iff.mp hstep
    obtain ⟨hlinks,hrefs⟩ := h.bget_refs hget
    refine ⟨l,hlinks ▸ h.rep,h.all,h.sorted,fun i => (h.past i).trans (Nat.le_succ _),fun i => ?_⟩
    have hi := h.refs i
    dsimp only
    rw [hrefs]
    rcases eq_or_ne i b with rfl | he
    · simp only [update_self]
      omega
    · simpa only [update_of_ne he] using hi
  | acquiresleep b =>
    rw [next] at hstep
    split at hstep
    · rename_i hcan
      cases hstep
      refine ⟨l,h.rep,h.all,h.sorted,h.past,fun i => ?_⟩
      have hi := h.refs i
      dsimp only
      rcases eq_or_ne i b with rfl | he
      · rw [hcan.2] at hi
        simp only [update_self,Bool.toNat_true,Bool.toNat_false] at hi ⊢
        omega
      · simpa only [update_of_ne he] using hi
    · cases hstep
  | releasesleep b =>
    rw [next] at hstep
    split at hstep
    · rename_i hcan
      cases hstep
      refine ⟨l,h.rep,h.all,h.sorted,h.past,fun i => ?_⟩
      have hi := h.refs i
      dsimp only
      rcases eq_or_ne i b with rfl | he
      · rw [hcan] at hi
        simp only [update_self,Bool.toNat_true,Bool.toNat_false] at hi ⊢
        omega
      · simpa only [update_of_ne he] using hi
    · cases hstep
  | brelse b =>
    rw [next] at hstep
    split at hstep
    · rename_i hcan
      cases hstep
      have hb := h.refs b
      have hrefs : ∀ i, (brelse s.cache b).refcnt i =
          s.waiting i+(s.locked i).toNat+update s.leaving b (s.leaving b-1) i := by
        intro i
        have hi := h.refs i
        rw [refcnt_brelse]
        rcases eq_or_ne i b with rfl | he
        · simp only [update_self]
          omega
        · simpa only [update_of_ne he] using hi
      by_cases hlast : s.cache.refcnt b = 1
      · -- The last reference: the buffer moves, and its time is now.
        have hlinks : (brelse s.cache b).links = (s.cache.links.unlink b).linkFront b := by
          simp [brelse,hlast]
        have hstamps : s.stamps b = update s.released b (s.clock+1) := if_pos hlast
        refine ⟨b :: l.erase b,?_,fun i => ?_,?_,fun i => ?_,hrefs⟩
        · rw [hlinks]
          exact h.rep.moveFront (h.all b)
        · by_cases he : i = b
          · rw [he]
            exact List.mem_cons_self
          · exact List.mem_cons_of_mem _ ((List.mem_erase_of_ne he).mpr (h.all i))
        · dsimp only
          rw [hstamps]
          exact pairwise_moveFront h.sorted h.rep.nodup h.past
        · dsimp only
          rw [hstamps]
          by_cases he : i = b
          · rw [he,update_self]
          · rw [update_of_ne he]
            exact (h.past i).trans (Nat.le_succ _)
      · have hlinks : (brelse s.cache b).links = s.cache.links := by
          have : s.cache.refcnt b-1 ≠ 0 := by omega
          simp [brelse,this]
        have hstamps : s.stamps b = s.released := if_neg hlast
        refine ⟨l,?_,h.all,?_,fun i => ?_,hrefs⟩
        · rw [hlinks]
          exact h.rep
        · dsimp only
          rw [hstamps]
          exact h.sorted
        · dsimp only
          rw [hstamps]
          exact (h.past i).trans (Nat.le_succ _)
    · cases hstep
  | flags b dirty =>
    cases hstep
    exact ⟨l,h.rep,h.all,h.sorted,h.past,h.refs⟩

theorem ordered_start (r : Links (Fin NBUF)) : Ordered (start r) (List.finRange NBUF).reverse where
  rep := rep_binit r
  all b := List.mem_reverse.mpr (List.mem_finRange b)
  sorted := List.pairwise_of_forall fun _ _ => .inr ⟨rfl,rfl⟩
  past _ := le_rfl
  refs _ := rfl

theorem ordered_run {r : Links (Fin NBUF)} {as : List Action} (h : Run Step (start r) as s) : ∃ l, Ordered s l :=
  h.invariant (I := fun _ s => ∃ l, Ordered s l) ⟨_,ordered_start r⟩ fun _ _ _ _ _ ⟨_,hl⟩ hstep => hl.step hstep

end Invariant

section Recency
variable {s : Sys} {r : Links (Fin NBUF)} {as : List Action}

def Visited (r : Links (Fin NBUF)) : Prop := ∃ l : List (Fin NBUF), l.Nodup ∧ (∀ b, b ∈ l) ∧
  Linked (fun b => r.next (some b)) (r.next none) l ∧ Linked (fun b => r.prev (some b)) (r.prev none) l.reverse

def Oldest (s : Sys) (b : Fin NBUF) : Prop := s.cache.unused b = true ∧
  ∀ j, j ≠ b → s.cache.unused j = true → Newer s.released j b

theorem Ordered.oldest {l : List (Fin NBUF)} {b : Fin NBUF} (h : Ordered s l)
    (hb : l.reverse.find? s.cache.unused = some b) : Oldest s b := by
  refine ⟨List.find?_some hb,fun j hj hunused => ?_⟩
  obtain ⟨-,A,B,hsplit,hA⟩ := List.find?_eq_some_iff_append.mp hb
  have hl : l = B.reverse ++ b :: A.reverse := by
    rw [← List.reverse_reverse l,hsplit]
    simp
  have hsorted := h.sorted
  have hmem := h.all j
  rw [hl] at hsorted hmem
  rcases List.mem_append.mp hmem with hmem | hmem
  · exact (List.pairwise_append.mp hsorted).2.2 j hmem b List.mem_cons_self
  · rcases List.mem_cons.mp hmem with rfl | hmem
    · exact absurd rfl hj
    · have := hA j (List.mem_reverse.mp hmem)
      rw [hunused] at this
      cases this

/-- In every run the ring is intact, and a block that is not cached gets the buffer released longest ago. -/
theorem buffers_in_order (hrun : Run Step (start r) as s) : Visited s.cache.links ∧
    ∀ dev blockno b c, bget s.cache dev blockno = some (b,c) → (∀ i, s.cache.cached dev blockno i = false) →
      Oldest s b := by
  obtain ⟨l,hl⟩ := ordered_run hrun
  refine ⟨⟨l,hl.rep.nodup,hl.all,hl.rep.linked⟩,fun dev blockno b c hget hnone => ?_⟩
  have hmissing : l.find? (s.cache.cached dev blockno) = none :=
    List.find?_eq_none.mpr fun i _ => by simp [hnone i]
  rw [hl.bget_eq,hmissing] at hget
  obtain ⟨i,hi,hpair⟩ := Option.map_eq_some_iff.mp hget
  cases hpair
  exact hl.oldest hi

/-- Three blocks are read while the other buffers are dirty, and the second of them is released first. -/
def threeBlocks : List Action :=
  ((List.finRange NBUF).drop 3).map (Action.flags · true) ++ [.bget 1 1,.bget 1 2,.bget 1 3] ++
    [1,0,2].flatMap fun b => [.acquiresleep b,.releasesleep b,.brelse b]

theorem buffers_in_order_threeBlocks : ∃ s c, Run Step (start ⟨id,id⟩) threeBlocks s ∧ bget s.cache 1 9 = some (1,c) ∧
    s.released 1 < s.released 0 ∧ s.released 0 < s.released 2 ∧ Oldest s 1 := by
  obtain ⟨s,hs,hend⟩ : ∃ s, threeBlocks.foldlM next (start ⟨id,id⟩) = some s ∧
      (decide ((bget s.cache 1 9).map Prod.fst = some 1) && decide (s.released 1 < s.released 0) &&
        decide (s.released 0 < s.released 2) && decide (∀ i, s.cache.cached 1 9 i = false)) = true := by
    rw [← Option.any_eq_true]
    decide +kernel
  simp only [Bool.and_eq_true,decide_eq_true_eq,and_assoc] at hend
  obtain ⟨hget,h1,h2,hnone⟩ := hend
  obtain ⟨⟨b,c⟩,hget,rfl⟩ := Option.map_eq_some_iff.mp hget
  have hrun := Run.of_foldlM hs
  exact ⟨s,c,hrun,hget,h1,h2,(buffers_in_order hrun).2 1 9 _ c hget hnone⟩

end Recency
end Xv6.Bio.BufferList
