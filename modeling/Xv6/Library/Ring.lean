import Xv6.Library.NodePool

/-! # Doubly linked rings

A ring has a head, written `none`, and nodes; every one of them has a pointer to the next and one to
the previous. `Seg` says that both pointers agree on a segment of the ring. Nodes are taken out
and put behind the head by single stores.
-/
namespace Xv6.LinkedRing
open NodePool Function
variable {α : Type*} [DecidableEq α]

structure Links (α : Type*) where
  next : Option α → Option α
  prev : Option α → Option α

namespace Links

def setNext (r : Links α) (p q : Option α) : Links α := { r with next := Function.update r.next p q }
def setPrev (r : Links α) (p q : Option α) : Links α := { r with prev := Function.update r.prev p q }

def clear (r : Links α) : Links α := (r.setPrev none none).setNext none none

def unlink (r : Links α) (b : α) : Links α :=
  let r := r.setPrev (r.next (some b)) (r.prev (some b))
  r.setNext (r.prev (some b)) (r.next (some b))

def linkFront (r : Links α) (b : α) : Links α :=
  let r := r.setNext (some b) (r.next none)
  let r := r.setPrev (some b) none
  let r := r.setPrev (r.next none) (some b)
  r.setNext none (some b)

end Links

/-- From `a` the next pointers lead over the nodes of the list to `b`, and the previous ones back. -/
def Seg (r : Links α) : Option α → List α → Option α → Prop
  | a, [], b => r.next a = b ∧ r.prev b = a
  | a, x :: l, b => r.next a = some x ∧ r.prev (some x) = a ∧ Seg r (some x) l b

structure Rep (r : Links α) (l : List α) : Prop where
  seg : Seg r none l none
  nodup : l.Nodup

variable {r r' : Links α} {a b : Option α} {l m : List α} {x y : α}

section Segments
omit [DecidableEq α]

theorem Seg.congr (h : Seg r a l b) (hnext : ∀ z, z = a ∨ z ∈ l.map some → r'.next z = r.next z)
    (hprev : ∀ z, z = b ∨ z ∈ l.map some → r'.prev z = r.prev z) : Seg r' a l b := by
  induction l generalizing a with
  | nil => exact ⟨(hnext a (.inl rfl)).trans h.1,(hprev b (.inl rfl)).trans h.2⟩
  | cons x l ih =>
    obtain ⟨hx,hback,hl⟩ := h
    refine ⟨(hnext a (.inl rfl)).trans hx,(hprev _ (by simp)).trans hback,ih hl ?_ ?_⟩
    · rintro z (rfl | hz)
      · exact hnext _ (by simp)
      · exact hnext z (.inr (List.mem_cons_of_mem _ hz))
    · rintro z (rfl | hz)
      · exact hprev z (.inl rfl)
      · exact hprev z (.inr (List.mem_cons_of_mem _ hz))

theorem seg_append : Seg r a (l ++ x :: m) b ↔ Seg r a l (some x) ∧ Seg r (some x) m b := by
  induction l generalizing a with
  | nil => exact and_assoc.symm
  | cons y l ih =>
    rw [List.cons_append,Seg,Seg,ih,and_assoc,and_assoc]

theorem Seg.first (h : Seg r a l b) : r.next a = b ∨ r.next a ∈ l.map some := by
  cases l with
  | nil => exact .inl h.1
  | cons x l =>
    rw [h.1]
    simp

theorem Seg.last (h : Seg r a l b) : r.prev b = a ∨ r.prev b ∈ l.map some := by
  induction l generalizing a with
  | nil => exact .inl h.2
  | cons x l ih =>
    rcases ih h.2.2 with hx | hmem
    · rw [hx]
      simp
    · exact .inr (List.mem_cons_of_mem _ hmem)

theorem Seg.linked (h : Seg r a l none) : Linked (fun i => r.next (some i)) (r.next a) l := by
  induction l generalizing a with
  | nil => exact h.1
  | cons x l ih => exact ⟨h.1,ih h.2.2⟩

/-- Seen backwards, the pointers change their roles. -/
theorem Seg.reverse (h : Seg r a l b) : Seg ⟨r.prev,r.next⟩ b l.reverse a := by
  induction l generalizing a with
  | nil => exact ⟨h.2,h.1⟩
  | cons x l ih =>
    rw [List.reverse_cons,seg_append]
    exact ⟨ih h.2.2,h.2.1,h.1⟩

/-- The next pointers visit the nodes of the ring, and the previous pointers visit them in reverse. -/
theorem Rep.linked (h : Rep r l) : Linked (fun i => r.next (some i)) (r.next none) l ∧
    Linked (fun i => r.prev (some i)) (r.prev none) l.reverse := ⟨h.seg.linked,h.seg.reverse.linked⟩

/-- A segment whose last edge is led to another segment. -/
theorem Seg.redirect (h : Seg r a l (some x)) (ha : a ∉ l.map some) (hnd : l.Nodup)
    (hnext : ∀ z, z ≠ r.prev (some x) → r'.next z = r.next z)
    (hprev : ∀ z ∈ l.map some, r'.prev z = r.prev z) (hm : Seg r' (r.prev (some x)) m b) : Seg r' a (l ++ m) b := by
  induction l generalizing a with
  | nil =>
    rw [h.2] at hm
    exact hm
  | cons y l ih =>
    obtain ⟨hy,hback,hl⟩ := h
    have hne : a ≠ r.prev (some x) := by
      rintro rfl
      rcases hl.last with he | hmem
      · exact ha (by simp [he])
      · exact ha (List.mem_cons_of_mem _ hmem)
    obtain ⟨hyl,hnd⟩ := List.nodup_cons.mp hnd
    refine ⟨(hnext a hne).trans hy,(hprev _ (by simp)).trans hback,ih hl (by simpa using hyl) hnd fun z hz => ?_⟩
    exact hprev z (List.mem_cons_of_mem _ hz)

end Segments

section Operations

theorem Rep.clear (r : Links α) : Rep r.clear [] :=
  ⟨⟨by simp [Links.clear,Links.setNext],by simp [Links.clear,Links.setNext,Links.setPrev]⟩,List.nodup_nil⟩

theorem Rep.linkFront (h : Rep r l) (hx : x ∉ l) : Rep (r.linkFront x) (x :: l) := by
  refine ⟨?_,List.nodup_cons.mpr ⟨hx,h.nodup⟩⟩
  have hfirst : r.next none ≠ some x := by
    rcases h.seg.first with he | hmem
    · simp [he]
    · rintro he
      rw [he] at hmem
      exact hx (by simpa using hmem)
  have hnext : (r.linkFront x).next = update (update r.next (some x) (r.next none)) none (some x) := by
    simp [Links.linkFront,Links.setNext,Links.setPrev]
  have hprev : (r.linkFront x).prev = update (update r.prev (some x) none) (r.next none) (some x) := by
    simp [Links.linkFront,Links.setNext,Links.setPrev]
  refine ⟨by simp [hnext],by simp [hprev,hfirst.symm],?_⟩
  cases l with
  | nil =>
    have hnone : r.next none = none := h.seg.1
    exact ⟨by simp [hnext,hnone],by simp [hprev,hnone]⟩
  | cons y l =>
    obtain ⟨hy,-,hl⟩ := h.seg
    obtain ⟨hyl,-⟩ := List.nodup_cons.mp h.nodup
    refine ⟨by simp [hnext,hy],by simp [hprev,hy],hl.congr ?_ ?_⟩
    · intro z hz
      have hzx : z ≠ some x := by
        rintro rfl
        exact hx (by simpa [eq_comm] using hz)
      have hzn : z ≠ none := by
        rintro rfl
        simp at hz
      rw [hnext,update_of_ne hzn,update_of_ne hzx]
    · intro z hz
      have hzx : z ≠ some x := by
        rintro rfl
        exact hx (List.mem_cons_of_mem _ (by simpa using hz))
      have hzy : z ≠ some y := by
        rintro rfl
        exact hyl (by simpa using hz)
      rw [hprev,hy,update_of_ne hzy,update_of_ne hzx]

theorem Rep.unlink (h : Rep r (l ++ x :: m)) : Rep (r.unlink x) (l ++ m) := by
  obtain ⟨hl,hm⟩ := seg_append.mp h.seg
  obtain ⟨hnl,hnm,hdis⟩ := List.nodup_append.mp h.nodup
  obtain ⟨hxm,hnm⟩ := List.nodup_cons.mp hnm
  have hxl : x ∉ l := fun hx => hdis x hx x List.mem_cons_self rfl
  have hself : r.next (some x) ≠ some x := by
    rcases hm.first with he | hmem
    · simp [he]
    · rintro he
      rw [he] at hmem
      exact hxm (by simpa using hmem)
  have hnext : (r.unlink x).next = update r.next (r.prev (some x)) (r.next (some x)) := by
    simp [Links.unlink,Links.setNext,Links.setPrev,hself.symm]
  have hprev : (r.unlink x).prev = update r.prev (r.next (some x)) (r.prev (some x)) := by
    simp [Links.unlink,Links.setNext,Links.setPrev]
  have hfirst : ∀ z ∈ l.map some, z ≠ r.next (some x) := by
    rintro z hz rfl
    rcases hm.first with he | hmem
    · simp [he] at hz
    · obtain ⟨y,hy,he⟩ := List.mem_map.mp hz
      rw [← he] at hmem
      exact hdis y hy y (List.mem_cons_of_mem _ (by simpa using hmem)) rfl
  refine ⟨hl.redirect (by simp) hnl (fun z hz => ?_) (fun z hz => ?_) ?_,?_⟩
  · rw [hnext,update_of_ne hz]
  · rw [hprev,update_of_ne (hfirst z hz)]
  · cases m with
    | nil =>
      have hend : r.next (some x) = none := hm.1
      exact ⟨by simp [hnext,hend],by simp [hprev,hend]⟩
    | cons y m =>
      obtain ⟨hy,-,hm⟩ := hm
      obtain ⟨hym,-⟩ := List.nodup_cons.mp hnm
      refine ⟨by simp [hnext,hy],by simp [hprev,hy],hm.congr ?_ ?_⟩
      · intro z hz
        have hne : z ≠ r.prev (some x) := by
          rintro rfl
          have hmem : r.prev (some x) ∈ (y :: m).map some := by simpa using hz
          obtain ⟨w,hw,he⟩ := List.mem_map.mp hmem
          rcases hl.last with hnone | hback
          · rw [hnone] at he
            cases he
          · rw [← he] at hback
            exact hdis w (by simpa using hback) w (List.mem_cons_of_mem _ hw) rfl
        rw [hnext,update_of_ne hne]
      · intro z hz
        have hne : z ≠ some y := by
          rintro rfl
          exact hym (by simpa using hz)
        rw [hprev,hy,update_of_ne hne]
  · exact List.nodup_append.mpr ⟨hnl,hnm,fun y hy z hz => hdis y hy z (List.mem_cons_of_mem _ hz)⟩

/-- A node that is taken out and put behind the head again comes first; the others keep their order. -/
theorem Rep.moveFront (h : Rep r l) (hx : x ∈ l) : Rep ((r.unlink x).linkFront x) (x :: l.erase x) := by
  obtain ⟨l₁,l₂,rfl⟩ := List.append_of_mem hx
  have hx₁ : x ∉ l₁ := fun hmem => (List.nodup_append.mp h.nodup).2.2 x hmem x List.mem_cons_self rfl
  rw [List.erase_append_right _ hx₁,List.erase_cons_head]
  refine h.unlink.linkFront fun hmem => ?_
  rcases List.mem_append.mp hmem with hmem | hmem
  · exact hx₁ hmem
  · exact (List.nodup_cons.mp (List.nodup_append.mp h.nodup).2.1).1 hmem

end Operations
end Xv6.LinkedRing
