import Mathlib

/-! # Circular lists

A pointer leads from each node to the next one. In a circular list the pointer of the last node
leads back to the first; a loop that follows the pointers from any node comes past all others.
-/
namespace Xv6.CircularList
variable {ι : Type*} {next next' : ι → ι} {a b x y : ι} {l m : List ι}

def Follows (next : ι → ι) (l : List ι) : Prop := l.IsChain fun a b => next a = b

theorem follows_cons_cons : Follows next (a :: b :: l) ↔ next a = b ∧ Follows next (b :: l) :=
  List.isChain_cons_cons

theorem Follows.middle (h : Follows next m) (hl : l <:+: m) : Follows next l := List.IsChain.infix h hl

theorem Follows.congr (h : Follows next (l ++ [b])) (hl : ∀ x ∈ l, next' x = next x) : Follows next' (l ++ [b]) := by
  induction l with
  | nil => exact List.isChain_singleton b
  | cons a l ih =>
    have htail : Follows next' (l ++ [b]) :=
      ih (h.middle (List.suffix_cons a _).isInfix) fun x hx => hl x (by simp [hx])
    cases l with
    | nil =>
      rw [List.cons_append,List.nil_append,follows_cons_cons] at h ⊢
      exact ⟨(hl a (by simp)).trans h.1,htail⟩
    | cons c l =>
      simp only [List.cons_append,follows_cons_cons] at h ⊢
      exact ⟨(hl a (by simp)).trans h.1,htail⟩

theorem follows_append : Follows next (l ++ a :: m) ↔ Follows next (l ++ [a]) ∧ Follows next (a :: m) :=
  List.isChain_split

theorem Follows.succ (h : Follows next (l ++ [b])) (hx : x ∈ l) : ∃ A B, l ++ [b] = A ++ x :: next x :: B := by
  obtain ⟨A,B,rfl⟩ := List.append_of_mem hx
  cases B with
  | nil =>
    have hpair : Follows next [x,b] := h.middle ⟨A,[],by simp⟩
    refine ⟨A,[],?_⟩
    rw [(follows_cons_cons.mp hpair).1]
    simp
  | cons y B =>
    have hpair : Follows next [x,y] := h.middle ⟨A,B ++ [b],by simp⟩
    refine ⟨A,B ++ [b],?_⟩
    rw [(follows_cons_cons.mp hpair).1]
    simp

/-- A loop that steps along the pointers as long as it is not done comes to the last node. -/
theorem Follows.walk {ρ : Type*} {f : ℕ → ι → ρ} (h : Follows next (a :: l ++ [b]))
    (hskip : ∀ x ∈ a :: l, ∀ n, f (n+1) x = f n (next x)) (n : ℕ) : f (n+(l.length+1)) a = f n b := by
  induction l generalizing a with
  | nil =>
    have hab : next a = b := (follows_cons_cons.mp h).1
    rw [List.length_nil,hskip a (by simp) (n+0),hab]
    rfl
  | cons c l ih =>
    obtain ⟨hac,hl⟩ := follows_cons_cons.mp h
    have := ih hl fun x hx => hskip x (List.mem_cons_of_mem a hx)
    rw [List.length_cons,← Nat.add_assoc,hskip a (by simp),hac]
    exact this

theorem Follows.rotate (h : Follows next (a :: l ++ b :: m ++ [a])) : Follows next (b :: m ++ a :: l ++ [b]) := by
  have h1 : Follows next (b :: m ++ [a]) := h.middle ⟨a :: l,[],by simp⟩
  have h2 : Follows next (a :: (l ++ [b])) := h.middle ⟨[],m ++ [a],by simp⟩
  have : b :: m ++ a :: l ++ [b] = (b :: m) ++ a :: (l ++ [b]) := by simp
  rw [this]
  exact follows_append.mpr ⟨h1,h2⟩

/-- In a circular list without repetitions no two nodes point to the same node. -/
theorem Follows.injective (h : Follows next (a :: l ++ [a])) (hnodup : (a :: l).Nodup) (hx : x ∈ a :: l)
    (hy : y ∈ a :: l) (hxy : next x = next y) : x = y := by
  have hsucc : ∀ z ∈ a :: l, ∃ (i : ℕ) (hi : i < (a :: l).length), (a :: l)[i] = z ∧
      (l ++ [a])[i]? = some (next z) := by
    intro z hz
    obtain ⟨i,hi,hget⟩ := List.getElem_of_mem hz
    refine ⟨i,hi,hget,?_⟩
    have hchain := List.isChain_iff_getElem.mp h i (by simp at hi ⊢; omega)
    rw [List.getElem_append_left hi,hget] at hchain
    rw [hchain,List.getElem?_eq_getElem (by simpa using hi)]
    rfl
  obtain ⟨i,hi,hxi,hi'⟩ := hsucc x hx
  obtain ⟨j,hj,hyj,hj'⟩ := hsucc y hy
  have hrot : (l ++ [a]).Nodup := (List.perm_append_singleton a l).nodup_iff.mpr hnodup
  have hij : i = j := by
    rw [hxy,← hj'] at hi'
    have hlen : i < (l ++ [a]).length := by simpa using hi
    exact (List.getElem?_inj hlen hrot).mp hi'
  subst hij
  exact hxi.symm.trans hyj

end Xv6.CircularList
