import Mathlib

/-! # Blocks that tile regions of memory

A block is its first address and its length. Blocks tile some regions if no two of them
overlap and together they cover exactly the addresses of the regions.
-/
namespace Xv6.Tiling

abbrev Block := ℕ × ℕ

def Apart (b c : Block) : Prop := b.1+b.2 ≤ c.1 ∨ c.1+c.2 ≤ b.1

theorem Apart.symm {b c : Block} (h : Apart b c) : Apart c b := Or.symm h

instance : Std.Symm Apart := ⟨fun _ _ => Apart.symm⟩

def Covers (bs : List Block) (x : ℕ) : Prop := ∃ b ∈ bs, b.1 ≤ x ∧ x < b.1+b.2

theorem covers_cons {b : Block} {bs : List Block} {x : ℕ} :
    Covers (b :: bs) x ↔ (b.1 ≤ x ∧ x < b.1+b.2) ∨ Covers bs x := by
  simp [Covers]

structure Tiles (blocks regions : List Block) : Prop where
  pos : ∀ b ∈ blocks, 0 < b.2
  apart : blocks.Pairwise Apart
  cover : ∀ x, Covers blocks x ↔ Covers regions x

variable {a m n top : ℕ} {b c : Block} {bs bs' rs : List Block}

theorem tiles_nil : Tiles [] [] := ⟨by simp,List.Pairwise.nil,fun _ => Iff.rfl⟩

theorem Tiles.perm (h : Tiles bs rs) (hp : bs.Perm bs') : Tiles bs' rs := by
  refine ⟨fun b hb => h.pos b (hp.mem_iff.mpr hb),(hp.pairwise_iff Apart.symm).mp h.apart,fun x => ?_⟩
  rw [← h.cover x]
  exact exists_congr fun b => and_congr_left' hp.mem_iff.symm

theorem Tiles.join (h : Tiles ((a,m) :: (a+m,n) :: bs) rs) : Tiles ((a,m+n) :: bs) rs := by
  obtain ⟨ha,hrest⟩ := List.pairwise_cons.mp h.apart
  obtain ⟨hb,hbs⟩ := List.pairwise_cons.mp hrest
  have hm := h.pos (a,m) (by simp)
  have hn := h.pos (a+m,n) (by simp)
  refine ⟨?_,List.pairwise_cons.mpr ⟨fun c hc => ?_,hbs⟩,fun x => ?_⟩
  · intro c hc
    rcases List.mem_cons.mp hc with rfl | hc
    · exact Nat.add_pos_left hm n
    · exact h.pos c (by simp [hc])
  · have h1 := ha c (by simp [hc])
    have h2 := hb c hc
    have hpos := h.pos c (by simp [hc])
    simp only [Apart] at h1 h2 ⊢
    omega
  · rw [← h.cover x]
    simp only [covers_cons]
    constructor
    · rintro (hx | hx)
      · by_cases hlt : x < a+m
        · exact .inl ⟨hx.1,hlt⟩
        · exact .inr (.inl ⟨Nat.not_lt.mp hlt,by omega⟩)
      · exact .inr (.inr hx)
    · rintro (hx | hx | hx)
      · exact .inl ⟨hx.1,by omega⟩
      · exact .inl ⟨by omega,by omega⟩
      · exact .inr hx

theorem Tiles.cut (h : Tiles ((a,m+n) :: bs) rs) (hm : 0 < m) (hn : 0 < n) :
    Tiles ((a,m) :: (a+m,n) :: bs) rs := by
  obtain ⟨ha,hbs⟩ := List.pairwise_cons.mp h.apart
  refine ⟨?_,List.pairwise_cons.mpr ⟨fun c hc => ?_,List.pairwise_cons.mpr ⟨fun c hc => ?_,hbs⟩⟩,fun x => ?_⟩
  · intro c hc
    simp only [List.mem_cons] at hc
    rcases hc with rfl | rfl | hc
    · exact hm
    · exact hn
    · exact h.pos c (by simp [hc])
  · rcases List.mem_cons.mp hc with rfl | hc
    · exact .inl le_rfl
    · have := ha c hc
      simp only [Apart] at this ⊢
      omega
  · have := ha c hc
    simp only [Apart] at this ⊢
    omega
  · rw [← h.cover x]
    simp only [covers_cons]
    constructor
    · rintro (hx | hx | hx)
      · exact .inl ⟨hx.1,by omega⟩
      · exact .inl ⟨by omega,by omega⟩
      · exact .inr hx
    · rintro (hx | hx)
      · by_cases hlt : x < a+m
        · exact .inl ⟨hx.1,hlt⟩
        · exact .inr (.inl ⟨Nat.not_lt.mp hlt,by omega⟩)
      · exact .inr (.inr hx)

theorem Tiles.le_top (h : Tiles bs rs) (hrs : ∀ r ∈ rs, r.1+r.2 ≤ top) (hb : b ∈ bs) : b.1+b.2 ≤ top := by
  have hpos := h.pos b hb
  obtain ⟨r,hr,_,hlt⟩ := (h.cover (b.1+b.2-1)).mp ⟨b,hb,by omega,by omega⟩
  have := hrs r hr
  omega

theorem Tiles.lt_start (h : Tiles bs rs) (hrs : ∀ r ∈ rs, a < r.1) (hb : b ∈ bs) : a < b.1 := by
  have hpos := h.pos b hb
  obtain ⟨r,hr,hle,_⟩ := (h.cover b.1).mp ⟨b,hb,le_rfl,by omega⟩
  have := hrs r hr
  omega

theorem Tiles.grow (h : Tiles bs rs) (hrs : ∀ r ∈ rs, r.1+r.2 ≤ a) (hn : 0 < n) :
    Tiles ((a,n) :: bs) ((a,n) :: rs) := by
  refine ⟨?_,List.pairwise_cons.mpr ⟨fun c hc => .inr (h.le_top hrs hc),h.apart⟩,fun x => ?_⟩
  · intro c hc
    rcases List.mem_cons.mp hc with rfl | hc
    · exact hn
    · exact h.pos c hc
  · rw [covers_cons,covers_cons,h.cover x]

section Separate

def Separate (bs : List Block) : Prop := bs.Pairwise fun b c => b.1+b.2 < c.1

def joinUp (b : Block) : List Block → List Block
  | [] => [b]
  | c :: bs => if b.1+b.2 = c.1 then (b.1,b.2+c.2) :: bs else b :: c :: bs

def joinDown (lo : List Block) (b : Block) : List Block :=
  match lo.getLast? with
  | none => [b]
  | some c => if c.1+c.2 = b.1 then lo.dropLast ++ [(c.1,c.2+b.2)] else lo ++ [b]

theorem Tiles.joinUp (h : Tiles (b :: bs ++ bs') rs) : Tiles (joinUp b bs ++ bs') rs := by
  cases bs with
  | nil => exact h
  | cons c bs =>
    rw [Tiling.joinUp]
    split
    · rename_i hc
      obtain ⟨a,m⟩ := b
      obtain ⟨_,n⟩ := c
      subst hc
      exact h.join
    · exact h

theorem Tiles.joinDown {lo : List Block} (h : Tiles (lo ++ b :: bs) rs) : Tiles (joinDown lo b ++ bs) rs := by
  rw [Tiling.joinDown]
  split
  · rename_i hlo
    rw [List.getLast?_eq_none_iff.mp hlo] at h
    exact h
  · rename_i c hlo
    obtain ⟨ds,rfl⟩ := List.getLast?_eq_some_iff.mp hlo
    split
    · rename_i hc
      rw [List.dropLast_concat]
      obtain ⟨a,m⟩ := c
      obtain ⟨_,n⟩ := b
      subst hc
      have hperm : (ds ++ [(a,m)] ++ (a+m,n) :: bs).Perm ((a,m) :: (a+m,n) :: (ds ++ bs)) := by
        rw [List.append_assoc]
        refine List.perm_middle.trans (.cons _ ?_)
        exact List.perm_middle
      refine ((h.perm hperm).join).perm ?_
      rw [List.append_assoc]
      exact List.perm_middle.symm
    · rw [List.append_assoc]
      exact h

theorem Separate.joinUp (hs : Separate bs) (hb : ∀ c ∈ bs, b.1+b.2 ≤ c.1) : Separate (joinUp b bs) := by
  cases bs with
  | nil => exact List.pairwise_singleton _ _
  | cons c bs =>
    obtain ⟨hc,hbs⟩ := List.pairwise_cons.mp hs
    have hbc := hb c (by simp)
    rw [Tiling.joinUp]
    split
    · rename_i heq
      refine List.pairwise_cons.mpr ⟨fun d hd => ?_,hbs⟩
      have := hc d hd
      simp only
      omega
    · refine List.pairwise_cons.mpr ⟨fun d hd => ?_,hs⟩
      rcases List.mem_cons.mp hd with rfl | hd
      · omega
      · have := hc d hd
        omega

theorem Separate.joinDown {lo : List Block} (hlo : Separate lo) (hs : Separate (b :: bs))
    (hb : ∀ c ∈ lo, c.1+c.2 ≤ b.1) : Separate (joinDown lo b ++ bs) := by
  obtain ⟨hbbs,hbs⟩ := List.pairwise_cons.mp hs
  have hall : Separate (lo ++ b :: bs) → Separate (lo ++ [b] ++ bs) := fun h => by simpa using h
  rw [Tiling.joinDown]
  split
  · exact hs
  · rename_i c hc
    obtain ⟨m,rfl⟩ := List.getLast?_eq_some_iff.mp hc
    have hcb := hb c (by simp)
    obtain ⟨hm,_,hmc⟩ := List.pairwise_append.mp hlo
    split
    · rename_i heq
      rw [List.dropLast_concat,List.append_assoc]
      refine List.pairwise_append.mpr ⟨hm,List.pairwise_cons.mpr ⟨fun d hd => ?_,hbs⟩,fun d hd e he => ?_⟩
      · have := hbbs d hd
        simp only
        omega
      · have h1 := hmc d hd c (by simp)
        rcases List.mem_cons.mp he with rfl | he
        · exact h1
        · have := hbbs e he
          omega
    · refine hall (List.pairwise_append.mpr ⟨hlo,hs,fun d hd e he => ?_⟩)
      have hdb : d.1+d.2 < b.1 := by
        rcases List.mem_append.mp hd with hd | hd
        · have := hmc d hd c (by simp)
          omega
        · cases List.mem_singleton.mp hd
          omega
      rcases List.mem_cons.mp he with rfl | he
      · exact hdb
      · have := hbbs e he
        omega

end Separate

end Xv6.Tiling
