import Xv6.Umalloc.FreeList

/-! # What `malloc` takes from the free list

The scan goes once around the circle. If no block is large enough, `morecore` frees a new region
that is, and the second scan finds it.
-/
namespace Xv6.Umalloc
open CircularList Tiling Function
variable {l : Layout} {h t : Heap} {F lo hi : List Block} {c : Block} {n nunits p prevp x : ℕ}
  {answers : List (Option ℕ)}

section Take

theorem Holds.pred (hh : Holds l h (lo ++ c :: hi)) (hprev : prevp ∈ l.base :: (lo ++ c :: hi).map Prod.fst)
    (hptr : h.ptr prevp = c.1) : ∃ init, l.base :: lo.map Prod.fst = init ++ [prevp] := by
  obtain ⟨init,q,hnodes⟩ : ∃ init q, l.base :: lo.map Prod.fst = init ++ [q] :=
    ⟨_,_,(List.dropLast_concat_getLast (List.cons_ne_nil _ _)).symm⟩
  have hall : l.base :: (lo ++ c :: hi).map Prod.fst = init ++ q :: c.1 :: hi.map Prod.fst := by
    rw [List.map_append,← List.cons_append,hnodes]
    simp
  have hring := hh.ring
  rw [hall] at hring
  have hq : h.ptr q = c.1 :=
    (follows_cons_cons.mp (hring.middle ⟨init,hi.map Prod.fst ++ [l.base],by simp⟩ : Follows h.ptr [q,c.1])).1
  have hqmem : q ∈ l.base :: (lo ++ c :: hi).map Prod.fst := by rw [hall]; simp
  refine ⟨init,?_⟩
  rw [hnodes,hh.ring.injective hh.nodup hprev hqmem (hptr.trans hq.symm)]

theorem take_whole (hh : Holds l h (lo ++ c :: hi)) (hprev : prevp ∈ l.base :: (lo ++ c :: hi).map Prod.fst)
    (hptr : h.ptr prevp = c.1) (hsize : h.size c.1 = nunits) :
    Holds l (take h nunits prevp c.1).1 (lo ++ hi) ∧ (take h nunits prevp c.1).2 = c.1+8 ∧
      (take h nunits prevp c.1).1.live = (c.1,nunits) :: h.live := by
  obtain ⟨init,hnodes⟩ := hh.pred hprev hptr
  have hall : l.base :: (lo ++ c :: hi).map Prod.fst = init ++ prevp :: c.1 :: hi.map Prod.fst := by
    rw [List.map_append,← List.cons_append,hnodes]
    simp
  have hring := hh.ring
  have hnodup := hh.nodup
  rw [hall] at hring hnodup
  obtain ⟨_,htail,hdisj⟩ := List.nodup_append.mp hnodup
  have hpinit : ∀ x ∈ init, x ≠ prevp := fun x hx => hdisj x hx prevp (by simp)
  have hphi : ∀ x ∈ c.1 :: hi.map Prod.fst, x ≠ prevp := by
    rintro x hx rfl
    exact (List.nodup_cons.mp htail).1 hx
  have htake : take h nunits prevp c.1 = ({ h with
      ptr := update h.ptr prevp (h.ptr c.1), freep := some prevp, live := (c.1,nunits) :: h.live },c.1+8) := by
    rw [take,if_pos hsize]
  have hc : c = (c.1,8*nunits) := by
    rw [← hsize,← hh.sizes c (by simp)]
  have hperm : (lo ++ c :: hi ++ h.live.map bytes).Perm (lo ++ hi ++ c :: h.live.map bytes) := by
    rw [List.append_assoc,List.append_assoc,List.cons_append]
    exact (List.perm_middle.symm).append_left lo
  rw [htake]
  refine ⟨⟨?_,?_,hh.base,?_,?_,?_,hh.regions,hh.brk,?_,?_⟩,rfl,rfl⟩
  · have hlist : l.base :: (lo ++ hi).map Prod.fst ++ [l.base] = init ++ prevp :: (hi.map Prod.fst ++ [l.base]) := by
      rw [List.map_append,← List.cons_append,hnodes]
      simp
    rw [hlist]
    refine follows_append.mpr ⟨?_,?_⟩
    · exact (hring.middle ⟨[],c.1 :: hi.map Prod.fst ++ [l.base],by simp⟩ : Follows h.ptr (init ++ [prevp])).congr
        fun x hx => update_of_ne (hpinit x hx) _ _
    · have hhigh : Follows h.ptr (c.1 :: hi.map Prod.fst ++ [l.base]) := hring.middle ⟨init ++ [prevp],[],by simp⟩
      have hhigh' : Follows (update h.ptr prevp (h.ptr c.1)) (c.1 :: hi.map Prod.fst ++ [l.base]) :=
        hhigh.congr fun x hx => update_of_ne (hphi x hx) _ _
      cases hi with
      | nil =>
        refine follows_cons_cons.mpr ⟨?_,List.isChain_singleton _⟩
        exact (update_self _ _ _).trans (follows_cons_cons.mp hhigh).1
      | cons d hi =>
        refine follows_cons_cons.mpr ⟨?_,(follows_cons_cons.mp hhigh').2⟩
        exact (update_self _ _ _).trans (follows_cons_cons.mp hhigh).1
  · exact fun b hb => hh.sizes b (List.Sublist.subset (by simp) hb)
  · exact hh.separate.sublist (by simp)
  · have := hh.tiles.perm hperm
    rw [hc] at this
    exact this
  · intro b hb
    rcases List.mem_cons.mp hb with rfl | hb
    · exact hsize
    · exact hh.live b hb
  · intro hgrid b hb
    refine hh.aligned hgrid b (hperm.mem_iff.mpr ?_)
    rw [hc]
    exact hb
  · refine ⟨prevp,?_,rfl⟩
    have : prevp ∈ l.base :: lo.map Prod.fst := by rw [hnodes]; simp
    rw [List.map_append,← List.cons_append]
    exact List.mem_append_left _ this

theorem take_part (hh : Holds l h (lo ++ c :: hi)) (hprev : prevp ∈ l.base :: (lo ++ c :: hi).map Prod.fst)
    (hpos : 0 < nunits) (hlt : nunits < h.size c.1) :
    ∃ q F', Holds l (take h nunits prevp c.1).1 F' ∧ (take h nunits prevp c.1).2 = q+8 ∧
      (take h nunits prevp c.1).1.live = (q,nunits) :: h.live := by
  have hc := hh.sizes c (by simp)
  have hsep := List.pairwise_append.mp hh.separate
  have htiles := hh.tiles
  have hcut : Tiles ((c.1,8*(h.size c.1-nunits)) :: (c.1+8*(h.size c.1-nunits),8*nunits) ::
      (lo ++ hi ++ h.live.map bytes)) h.regions := by
    refine Tiles.cut ?_ (by omega) (by omega)
    have hsum : 8*(h.size c.1-nunits)+8*nunits = c.2 := by omega
    rw [hsum]
    refine htiles.perm ?_
    rw [List.append_assoc,List.cons_append]
    exact List.perm_middle.trans (by rw [List.append_assoc])
  generalize hrest : h.size c.1-nunits = rest at hcut
  have hfresh : ∀ b ∈ lo ++ hi ++ h.live.map bytes, b.1 ≠ c.1+8*rest ∧ b.1 ≠ c.1 := by
    intro b hb
    have h1 := (List.pairwise_cons.mp hcut.apart).1 b (List.mem_cons_of_mem _ hb)
    have h2 := (List.pairwise_cons.mp (List.pairwise_cons.mp hcut.apart).2).1 b hb
    have h3 := hcut.pos b (List.mem_cons_of_mem _ (List.mem_cons_of_mem _ hb))
    simp only [Apart] at h1 h2
    omega
  have htake : take h nunits prevp c.1 = ({ h with
      size := update (update h.size c.1 rest) (c.1+8*rest) nunits
      freep := some prevp, live := (c.1+8*rest,nunits) :: h.live },c.1+8*rest+8) := by
    rw [take,if_neg (by omega),hrest]
  have hother : ∀ x, x ≠ c.1 → x ≠ c.1+8*rest →
      update (update h.size c.1 rest) (c.1+8*rest) nunits x = h.size x := by
    intro x hx hx'
    rw [update_of_ne hx',update_of_ne hx]
  have hhere : update (update h.size c.1 rest) (c.1+8*rest) nunits c.1 = rest := by
    rw [update_of_ne (by omega),update_self]
  have hmap : (lo ++ (c.1,8*rest) :: hi).map Prod.fst = (lo ++ c :: hi).map Prod.fst := by simp
  have hbase := hh.lt_base (b := c) (by simp)
  refine ⟨c.1+8*rest,lo ++ (c.1,8*rest) :: hi,?_,by rw [htake],by rw [htake]⟩
  rw [htake]
  refine ⟨?_,?_,?_,?_,?_,?_,hh.regions,hh.brk,?_,?_⟩
  · rw [hmap]
    exact hh.ring
  · intro b hb
    rcases List.mem_append.mp hb with hb | hb
    · have hf := hfresh b (by simp [hb])
      exact (hh.sizes b (by simp [hb])).trans (congrArg (8*·) (hother b.1 hf.2 hf.1).symm)
    · rcases List.mem_cons.mp hb with rfl | hb
      · exact congrArg (8*·) hhere.symm
      · have hf := hfresh b (by simp [hb])
        exact (hh.sizes b (by simp [hb])).trans (congrArg (8*·) (hother b.1 hf.2 hf.1).symm)
  · exact (hother l.base (by omega) (by omega)).trans hh.base
  · refine List.pairwise_append.mpr ⟨hsep.1,?_,fun b hb d hd => ?_⟩
    · obtain ⟨hchi,hhi⟩ := List.pairwise_cons.mp hsep.2.1
      refine List.pairwise_cons.mpr ⟨fun d hd => ?_,hhi⟩
      have := hchi d hd
      simp only
      omega
    · rcases List.mem_cons.mp hd with rfl | hd
      · exact hsep.2.2 b hb c (by simp)
      · exact hsep.2.2 b hb d (by simp [hd])
  · refine hcut.perm ?_
    change ((c.1,8*rest) :: (c.1+8*rest,8*nunits) :: (lo ++ hi ++ h.live.map bytes)).Perm
      (lo ++ (c.1,8*rest) :: hi ++ (c.1+8*rest,8*nunits) :: h.live.map bytes)
    refine .trans (.cons _ List.perm_middle.symm) ?_
    rw [List.append_assoc,List.append_assoc,List.cons_append]
    exact List.perm_middle.symm
  · intro b hb
    rcases List.mem_cons.mp hb with rfl | hb
    · exact update_self _ _ _
    · have hf := hfresh (bytes b) (List.mem_append_right _ (List.mem_map_of_mem hb))
      exact (hother b.1 hf.2 hf.1).trans (hh.live b hb)
  · intro hgrid b hb
    have haligned := hh.aligned hgrid
    have hca : 8 ∣ c.1 := haligned c (by simp)
    rcases List.mem_append.mp hb with hb | hb
    · rcases List.mem_append.mp hb with hb | hb
      · exact haligned b (by simp [hb])
      · rcases List.mem_cons.mp hb with rfl | hb
        · exact hca
        · exact haligned b (by simp [hb])
    · rcases List.mem_cons.mp hb with rfl | hb
      · exact (Nat.dvd_add_right hca).mpr (Nat.dvd_mul_right 8 rest)
      · exact haligned b (List.mem_append_right _ hb)
  · refine ⟨prevp,?_,rfl⟩
    rw [hmap]
    exact hprev

theorem take_spec (hh : Holds l h F) (hprev : prevp ∈ l.base :: F.map Prod.fst) (hp : p ∈ F.map Prod.fst)
    (hptr : h.ptr prevp = p) (hpos : 0 < nunits) (hsize : nunits ≤ h.size p) :
    ∃ q F', Holds l (take h nunits prevp p).1 F' ∧ (take h nunits prevp p).2 = q+8 ∧
      (take h nunits prevp p).1.live = (q,nunits) :: h.live := by
  obtain ⟨c,hc,rfl⟩ := List.mem_map.mp hp
  obtain ⟨lo,hi,rfl⟩ := List.append_of_mem hc
  rcases Nat.eq_or_lt_of_le hsize with heq | hlt
  · exact ⟨c.1,lo ++ hi,take_whole hh hprev hptr heq.symm⟩
  · exact take_part hh hprev hpos hlt

end Take

end Xv6.Umalloc
