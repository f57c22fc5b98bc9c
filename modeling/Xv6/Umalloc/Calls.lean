import Xv6.Umalloc.Allocation

/-! # Every call of the allocator

`malloc` and `free` return from every heap that calls of them can lead to, and leave the free
blocks and the blocks in use as a tiling of the memory from `sbrk`.
-/
namespace Xv6.Umalloc
open CircularList Tiling Runs Function
variable {l : Layout} {h t : Heap} {F : List Block} {f m n nunits p prevp x : ℕ} {answers : List (Option ℕ)}

section Scan

theorem exists_first {P : ℕ → Prop} (ys : List ℕ) :
    (∀ y ∈ ys, P y) ∨ ∃ pre p post, ys = pre ++ p :: post ∧ (∀ y ∈ pre, P y) ∧ ¬ P p := by
  induction ys with
  | nil => exact .inl (by simp)
  | cons y ys ih =>
    by_cases hy : P y
    · rcases ih with hall | ⟨pre,p,post,rfl,hpre,hp⟩
      · exact .inl (List.forall_mem_cons.mpr ⟨hy,hall⟩)
      · exact .inr ⟨y :: pre,p,post,rfl,List.forall_mem_cons.mpr ⟨hy,hpre⟩,hp⟩
    · exact .inr ⟨[],y,ys,rfl,by simp,hy⟩

theorem search_walk (answers : List (Option ℕ)) {pre : List ℕ} (hfreep : h.freep = some f) (hring : Follows h.ptr (x :: pre ++ [p]))
    (hsmall : ∀ y ∈ pre, h.size y < nunits ∧ y ≠ f) :
    ∃ prevp ∈ x :: pre, h.ptr prevp = p ∧
      ∀ m, search nunits (m+pre.length) h answers x (h.ptr x) = search nunits m h answers prevp p := by
  induction pre generalizing x with
  | nil =>
    have hxp : h.ptr x = p := (follows_cons_cons.mp hring).1
    exact ⟨x,by simp,hxp,fun m => by rw [hxp]; rfl⟩
  | cons y pre ih =>
    obtain ⟨hxy,hrest⟩ := follows_cons_cons.mp hring
    obtain ⟨prevp,hprev,hptr,hrun⟩ := ih hrest fun z hz => hsmall z (List.mem_cons_of_mem _ hz)
    refine ⟨prevp,List.mem_cons_of_mem _ hprev,hptr,fun m => ?_⟩
    obtain ⟨hsize,hne⟩ := hsmall y (by simp)
    rw [List.length_cons,← Nat.add_assoc,hxy,search,if_neg (by omega),if_neg ?_,hrun m]
    rw [hfreep]
    exact fun he => hne (Option.some.inj he).symm

theorem Holds.around (hh : Holds l h F) (hf : f ∈ l.base :: F.map Prod.fst) :
    ∃ r, Follows h.ptr (f :: r ++ [f]) ∧ (f :: r).Perm (l.base :: F.map Prod.fst) := by
  obtain ⟨A,B,hsplit⟩ := List.append_of_mem hf
  have hring := hh.ring
  rw [hsplit] at hring ⊢
  cases A with
  | nil =>
    cases (List.cons.inj hsplit).1
    exact ⟨B,hring,List.Perm.refl _⟩
  | cons a A =>
    cases (List.cons.inj hsplit).1
    refine ⟨B ++ l.base :: A,?_,?_⟩
    · have := Follows.rotate (m := B) (b := f) hring
      simpa using this
    · have hcomm : (f :: B ++ l.base :: A).Perm (l.base :: A ++ f :: B) := List.perm_append_comm
      simpa using hcomm

/-- One scan finds a block that is large enough, or comes back to where it started. -/
theorem search_scan (answers : List (Option ℕ)) (hh : Holds l h F) (hfreep : h.freep = some f) (hpos : 0 < nunits) :
    (∃ prevp p, prevp ∈ l.base :: F.map Prod.fst ∧ p ∈ F.map Prod.fst ∧ h.ptr prevp = p ∧ nunits ≤ h.size p ∧
      ∀ m, F.length ≤ m → search nunits (m+1) h answers f (h.ptr f) =
        .ok ((take h nunits prevp p).1,some (take h nunits prevp p).2)) ∨
    ((∀ b ∈ F, h.size b.1 < nunits) ∧ ∃ prevp, ∀ m,
      search nunits (m+1+F.length) h answers f (h.ptr f) = search nunits (m+1) h answers prevp f) := by
  have hf : f ∈ l.base :: F.map Prod.fst := by
    obtain ⟨g,hg,hgf⟩ := hh.freep
    rw [hfreep] at hgf
    cases hgf
    exact hg
  obtain ⟨r,hring,hperm⟩ := hh.around hf
  have hnodup : (f :: r).Nodup := hperm.nodup_iff.mpr hh.nodup
  have hlen : r.length = F.length := by simpa using hperm.length_eq
  have hfr : ∀ y ∈ r, y ≠ f := by
    rintro y hy rfl
    exact (List.nodup_cons.mp hnodup).1 hy
  rcases exists_first (P := fun y => h.size y < nunits) (r ++ [f]) with hall | ⟨pre,p,post,hsplit,hpre,hbig⟩
  · right
    obtain ⟨prevp,_,_,hrun⟩ := search_walk answers hfreep hring
      fun y hy => ⟨hall y (List.mem_append_left _ hy),hfr y hy⟩
    refine ⟨fun b hb => hall b.1 ?_,prevp,fun m => hlen ▸ hrun (m+1)⟩
    have : b.1 ∈ f :: r := hperm.mem_iff.mpr (List.mem_cons_of_mem _ (List.mem_map_of_mem hb))
    rcases List.mem_cons.mp this with he | he
    · rw [he]
      simp
    · simp [he]
  · left
    have hprer : pre <+: r := by
      rcases List.eq_nil_or_concat post with rfl | ⟨post',q,rfl⟩
      · rw [(List.append_inj' hsplit rfl).1]
      · have hassoc : r ++ [f] = (pre ++ p :: post') ++ [q] := by simp [hsplit]
        rw [(List.append_inj' hassoc rfl).1]
        exact List.prefix_append _ _
    have hpath : Follows h.ptr (f :: pre ++ [p]) := by
      refine hring.middle ⟨[],post,?_⟩
      rw [List.cons_append,List.cons_append,hsplit]
      simp
    obtain ⟨prevp,hprev,hptr,hrun⟩ := search_walk answers hfreep hpath
      fun y hy => ⟨hpre y hy,hfr y (hprer.subset hy)⟩
    have hnode : ∀ y ∈ f :: r, y ∈ l.base :: F.map Prod.fst := fun y hy => hperm.mem_iff.mp hy
    have hpF : p ∈ F.map Prod.fst := by
      have hmem : p ∈ r ++ [f] := by rw [hsplit]; simp
      have hpn : p ∈ l.base :: F.map Prod.fst := hnode p ((List.perm_append_singleton f r).mem_iff.mp hmem)
      rcases List.mem_cons.mp hpn with rfl | hpn
      · exact absurd (hh.base ▸ hpos) hbig
      · exact hpn
    refine ⟨prevp,p,hnode prevp ?_,hpF,hptr,Nat.not_lt.mp hbig,fun m hm => ?_⟩
    · rcases List.mem_cons.mp hprev with rfl | hprev
      · exact List.mem_cons_self
      · exact List.mem_cons_of_mem _ (hprer.subset hprev)
    · have hle := hprer.length_le
      obtain ⟨k,rfl⟩ : ∃ k, m = k+pre.length := ⟨m-pre.length,by omega⟩
      have := hrun (k+1)
      rw [search,if_pos (Nat.not_lt.mp hbig)] at this
      rw [← this]
      congr 1
      omega

end Scan

section Morecore

theorem Holds.fresh (hh : Holds l h F) (gap : ℕ) (hpos : 0 < n) :
    Holds l { h with
      brk := h.brk+gap+8*n
      regions := (h.brk+gap,8*n) :: h.regions
      size := Function.update h.size (h.brk+gap) n
      live := (h.brk+gap,n) :: h.live } F := by
  have hend : ∀ b ∈ F ++ h.live.map bytes, b.1 ≠ h.brk+gap := by
    intro b hb
    have h1 := hh.tiles.le_top (fun r hr => (hh.regions r hr).2) hb
    have h2 := hh.tiles.pos b hb
    omega
  have hbase := hh.brk
  refine ⟨hh.ring,?_,?_,hh.separate,?_,?_,?_,?_,?_,hh.freep⟩
  · intro b hb
    exact (hh.sizes b hb).trans (congrArg (8*·) (update_of_ne (hend b (List.mem_append_left _ hb)) _ _).symm)
  · exact (update_of_ne (by omega) _ _).trans hh.base
  · refine (hh.tiles.grow (a := h.brk+gap) (n := 8*n) (fun r hr => ?_) (by omega)).perm List.perm_middle.symm
    have := (hh.regions r hr).2
    omega
  · intro b hb
    rcases List.mem_cons.mp hb with rfl | hb
    · exact update_self _ _ _
    · exact (update_of_ne (hend (bytes b) (List.mem_append_right _ (List.mem_map_of_mem hb))) _ _).trans
        (hh.live b hb)
  · intro r hr
    rcases List.mem_cons.mp hr with rfl | hr
    · exact ⟨by simp only; omega,le_rfl⟩
    · have := hh.regions r hr
      exact ⟨this.1,by simp only; omega⟩
  · simp only
    omega
  · intro hgrid b hb
    obtain ⟨hnew,hold⟩ := List.forall_mem_cons.mp hgrid
    rcases List.mem_append.mp hb with hb | hb
    · exact hh.aligned hold b (List.mem_append_left _ hb)
    · rcases List.mem_cons.mp hb with rfl | hb
      · exact hnew
      · exact hh.aligned hold b (List.mem_append_right _ hb)

theorem morecore_spec (hh : Holds l h F) (hn : F.length+3 < n) (nunits : ℕ) (answer : Option ℕ) :
    morecore n h nunits answer = .ok (h,none) ∨
    ∃ t F' f, morecore n h nunits answer = .ok (t,some f) ∧ t.freep = some f ∧ Holds l t F' ∧ t.live = h.live ∧
      (∃ b ∈ F', 8*nunits ≤ b.2) ∧ F'.length ≤ F.length+1 := by
  cases answer with
  | none => exact .inl rfl
  | some gap =>
    obtain ⟨nu,hnu⟩ : ∃ nu, nu = if nunits < 4096 then 4096 else nunits := ⟨_,rfl⟩
    have hle : nunits ≤ nu ∧ 0 < nu := by
      rw [hnu]
      split <;> omega
    have hfresh := hh.fresh gap hle.2
    have hnew : (h.brk+gap,nu) ∈ (h.brk+gap,nu) :: h.live := List.mem_cons_self
    obtain ⟨t,F',hfree,ht,hlive,_,_,⟨b,hb,hbk⟩,hlen⟩ := free_spec hfresh hnew hn
    obtain ⟨f,_,hf⟩ := ht.freep
    refine .inr ⟨t,F',f,?_,hf,ht,?_,⟨b,hb,by omega⟩,hlen⟩
    · simp only [morecore,sbrk,← hnu,Nat.mul_comm nu 8,hfree,hf]
    · rw [hlive]
      simp only [ne_eq,decide_not,List.filter_cons,decide_true,Bool.not_true,Bool.false_eq_true,↓reduceIte]
      refine List.filter_eq_self.mpr fun c hc => ?_
      have h1 := hh.tiles.le_top (fun r hr => (hh.regions r hr).2) (List.mem_append_right _ (List.mem_map_of_mem hc))
      have h2 := hh.pos_live (a := c.1) (k := c.2) hc
      simp only [bytes] at h1
      simp only [Bool.not_eq_true',decide_eq_false_iff_not]
      omega

end Morecore

section Calls
variable {bp k : ℕ}

theorem search_spec (hh : Holds l h F) (hfreep : h.freep = some f) (hpos : 0 < nunits) (hn : 2*F.length+8 ≤ n) :
    ∃ t r F', search nunits n h answers f (h.ptr f) = .ok (t,r) ∧ Holds l t F' ∧
      ((r = none ∧ t.live = h.live) ∨ ∃ q, r = some (q+8) ∧ t.live = (q,nunits) :: h.live) := by
  rcases search_scan answers hh hfreep hpos with ⟨prevp,p,hprev,hp,hptr,hsize,hrun⟩ | ⟨hsmall,prevp,hrun⟩
  · obtain ⟨q,F',ht,hq,hlive⟩ := take_spec hh hprev hp hptr hpos hsize
    obtain ⟨m,rfl⟩ : ∃ m, n = m+1 := ⟨n-1,by omega⟩
    exact ⟨_,_,F',hrun m (by omega),ht,.inr ⟨q,by rw [hq],hlive⟩⟩
  · obtain ⟨m,rfl⟩ : ∃ m, n = m+1+F.length := ⟨n-1-F.length,by omega⟩
    have hf : h.size f < nunits := by
      obtain ⟨g,hg,hgf⟩ := hh.freep
      rw [hfreep] at hgf
      cases hgf
      rcases List.mem_cons.mp hg with rfl | hg
      · rw [hh.base]
        exact hpos
      · obtain ⟨b,hb,rfl⟩ := List.mem_map.mp hg
        exact hsmall b hb
    rw [hrun m,search,if_neg (by omega),if_pos hfreep]
    rcases morecore_spec hh (show F.length+3 < m by omega) nunits (answers.headD none) with
      hfail | ⟨t,F',g,hmore,hg,ht,hlive,⟨b,hb,hbig⟩,hlen⟩
    · rw [hfail]
      exact ⟨h,none,F,rfl,hh,.inl ⟨rfl,rfl⟩⟩
    · rw [hmore]
      rcases search_scan answers.tail ht hg hpos with ⟨prevp',p,hprev,hp,hptr,hsize,hrun'⟩ | ⟨hsmall',_⟩
      · obtain ⟨q,F'',ht',hq,hlive'⟩ := take_spec ht hprev hp hptr hpos hsize
        obtain ⟨i,rfl⟩ : ∃ i, m = i+1 := ⟨m-1,by omega⟩
        exact ⟨_,_,F'',hrun' i (by omega),ht',.inr ⟨q,by rw [hq],by rw [hlive',hlive]⟩⟩
      · have h1 := hsmall' b hb
        have h2 := ht.sizes b hb
        omega

theorem Holds.length_lt (hh : Holds l h F) : F.length < h.brk := by
  have hlt : ∀ x ∈ l.base :: F.map Prod.fst, x < h.brk := by
    intro x hx
    rcases List.mem_cons.mp hx with rfl | hx
    · have := hh.brk
      omega
    · obtain ⟨b,hb,rfl⟩ := List.mem_map.mp hx
      have hmem : b ∈ F ++ h.live.map bytes := List.mem_append_left _ hb
      have h1 := hh.tiles.le_top (fun r hr => (hh.regions r hr).2) hmem
      have h2 := hh.tiles.pos b hmem
      omega
  have hcard : (l.base :: F.map Prod.fst).toFinset ⊆ Finset.range h.brk := by
    intro x hx
    exact Finset.mem_range.mpr (hlt x (List.mem_toFinset.mp hx))
  have := Finset.card_le_card hcard
  rw [List.toFinset_card_of_nodup hh.nodup,Finset.card_range] at this
  simpa using this

structure Unused (l : Layout) (h : Heap) : Prop where
  freep : h.freep = none
  brk : h.brk = l.brk
  regions : h.regions = []
  live : h.live = []

theorem Unused.holds (hu : Unused l h) : Holds l { h with
    ptr := Function.update h.ptr l.base l.base
    size := Function.update h.size l.base 0
    freep := some l.base } [] := by
  refine ⟨?_,by simp,update_self _ _ _,List.Pairwise.nil,?_,?_,?_,?_,?_,⟨l.base,by simp,rfl⟩⟩
  · exact follows_cons_cons.mpr ⟨update_self _ _ _,List.isChain_singleton _⟩
  · simp only [hu.live,hu.regions]
    exact tiles_nil
  · simp [hu.live]
  · simp [hu.regions]
  · simp only [hu.brk]
    exact l.below
  · simp [hu.live]

theorem malloc_spec (answers : List (Option ℕ)) (hh : Unused l h ∨ ∃ F, Holds l h F) (nbytes : ℕ) :
    ∃ t r F, malloc l h.fuel h answers nbytes = .ok (t,r) ∧ Holds l t F ∧
      ((r = none ∧ t.live = h.live) ∨ ∃ q, r = some (q+8) ∧ t.live = (q,units nbytes) :: h.live) := by
  have hpos : 0 < units nbytes := Nat.succ_pos _
  rcases hh with hu | ⟨F,hh⟩
  · simp only [malloc,hu.freep]
    exact search_spec hu.holds rfl hpos (by simp [Heap.fuel])
  · obtain ⟨f,_,hf⟩ := hh.freep
    simp only [malloc,hf]
    have := hh.length_lt
    exact search_spec hh hf hpos (by simp only [Heap.fuel]; omega)

theorem Holds.store (hh : Holds l h F) {a : ℕ} (ptr size : ℕ) {b : ℕ × ℕ} (hb : b ∈ h.live) (hlow : b.1 < a)
    (hhigh : a < b.1+8*b.2) :
    Holds l { h with ptr := Function.update h.ptr a ptr, size := Function.update h.size a size } F := by
  have hbmem : bytes b ∈ F ++ h.live.map bytes := List.mem_append_right _ (List.mem_map_of_mem hb)
  have hne : ∀ c ∈ F ++ h.live.map bytes, c.1 ≠ a := by
    intro c hc he
    by_cases hcb : c = bytes b
    · rw [hcb,bytes] at he
      simp only at he
      omega
    · have hapart : Apart c (bytes b) := hh.tiles.apart.forall hc hbmem hcb
      have := hh.tiles.pos c hc
      simp only [Apart,bytes] at hapart
      omega
  have hbase : l.base ≠ a := by
    have := hh.base_lt (a := b.1) (k := b.2) hb
    omega
  refine ⟨hh.ring.congr ?_,?_,(update_of_ne hbase _ _).trans hh.base,hh.separate,hh.tiles,?_,hh.regions,
    hh.brk,hh.aligned,hh.freep⟩
  · intro x hx
    rcases List.mem_cons.mp hx with rfl | hx
    · exact update_of_ne hbase _ _
    · obtain ⟨c,hc,rfl⟩ := List.mem_map.mp hx
      exact update_of_ne (hne c (List.mem_append_left _ hc)) _ _
  · intro c hc
    exact (hh.sizes c hc).trans (congrArg (8*·) (update_of_ne (hne c (List.mem_append_left _ hc)) _ _).symm)
  · intro c hc
    exact (update_of_ne (hne (bytes c) (List.mem_append_right _ (List.mem_map_of_mem hc))) _ _).trans
      (hh.live c hc)

theorem next_spec (hh : Unused l h ∨ ∃ F, Holds l h F) {a : Action} (ha : Allowed h a) :
    ∃ t r, next l h a = .ok (t,r) ∧ ∃ F, Holds l t F := by
  cases a with
  | malloc nbytes answers =>
    obtain ⟨t,r,F,hrun,ht,_⟩ := malloc_spec answers hh nbytes
    exact ⟨t,r,hrun,F,ht⟩
  | free ap =>
    obtain ⟨b,hb,rfl⟩ := ha
    rcases hh with hu | ⟨F,hh⟩
    · rw [hu.live] at hb
      cases hb
    · have hlen := hh.length_lt
      have hmem : (b.1,b.2) ∈ h.live := hb
      obtain ⟨t,F',hfree,ht,_⟩ := free_spec hh hmem (show F.length+3 < h.fuel by simp only [Heap.fuel]; omega)
      exact ⟨t,none,by simp only [next,hfree],F',ht⟩
  | store a ptr size =>
    obtain ⟨b,hb,hlow,hhigh⟩ := ha
    rcases hh with hu | ⟨F,hh⟩
    · rw [hu.live] at hb
      cases hb
    · exact ⟨_,none,rfl,F,hh.store ptr size hb hlow hhigh⟩

theorem heap_run {ptr size : ℕ → ℕ} {acts : List Action} (hrun : Run (Step l) (boot l ptr size) acts h) :
    Unused l h ∨ ∃ F, Holds l h F := by
  refine hrun.invariant (I := fun _ u => Unused l u ∨ ∃ F, Holds l u F) (.inl ⟨rfl,rfl,rfl,rfl⟩) ?_
  rintro _ u a v _ hu ⟨ha,p,hp⟩
  obtain ⟨t,r,ht,F,hF⟩ := next_spec hu ha
  rw [hp] at ht
  cases ht
  exact .inr ⟨F,hF⟩

theorem units_eq {nbytes : ℕ} (hn : 8*((nbytes+7)/8+1) < 2^31) : units nbytes = (nbytes+7)/8+1 := by
  rw [units]
  omega

/-- Whatever a program has allocated, freed and stored: `malloc` and `free` return; the free list is
one circle through `base`, ascending, without neighbours that touch; the free blocks and the blocks
in use tile the memory from `sbrk`; and `malloc` returns the end of the header of a new block in use,
of the size that was asked for, which is aligned if all the memory from `sbrk` is. -/
theorem heap_correct {ptr size : ℕ → ℕ} {acts : List Action} (hrun : Run (Step l) (boot l ptr size) acts h) :
    (∀ a, Allowed h a → ∃ t r, next l h a = .ok (t,r)) ∧
    (∃ F : List Block, Tiles (F ++ h.live.map bytes) h.regions ∧ Separate F ∧ (∀ b ∈ F, l.base < b.1) ∧
      (h.freep = none → F = [] ∧ h.live = []) ∧
      ∀ f, h.freep = some f → f ∈ l.base :: F.map Prod.fst ∧
        Follows h.ptr (l.base :: F.map Prod.fst ++ [l.base]) ∧ ∀ b ∈ F, b.2 = 8*h.size b.1) ∧
    ∀ nbytes answers t p, Allowed h (.malloc nbytes answers) →
      next l h (.malloc nbytes answers) = .ok (t,some p) →
        ∃ q, p = q+8 ∧ t.live = (q,(nbytes+7)/8+1) :: h.live ∧ ((∀ r ∈ t.regions, 8 ∣ r.1) → 8 ∣ p) := by
  have hh := heap_run hrun
  refine ⟨fun a ha => ?_,?_,?_⟩
  · obtain ⟨t,r,ht,_⟩ := next_spec hh ha
    exact ⟨t,r,ht⟩
  · rcases hh with hu | ⟨F,hh⟩
    · refine ⟨[],?_,List.Pairwise.nil,by simp,fun _ => ⟨rfl,hu.live⟩,?_⟩
      · rw [hu.live,hu.regions]
        exact tiles_nil
      · intro f hf
        rw [hu.freep] at hf
        cases hf
    · obtain ⟨g,hg,hgf⟩ := hh.freep
      refine ⟨F,hh.tiles,hh.separate,fun b hb => hh.lt_base (List.mem_append_left _ hb),?_,?_⟩
      · intro hnone
        rw [hgf] at hnone
        cases hnone
      · intro f hf
        rw [hgf] at hf
        cases hf
        exact ⟨hg,hh.ring,hh.sizes⟩
  · intro nbytes answers t p ha hp
    obtain ⟨t',r,F,ht,hF,hr⟩ := malloc_spec answers hh nbytes
    rw [next,ht] at hp
    cases hp
    rcases hr with ⟨hnone,_⟩ | ⟨q,hq,hlive⟩
    · cases hnone
    · cases hq
      refine ⟨q,rfl,by rw [hlive,units_eq ha],fun hgrid => ?_⟩
      have hq8 : 8 ∣ q := by
        refine hF.aligned hgrid (bytes (q,units nbytes)) (List.mem_append_right _ (List.mem_map_of_mem ?_))
        rw [hlive]
        exact List.mem_cons_self
      exact (Nat.dvd_add_right hq8).mpr (Nat.dvd_refl 8)

def sampleLayout : Layout := ⟨100,4096,by decide⟩

/-- Ten bytes are the upper end of the first region, and freeing them leaves the region as one block. -/
theorem heap_correct_freed : ∃ t, Run (Step sampleLayout) (boot sampleLayout (fun _ => 0) fun _ => 0)
    [.malloc 10 [some 0],.free 36848] t ∧ t.live = [] ∧ t.regions = [(4096,32768)] ∧
      ∃ F, Tiles (F ++ t.live.map bytes) t.regions ∧ Separate F := by
  obtain ⟨h,t,h1,h2,hlive,hlive',hregions⟩ : ∃ h t,
      next sampleLayout (boot sampleLayout (fun _ => 0) fun _ => 0) (.malloc 10 [some 0]) = .ok (h,some 36848) ∧
      next sampleLayout h (.free 36848) = .ok (t,none) ∧ h.live = [(36840,3)] ∧ t.live = [] ∧
      t.regions = [(4096,32768)] := ⟨_,_,rfl,rfl,rfl,rfl,rfl⟩
  have hrun : Run (Step sampleLayout) (boot sampleLayout (fun _ => 0) fun _ => 0)
      [.malloc 10 [some 0],.free 36848] t := by
    refine Run.cons (u := h) ⟨(by decide : 8*((10+7)/8+1) < 2^31),_,h1⟩ (Run.cons ⟨?_,_,h2⟩ .nil)
    exact ⟨(36840,3),by rw [hlive]; simp,rfl⟩
  obtain ⟨_,⟨F,htiles,hsep,_⟩,_⟩ := heap_correct hrun
  exact ⟨t,hrun,hlive',hregions,F,htiles,hsep⟩

/-- A program that has grown by one byte before its first call gets a pointer behind that byte. -/
theorem malloc_unaligned : ∃ (l : Layout) (t : Heap),
    next l (boot l (fun _ => 0) fun _ => 0) (.malloc 10 [some 0]) = .ok (t,some 36849) ∧
      t.regions = [(4097,32768)] ∧ ¬ 8 ∣ 36849 :=
  ⟨⟨100,4097,by decide⟩,_,rfl,rfl,by decide⟩

end Calls

end Xv6.Umalloc
