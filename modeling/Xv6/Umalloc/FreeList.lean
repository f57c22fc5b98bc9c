import Xv6.Library.CircularList
import Xv6.Library.Tiling
import Xv6.Umalloc.Heap

/-! # The free list and what `free` does to it

The free list is the circle from `base` through the free blocks in ascending order. A freed block
is put where it belongs, joined first to the block above it and then to the one below.
-/
namespace Xv6.Umalloc
open CircularList Tiling Function

def bytes (b : ℕ × ℕ) : Block := (b.1,8*b.2)

structure Holds (l : Layout) (h : Heap) (F : List Block) : Prop where
  ring : Follows h.ptr (l.base :: F.map Prod.fst ++ [l.base])
  sizes : ∀ b ∈ F, b.2 = 8*h.size b.1
  base : h.size l.base = 0
  separate : Separate F
  tiles : Tiles (F ++ h.live.map bytes) h.regions
  live : ∀ b ∈ h.live, h.size b.1 = b.2
  regions : ∀ r ∈ h.regions, l.base < r.1 ∧ r.1+r.2 ≤ h.brk
  brk : l.base+8 ≤ h.brk
  aligned : (∀ r ∈ h.regions, 8 ∣ r.1) → ∀ b ∈ F ++ h.live.map bytes, 8 ∣ b.1
  freep : ∃ f ∈ l.base :: F.map Prod.fst, h.freep = some f

variable {l : Layout} {h t : Heap} {F lo hi : List Block} {bp k n p x : ℕ}

section Order

theorem Holds.lt_base (hh : Holds l h F) {b : Block} (hb : b ∈ F ++ h.live.map bytes) : l.base < b.1 :=
  hh.tiles.lt_start (fun r hr => (hh.regions r hr).1) hb

theorem Holds.ascending (hh : Holds l h F) : (l.base :: F.map Prod.fst).Pairwise (· < ·) := by
  refine List.pairwise_cons.mpr ⟨?_,List.pairwise_map.mpr (hh.separate.imp fun hbc => by omega)⟩
  intro x hx
  obtain ⟨b,hb,rfl⟩ := List.mem_map.mp hx
  exact hh.lt_base (List.mem_append_left _ hb)

theorem Holds.nodup (hh : Holds l h F) : (l.base :: F.map Prod.fst).Nodup :=
  hh.ascending.imp fun hlt => Nat.ne_of_lt hlt

theorem Holds.apart (hh : Holds l h F) {b : Block} (hb : b ∈ F) {a : ℕ} (hk : (a,k) ∈ h.live) : Apart b (a,8*k) := by
  have := (List.pairwise_append.mp hh.tiles.apart).2.2
  exact this b hb (a,8*k) (List.mem_map_of_mem hk)

theorem Holds.pos_live (hh : Holds l h F) {a : ℕ} (hk : (a,k) ∈ h.live) : 0 < 8*k :=
  hh.tiles.pos (a,8*k) (List.mem_append_right _ (List.mem_map_of_mem hk))

theorem Holds.base_lt (hh : Holds l h F) {a : ℕ} (hk : (a,k) ∈ h.live) : l.base < a :=
  hh.lt_base (List.mem_append_right F (List.mem_map_of_mem (f := bytes) hk))

/-- A block in use splits the free list into what is below and what is above it. -/
theorem Holds.split (hh : Holds l h F) (hk : (bp,k) ∈ h.live) :
    ∃ lo hi, F = lo ++ hi ∧ (∀ b ∈ lo, b.1+b.2 ≤ bp) ∧ ∀ c ∈ hi, bp+8*k ≤ c.1 := by
  have hpos := hh.pos_live hk
  have hsplit : F.takeWhile (·.1 < bp) ++ F.dropWhile (·.1 < bp) = F := List.takeWhile_append_dropWhile
  refine ⟨F.takeWhile (·.1 < bp),F.dropWhile (·.1 < bp),hsplit.symm,?_,?_⟩
  · intro b hb
    have hlt : b.1 < bp := by simpa using List.mem_takeWhile_imp hb
    have hbF : b ∈ F := hsplit ▸ List.mem_append_left _ hb
    have hbpos := hh.tiles.pos b (List.mem_append_left _ hbF)
    have := hh.apart hbF hk
    simp only [Apart] at this
    omega
  · intro c hc
    have hcF : c ∈ F := hsplit ▸ List.mem_append_right _ hc
    have hcpos := hh.tiles.pos c (List.mem_append_left _ hcF)
    have hge : bp ≤ c.1 := by
      cases hd : F.dropWhile (·.1 < bp) with
      | nil =>
        rw [hd] at hc
        cases hc
      | cons d ds =>
        have hfirst : bp ≤ d.1 := by
          have := List.head?_dropWhile_not (fun b : Block => decide (b.1 < bp)) F
          rw [hd] at this
          simpa using this
        have hsep : Separate (d :: ds) := hd ▸ hh.separate.sublist (List.dropWhile_sublist _)
        rw [hd] at hc
        rcases List.mem_cons.mp hc with rfl | hc
        · exact hfirst
        · have := (List.pairwise_cons.mp hsep).1 c hc
          omega
    have := hh.apart hcF hk
    simp only [Apart] at this
    omega

end Order

section Spot
variable {init : List ℕ}

theorem spot_here (hp : p < bp) (hnext : bp < h.ptr p ∨ h.ptr p ≤ p) (n : ℕ) : spot h bp (n+1) p = .ok p := by
  rw [spot]
  split
  · rfl
  · rename_i hno
    rw [if_pos]
    omega

theorem spot_skip (hlow : x < h.ptr x ∧ h.ptr x < bp ∨ bp < x ∧ h.ptr x ≤ bp ∨ bp < x ∧ x < h.ptr x) (n : ℕ) :
    spot h bp (n+1) x = spot h bp n (h.ptr x) := by
  rw [spot,if_neg (by omega),if_neg (by omega)]

theorem spot_below (hring : Follows h.ptr (init ++ [p])) (hasc : (init ++ [p]).Pairwise (· < ·)) (hp : p < bp)
    (hnext : bp < h.ptr p ∨ h.ptr p ≤ p) (hx : x ∈ init ++ [p]) (hn : init.length < n) :
    spot h bp n x = .ok p := by
  obtain ⟨A,B,hsplit⟩ := List.append_of_mem hx
  have hlen := congrArg List.length hsplit
  simp only [List.length_append,List.length_cons,List.length_nil] at hlen
  rcases List.eq_nil_or_concat B with rfl | ⟨B',q,rfl⟩
  · obtain ⟨_,hxp⟩ := List.append_inj' hsplit rfl
    cases List.singleton_inj.mp hxp
    obtain ⟨m,rfl⟩ : ∃ m, n = m+1 := ⟨n-1,by omega⟩
    exact spot_here hp hnext m
  · rw [List.concat_eq_append] at hsplit hlen
    have hassoc : init ++ [p] = (A ++ x :: B') ++ [q] := by simp [hsplit]
    obtain ⟨hinit,hpq⟩ := List.append_inj' hassoc rfl
    cases List.singleton_inj.mp hpq
    have hpath : Follows h.ptr (x :: B' ++ [p]) := hring.middle ⟨A,[],by simp [hsplit]⟩
    simp only [List.length_append,List.length_singleton] at hlen
    obtain ⟨m,rfl⟩ : ∃ m, n = m+1+(B'.length+1) := ⟨n-(B'.length+2),by omega⟩
    rw [hpath.walk (f := spot h bp) ?_ (m+1)]
    · exact spot_here hp hnext m
    · intro y hy i
      have hyinit : y ∈ init := hinit ▸ List.mem_append_right A hy
      obtain ⟨C,D,hCD⟩ := hring.succ hyinit
      rw [hCD] at hasc
      have hlt : y < h.ptr y := by
        have := (List.pairwise_append.mp hasc).2.1
        exact (List.pairwise_cons.mp this).1 _ (by simp)
      have hle : h.ptr y ≤ p := by
        have hmem : h.ptr y ∈ init ++ [p] := by rw [hCD]; simp
        rw [← hCD] at hasc
        rcases List.mem_append.mp hmem with hm | hm
        · exact Nat.le_of_lt ((List.pairwise_append.mp hasc).2.2 _ hm p (by simp))
        · exact Nat.le_of_eq (List.mem_singleton.mp hm)
      exact spot_skip (.inl ⟨hlt,by omega⟩) i

theorem spot_ok {base : ℕ} {init above : List ℕ} (hnodes : Follows h.ptr (init ++ p :: above ++ [base]))
    (hbase : ∃ rest, init ++ [p] = base :: rest) (hasc : (init ++ p :: above).Pairwise (· < ·)) (hp : p < bp)
    (habove : ∀ y ∈ above, bp < y) (hx : x ∈ init ++ p :: above) (hn : (init ++ p :: above).length+1 < n) :
    spot h bp n x = .ok p := by
  obtain ⟨rest,hrest⟩ := hbase
  have hlow : Follows h.ptr (init ++ [p]) := hnodes.middle ⟨[],above ++ [base],by simp⟩
  have hasclow : (init ++ [p]).Pairwise (· < ·) := hasc.sublist (by simp)
  have hbp : base ≤ p := by
    rw [hrest] at hasclow
    have hpmem : p ∈ base :: rest := hrest ▸ (by simp)
    rcases List.mem_cons.mp hpmem with rfl | hmem
    · exact le_rfl
    · exact Nat.le_of_lt ((List.pairwise_cons.mp hasclow).1 p hmem)
  have hnext : bp < h.ptr p ∨ h.ptr p ≤ p := by
    cases above with
    | nil =>
      have : Follows h.ptr [p,base] := hnodes.middle ⟨init,[],by simp⟩
      rw [(follows_cons_cons.mp this).1]
      exact .inr hbp
    | cons c above =>
      have : Follows h.ptr [p,c] := hnodes.middle ⟨init,above ++ [base],by simp⟩
      rw [(follows_cons_cons.mp this).1]
      exact .inl (habove c (by simp))
  simp only [List.length_append,List.length_cons] at hn
  have hbelow : ∀ y ∈ init ++ [p], ∀ m, init.length < m → spot h bp m y = .ok p :=
    fun y hy m hm => spot_below hlow hasclow hp hnext hy hm
  have hcases : x ∈ init ++ [p] ∨ x ∈ above := by simpa [or_assoc] using hx
  rcases hcases with hx | hx
  · exact hbelow x hx n (by omega)
  · obtain ⟨A,B,rfl⟩ := List.append_of_mem hx
    have hpath : Follows h.ptr (x :: B ++ [base]) := hnodes.middle ⟨init ++ p :: A,[],by simp⟩
    simp only [List.length_append,List.length_cons] at hn
    obtain ⟨m,rfl⟩ : ∃ m, n = m+(B.length+1) := ⟨n-(B.length+1),by omega⟩
    rw [hpath.walk (f := spot h bp) ?_ m]
    · exact hbelow base (by rw [hrest]; simp) m (by omega)
    · intro y hy i
      have hyab : y ∈ A ++ x :: B := List.mem_append_right A hy
      have hyb := habove y hyab
      refine spot_skip ?_ i
      obtain ⟨C,D,hCD⟩ := hpath.succ hy
      rcases List.eq_nil_or_concat D with rfl | ⟨D',q,rfl⟩
      · have hlast : x :: B ++ [base] = (C ++ [y]) ++ [h.ptr y] := by rw [hCD]; simp
        rw [← List.singleton_inj.mp (List.append_inj' hlast rfl).2]
        exact .inr (.inl ⟨hyb,by omega⟩)
      · have hinner : x :: B ++ [base] = (C ++ y :: h.ptr y :: D') ++ [q] := by rw [hCD]; simp
        have hxB : (x :: B).Pairwise (· < ·) := hasc.sublist (List.IsSuffix.sublist ⟨init ++ p :: A,by simp⟩)
        rw [(List.append_inj' hinner rfl).1] at hxB
        exact .inr (.inr ⟨hyb,(List.pairwise_cons.mp (List.pairwise_append.mp hxB).2.1).1 _ (by simp)⟩)

end Spot

section Join
variable {base : ℕ}

theorem joinUpper_spec (hbp : bp ∉ base :: (lo ++ hi).map Prod.fst) (hk : h.size bp = k)
    (hring : Follows h.ptr (p :: hi.map Prod.fst ++ [base])) (hsizes : ∀ b ∈ hi, b.2 = 8*h.size b.1)
    (hbase : base < bp) :
    ∃ b hi', joinUp (bp,8*k) hi = b :: hi' ∧ b.1 = bp ∧ b.2 = 8*(joinUpper h p bp).size bp ∧ 8*k ≤ b.2 ∧
      hi' <:+ hi ∧ Follows (joinUpper h p bp).ptr (bp :: hi'.map Prod.fst ++ [base]) ∧
      (∀ x, x ≠ bp → (joinUpper h p bp).ptr x = h.ptr x ∧ (joinUpper h p bp).size x = h.size x) := by
  have hother : ∀ (v w x : ℕ), x ≠ bp → update h.ptr bp v x = h.ptr x ∧ update h.size bp w x = h.size x :=
    fun v w x hx => ⟨update_of_ne hx _ _,update_of_ne hx _ _⟩
  cases hi with
  | nil =>
    have hnext : h.ptr p = base := (follows_cons_cons.mp hring).1
    have heq : joinUpper h p bp = { h with ptr := update h.ptr bp base } := by
      rw [joinUpper,hnext,if_neg (by omega)]
    rw [heq]
    refine ⟨(bp,8*k),[],rfl,rfl,by rw [← hk],le_rfl,List.suffix_rfl,?_,fun x hx => ⟨(hother base 0 x hx).1,rfl⟩⟩
    exact follows_cons_cons.mpr ⟨update_self _ _ _,List.isChain_singleton _⟩
  | cons c hi =>
    obtain ⟨hnext,htail⟩ := follows_cons_cons.mp hring
    have hne : ∀ x ∈ (c :: hi).map Prod.fst, x ≠ bp := by
      rintro x hx rfl
      refine hbp (List.mem_cons_of_mem _ ?_)
      rw [List.map_append]
      exact List.mem_append_right _ hx
    by_cases hjoin : bp+8*k = c.1
    · have heq : joinUpper h p bp = { h with
          size := update h.size bp (k+h.size c.1), ptr := update h.ptr bp (h.ptr c.1) } := by
        rw [joinUpper,hnext,hk,if_pos hjoin]
      rw [heq]
      refine ⟨(bp,8*k+c.2),hi,?_,rfl,?_,Nat.le_add_right _ _,List.suffix_cons _ _,?_,fun x hx => hother _ _ x hx⟩
      · rw [joinUp,if_pos hjoin]
      · change 8*k+c.2 = 8*update h.size bp (k+h.size c.1) bp
        rw [update_self,hsizes c (by simp)]
        omega
      · have hrest : Follows (update h.ptr bp (h.ptr c.1)) (c.1 :: hi.map Prod.fst ++ [base]) :=
          htail.congr fun x hx => update_of_ne (hne x hx) _ _
        cases hi with
        | nil =>
          refine follows_cons_cons.mpr ⟨?_,List.isChain_singleton _⟩
          change update h.ptr bp (h.ptr c.1) bp = base
          rw [update_self]
          exact (follows_cons_cons.mp htail).1
        | cons d hi =>
          refine follows_cons_cons.mpr ⟨?_,(follows_cons_cons.mp hrest).2⟩
          change update h.ptr bp (h.ptr c.1) bp = d.1
          rw [update_self]
          exact (follows_cons_cons.mp htail).1
    · have heq : joinUpper h p bp = { h with ptr := update h.ptr bp c.1 } := by
        rw [joinUpper,hnext,hk,if_neg hjoin]
      rw [heq]
      refine ⟨(bp,8*k),c :: hi,?_,rfl,by rw [← hk],le_rfl,List.suffix_rfl,?_,fun x hx => ⟨(hother _ 0 x hx).1,rfl⟩⟩
      · rw [joinUp,if_neg hjoin]
      · refine follows_cons_cons.mpr ⟨update_self _ _ _,?_⟩
        exact htail.congr fun x hx => update_of_ne (hne x hx) _ _

theorem joinLower_spec {b : Block} {init : List ℕ} (hb : b.1 = bp) (hsize : b.2 = 8*h.size bp)
    (hnodes : base :: lo.map Prod.fst = init ++ [p]) (hlow : Follows h.ptr (init ++ [p]))
    (hhigh : Follows h.ptr (bp :: hi.map Prod.fst ++ [base])) (hsizes : ∀ c ∈ lo, c.2 = 8*h.size c.1)
    (hzero : h.size base = 0) (hbase : base < bp) (hinit : p ∉ init) (hp : p ∉ bp :: hi.map Prod.fst) :
    Follows (joinLower h p bp).ptr (base :: (joinDown lo b ++ hi).map Prod.fst ++ [base]) ∧
      (∀ c ∈ joinDown lo b, c.2 = 8*(joinLower h p bp).size c.1) ∧ (joinLower h p bp).size base = 0 ∧
      p ∈ base :: (joinDown lo b).map Prod.fst ∧
      ∀ x, x ≠ p → (joinLower h p bp).ptr x = h.ptr x ∧ (joinLower h p bp).size x = h.size x := by
  have hkeep : ∀ (v x : ℕ), x ≠ p → update h.ptr p v x = h.ptr x := fun v x hx => update_of_ne hx _ _
  have hlow' : ∀ v, Follows (update h.ptr p v) (init ++ [p]) :=
    fun v => hlow.congr fun x hx => hkeep v x fun he => hinit (he ▸ hx)
  have hhigh' : ∀ v, Follows (update h.ptr p v) (bp :: hi.map Prod.fst ++ [base]) :=
    fun v => hhigh.congr fun x hx => hkeep v x fun he => hp (he ▸ hx)
  by_cases hjoin : p+8*h.size p = bp
  · have heq : joinLower h p bp = { h with
        size := update h.size p (h.size p+h.size bp), ptr := update h.ptr p (h.ptr bp) } := by
      rw [joinLower,if_pos hjoin]
    rcases List.eq_nil_or_concat lo with rfl | ⟨m,c,rfl⟩
    · have hpb : base = p := by
        have hone : [] ++ [base] = init ++ [p] := hnodes
        exact List.singleton_inj.mp (List.append_inj' hone rfl).2
      rw [← hpb,hzero] at hjoin
      omega
    · rw [List.concat_eq_append] at hnodes hsizes ⊢
      have hcut : (base :: m.map Prod.fst) ++ [c.1] = init ++ [p] := by rw [← hnodes]; simp
      obtain ⟨rfl,hcp⟩ := List.append_inj' hcut rfl
      cases List.singleton_inj.mp hcp
      have hc := hsizes c (by simp)
      have hdown : joinDown (m ++ [c]) b = m ++ [(c.1,c.2+b.2)] := by
        rw [joinDown,List.getLast?_concat]
        simp only [hb]
        rw [if_pos (by omega),List.dropLast_concat]
      rw [heq,hdown]
      refine ⟨?_,?_,?_,by simp,fun x hx => ⟨hkeep _ x hx,update_of_ne hx _ _⟩⟩
      · have hlist : base :: ((m ++ [(c.1,c.2+b.2)]) ++ hi).map Prod.fst ++ [base] =
            (base :: m.map Prod.fst) ++ c.1 :: (hi.map Prod.fst ++ [base]) := by simp
        rw [hlist]
        refine follows_append.mpr ⟨hlow' _,?_⟩
        have hnext := hhigh' (h.ptr bp)
        cases hi with
        | nil =>
          refine follows_cons_cons.mpr ⟨?_,List.isChain_singleton _⟩
          change update h.ptr c.1 (h.ptr bp) c.1 = base
          rw [update_self]
          exact (follows_cons_cons.mp hhigh).1
        | cons d hi =>
          refine follows_cons_cons.mpr ⟨?_,(follows_cons_cons.mp hnext).2⟩
          change update h.ptr c.1 (h.ptr bp) c.1 = d.1
          rw [update_self]
          exact (follows_cons_cons.mp hhigh).1
      · intro d hd
        change d.2 = 8*update h.size c.1 (h.size c.1+h.size bp) d.1
        rcases List.mem_append.mp hd with hd | hd
        · have hne : d.1 ≠ c.1 := fun he => hinit (he ▸ List.mem_cons_of_mem _ (List.mem_map_of_mem hd))
          rw [update_of_ne hne]
          exact hsizes d (List.mem_append_left _ hd)
        · cases List.mem_singleton.mp hd
          rw [update_self,hc,hsize]
          omega
      · change update h.size c.1 (h.size c.1+h.size bp) base = 0
        have hne : base ≠ c.1 := fun he => hinit (he ▸ List.mem_cons_self (a := base))
        rw [update_of_ne hne]
        exact hzero
  · have heq : joinLower h p bp = { h with ptr := update h.ptr p bp } := by
      rw [joinLower,if_neg hjoin]
    have hdown : joinDown lo b = lo ++ [b] := by
      rcases List.eq_nil_or_concat lo with rfl | ⟨m,c,rfl⟩
      · rfl
      · rw [List.concat_eq_append] at hnodes hsizes ⊢
        have hcut : (base :: m.map Prod.fst) ++ [c.1] = init ++ [p] := by rw [← hnodes]; simp
        cases List.singleton_inj.mp (List.append_inj' hcut rfl).2
        have hc := hsizes c (by simp)
        rw [joinDown,List.getLast?_concat]
        simp only [hb]
        rw [if_neg (by omega)]
    rw [heq,hdown]
    refine ⟨?_,?_,hzero,?_,fun x hx => ⟨hkeep _ x hx,rfl⟩⟩
    · have hlist : base :: ((lo ++ [b]) ++ hi).map Prod.fst ++ [base] =
          init ++ p :: (bp :: hi.map Prod.fst ++ [base]) := by
        have : base :: ((lo ++ [b]) ++ hi).map Prod.fst ++ [base] =
            (base :: lo.map Prod.fst) ++ (b.1 :: hi.map Prod.fst ++ [base]) := by simp
        rw [this,hnodes,hb]
        simp
      rw [hlist]
      exact follows_append.mpr ⟨hlow' _,follows_cons_cons.mpr ⟨update_self _ _ _,hhigh' _⟩⟩
    · intro c hc
      rcases List.mem_append.mp hc with hc | hc
      · exact hsizes c hc
      · cases List.mem_singleton.mp hc
        rw [hb]
        exact hsize
    · have : p ∈ base :: lo.map Prod.fst := hnodes ▸ List.mem_append_right _ (by simp)
      rw [List.map_append]
      exact List.mem_append_left _ this

end Join

section Free

theorem Holds.live_nodup (hh : Holds l h F) : (h.live.map Prod.fst).Nodup := by
  have hpair : (h.live.map bytes).Pairwise Apart := (List.pairwise_append.mp hh.tiles.apart).2.1
  have hpos : ∀ b ∈ h.live, 0 < 8*b.2 :=
    fun b hb => hh.tiles.pos (bytes b) (List.mem_append_right _ (List.mem_map_of_mem hb))
  rw [List.pairwise_map] at hpair
  refine List.pairwise_map.mpr (hpair.imp_of_mem fun {b c} hb hc hbc he => ?_)
  have h1 := hpos b hb
  have h2 := hpos c hc
  simp only [Apart,bytes] at hbc
  omega

theorem perm_filter {bs : List (ℕ × ℕ)} (hnodup : (bs.map Prod.fst).Nodup) (hk : (bp,k) ∈ bs) :
    bs.Perm ((bp,k) :: bs.filter (·.1 ≠ bp)) := by
  induction bs with
  | nil => cases hk
  | cons b bs ih =>
    obtain ⟨hb,hbs⟩ := List.nodup_cons.mp hnodup
    rcases List.mem_cons.mp hk with rfl | hk
    · rw [List.filter_cons_of_neg (by simp),List.filter_eq_self.mpr]
      intro c hc
      exact decide_eq_true fun he => hb (List.mem_map.mpr ⟨c,hc,he⟩)
    · have hne : b.1 ≠ bp := fun he => hb (he ▸ List.mem_map_of_mem (f := Prod.fst) hk)
      rw [List.filter_cons_of_pos (by simpa using hne)]
      exact ((ih hbs hk).cons b).trans (.swap _ _ _)

theorem joins_live (p bp : ℕ) : (joinLower (joinUpper h p bp) p bp).live = h.live ∧
    (joinLower (joinUpper h p bp) p bp).regions = h.regions ∧ (joinLower (joinUpper h p bp) p bp).brk = h.brk := by
  simp only [joinLower,joinUpper]
  split <;> split <;> exact ⟨rfl,rfl,rfl⟩

theorem Holds.tiles_put (hh : Holds l h (lo ++ hi)) (hk : (bp,k) ∈ h.live) {b : Block} {hi' : List Block}
    (hup : joinUp (bp,8*k) hi = b :: hi') :
    Tiles (joinDown lo b ++ hi' ++ (h.live.filter (·.1 ≠ bp)).map bytes) h.regions := by
  have hlive : (h.live.map bytes).Perm ((bp,8*k) :: (h.live.filter (·.1 ≠ bp)).map bytes) :=
    (perm_filter hh.live_nodup hk).map bytes
  have hswap : ∀ A B C : List Block, (A ++ (B ++ C)).Perm (B ++ A ++ C) := by
    intro A B C
    rw [← List.append_assoc]
    exact List.perm_append_comm.append_right C
  have hfirst : (lo ++ hi ++ h.live.map bytes).Perm
      ((bp,8*k) :: hi ++ (lo ++ (h.live.filter (·.1 ≠ bp)).map bytes)) := by
    exact (hlive.append_left _).trans (List.perm_middle.trans (.cons _ (hswap hi lo _).symm))
  have hjoined := (hh.tiles.perm hfirst).joinUp
  rw [hup] at hjoined
  have hsecond : (b :: hi' ++ (lo ++ (h.live.filter (·.1 ≠ bp)).map bytes)).Perm
      (lo ++ b :: (hi' ++ (h.live.filter (·.1 ≠ bp)).map bytes)) := by
    refine .trans (.cons _ ?_) List.perm_middle.symm
    exact (hswap hi' lo _).trans (by rw [List.append_assoc])
  have := (hjoined.perm hsecond).joinDown
  rwa [← List.append_assoc] at this

theorem mem_joinDown {c b : Block} (hc : c ∈ joinDown lo b) : ∃ d ∈ lo ++ [b], c.1 = d.1 := by
  simp only [joinDown] at hc
  split at hc
  · exact ⟨c,List.mem_append_right _ hc,rfl⟩
  · rename_i d hd
    obtain ⟨m,rfl⟩ := List.getLast?_eq_some_iff.mp hd
    split at hc
    · rw [List.dropLast_concat] at hc
      rcases List.mem_append.mp hc with hc | hc
      · exact ⟨c,by simp [hc],rfl⟩
      · cases List.mem_singleton.mp hc
        exact ⟨d,by simp,rfl⟩
    · exact ⟨c,hc,rfl⟩

theorem joinDown_covers {b : Block} (lo : List Block) : ∃ c ∈ joinDown lo b, b.2 ≤ c.2 := by
  simp only [joinDown]
  split
  · exact ⟨b,by simp,le_rfl⟩
  · rename_i c _
    split
    · exact ⟨(c.1,c.2+b.2),List.mem_append_right _ (by simp),Nat.le_add_left _ _⟩
    · exact ⟨b,by simp,le_rfl⟩

theorem length_joinDown (lo : List Block) (b : Block) : (joinDown lo b).length ≤ lo.length+1 := by
  simp only [joinDown]
  split
  · simp
  · split
    · simp
    · simp

theorem Holds.live_notMem {a : ℕ} (hh : Holds l h F) (hk : (a,k) ∈ h.live) : a ∉ l.base :: F.map Prod.fst := by
  intro hmem
  rcases List.mem_cons.mp hmem with he | hmem
  · have := hh.base_lt hk
    omega
  · obtain ⟨d,hd,he⟩ := List.mem_map.mp hmem
    have h1 := hh.apart hd hk
    have h2 := hh.tiles.pos d (List.mem_append_left _ hd)
    have h3 := hh.pos_live hk
    simp only [Apart] at h1
    omega

theorem Holds.aligned_put (hh : Holds l h (lo ++ hi)) (hk : (bp,k) ∈ h.live) {b : Block} {hi' : List Block}
    (hb : b.1 = bp) (hsuffix : hi' <:+ hi) (hgrid : ∀ r ∈ h.regions, 8 ∣ r.1) :
    ∀ c ∈ joinDown lo b ++ hi' ++ (h.live.filter (·.1 ≠ bp)).map bytes, 8 ∣ c.1 := by
  intro c hc
  have haligned := hh.aligned hgrid
  have hbp : 8 ∣ bp := haligned (bytes (bp,k)) (List.mem_append_right _ (List.mem_map_of_mem hk))
  have hF : ∀ d ∈ lo ++ hi, 8 ∣ d.1 := fun d hd => haligned d (List.mem_append_left _ hd)
  rcases List.mem_append.mp hc with hc | hc
  · rcases List.mem_append.mp hc with hc | hc
    · obtain ⟨d,hd,hcd⟩ := mem_joinDown hc
      rw [hcd]
      rcases List.mem_append.mp hd with hd | hd
      · exact hF d (List.mem_append_left _ hd)
      · rw [List.mem_singleton.mp hd,hb]
        exact hbp
    · exact hF c (List.mem_append_right _ (hsuffix.subset hc))
  · obtain ⟨d,hd,rfl⟩ := List.mem_map.mp hc
    exact haligned _ (List.mem_append_right _ (List.mem_map_of_mem (List.mem_filter.mp hd).1))

/-- A freed block is put where it belongs, and nothing else changes. -/
theorem free_spec (hh : Holds l h F) (hk : (bp,k) ∈ h.live) (hn : F.length+3 < n) :
    ∃ t F', free n h (bp+8) = .ok t ∧ Holds l t F' ∧ t.live = h.live.filter (·.1 ≠ bp) ∧ t.regions = h.regions ∧
      t.brk = h.brk ∧ (∃ b ∈ F', 8*k ≤ b.2) ∧ F'.length ≤ F.length+1 := by
  obtain ⟨lo,hi,rfl,hlo,hhi⟩ := hh.split hk
  have hbase := hh.base_lt hk
  have hpos := hh.pos_live hk
  have hpF : ∀ b ∈ lo ++ hi, 0 < b.2 := fun b hb => hh.tiles.pos b (List.mem_append_left _ hb)
  obtain ⟨init,p,hnodes⟩ : ∃ init p, l.base :: lo.map Prod.fst = init ++ [p] :=
    ⟨_,_,(List.dropLast_concat_getLast (List.cons_ne_nil _ _)).symm⟩
  have hall : l.base :: (lo ++ hi).map Prod.fst = init ++ p :: hi.map Prod.fst := by
    rw [List.map_append,← List.cons_append,hnodes]
    simp
  have hring := hh.ring
  have hasc := hh.ascending
  rw [hall] at hring hasc
  have hp : p < bp := by
    have hmem : p ∈ l.base :: lo.map Prod.fst := hnodes ▸ List.mem_append_right _ (by simp)
    rcases List.mem_cons.mp hmem with rfl | hmem
    · exact hbase
    · obtain ⟨b,hb,rfl⟩ := List.mem_map.mp hmem
      have h1 := hlo b hb
      have h2 := hpF b (List.mem_append_left _ hb)
      omega
  have habove : ∀ y ∈ hi.map Prod.fst, bp < y := by
    intro y hy
    obtain ⟨c,hc,rfl⟩ := List.mem_map.mp hy
    have := hhi c hc
    omega
  have hnot := hh.live_notMem hk
  obtain ⟨f,hf,hfreep⟩ := hh.freep
  have hspot : spot h bp n f = .ok p := by
    refine spot_ok hring ⟨_,hnodes.symm⟩ hasc hp habove (hall ▸ hf) ?_
    rw [← hall]
    simp only [List.length_cons,List.length_map]
    omega
  -- First the block above is joined, then the block below.
  obtain ⟨b,hi',hup,hb,hsize,hge,hsuffix,hhigh,hkeep⟩ := joinUpper_spec (p := p) hnot (hh.live _ hk)
    (hring.middle ⟨init,[],by simp⟩) (fun c hc => hh.sizes c (List.mem_append_right _ hc)) hbase
  have hpinit : p ∉ init := by
    intro hmem
    have := (List.pairwise_append.mp hasc).2.2 p hmem p (by simp)
    omega
  have hphi : p ∉ bp :: hi'.map Prod.fst := by
    intro hmem
    rcases List.mem_cons.mp hmem with he | hmem
    · omega
    · have := habove p ((hsuffix.map Prod.fst).subset hmem)
      omega
  have hne : ∀ x ∈ l.base :: (lo ++ hi).map Prod.fst, x ≠ bp := fun x hx he => hnot (he ▸ hx)
  obtain ⟨hring',hsizes',hzero',hp',hkeep'⟩ := joinLower_spec (h := joinUpper h p bp) hb hsize hnodes
    ((hring.middle ⟨[],hi.map Prod.fst ++ [l.base],by simp⟩ : Follows h.ptr (init ++ [p])).congr
      fun x hx => (hkeep x (hne x (by rw [hall]; simp [hx]))).1)
    hhigh (fun c hc => by
      rw [(hkeep c.1 (hne _ (List.mem_cons_of_mem _ (List.mem_map_of_mem (List.mem_append_left _ hc))))).2]
      exact hh.sizes c (List.mem_append_left _ hc))
    (by rw [(hkeep l.base (hne _ List.mem_cons_self)).2]; exact hh.base) hbase hpinit hphi
  obtain ⟨hlive,hregions,hbrk⟩ := joins_live (h := h) p bp
  have hpnode : p ∈ l.base :: (lo ++ hi).map Prod.fst := by rw [hall]; simp
  have hother : ∀ x, x ≠ p → x ≠ bp → (joinLower (joinUpper h p bp) p bp).size x = h.size x :=
    fun x hx hx' => (hkeep' x hx).2.trans (hkeep x hx').2
  have htiles := hh.tiles_put hk hup
  have hfree : free n h (bp+8) = .ok { joinLower (joinUpper h p bp) p bp with
      freep := some p, live := h.live.filter (·.1 ≠ bp) } := by
    simp only [free,Nat.add_sub_cancel,hfreep,hspot,hlive]
  refine ⟨_,joinDown lo b ++ hi',hfree,⟨hring',?_,hzero',?_,?_,?_,?_,?_,?_,?_⟩,rfl,hregions,hbrk,?_,?_⟩
  · intro c hc
    rcases List.mem_append.mp hc with hc | hc
    · exact hsizes' c hc
    · have hc1 : c ∈ hi := hsuffix.subset hc
      have hcp : c.1 ≠ p := fun he => hphi (he ▸ List.mem_cons_of_mem _ (List.mem_map_of_mem (f := Prod.fst) hc))
      have hcb := hne c.1 (List.mem_cons_of_mem _ (List.mem_map_of_mem (List.mem_append_right _ hc1)))
      rw [hother c.1 hcp hcb]
      exact hh.sizes c (List.mem_append_right _ hc1)
  · have hsep := List.pairwise_append.mp hh.separate
    have hupsep : Separate (joinUp (bp,8*k) hi) := Separate.joinUp hsep.2.1 hhi
    rw [hup] at hupsep
    exact Separate.joinDown hsep.1 hupsep (hb ▸ hlo)
  · rw [hregions]
    exact htiles
  · intro c hc
    obtain ⟨hc1,hc2⟩ := List.mem_filter.mp hc
    have hcb : c.1 ≠ bp := by simpa using hc2
    have hcp : c.1 ≠ p := fun he => hh.live_notMem hc1 (he ▸ hpnode)
    rw [hother c.1 hcp hcb]
    exact hh.live c hc1
  · rw [hregions,hbrk]
    exact hh.regions
  · rw [hbrk]
    exact hh.brk
  · intro hgrid
    exact hh.aligned_put hk hb hsuffix (hregions ▸ hgrid)
  · refine ⟨p,?_,rfl⟩
    rw [List.map_append]
    exact List.mem_append_left _ hp'
  · obtain ⟨c,hc,hle⟩ := joinDown_covers (b := b) lo
    exact ⟨c,List.mem_append_left _ hc,hge.trans hle⟩
  · have h1 := length_joinDown lo b
    have h2 := hsuffix.length_le
    simp only [List.length_append]
    omega

end Free

end Xv6.Umalloc
