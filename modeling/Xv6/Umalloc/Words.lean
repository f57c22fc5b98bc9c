import Xv6.Library.Program
import Xv6.Umalloc.Machine

/-! # The allocator in machine words and on natural numbers

As long as every request stays below what `sbrk` takes for a negative number, nothing wraps: the
allocator in machine words computes what the one on natural numbers does.
-/
namespace Xv6.Umalloc.Machine
open CircularList Tiling Program Function
variable {l : Layout} {s u : State} {h t : Heap} {F : List Block} {x r k n : ℕ} {bp p prevp nunits : Word}

structure Sim (s : State) (h : Heap) : Prop where
  ptr : ∀ a : Word, (s.ptr a).toNat = h.ptr a.toNat
  size : ∀ a : Word, (s.size a).toNat = h.size a.toNat
  freep : h.freep = if s.freep = 0 then none else some s.freep.toNat
  brk : h.brk ≤ s.sz.toNat
  fits : s.sz.toNat ≤ 0xE000000

section Memory
variable {a : Word}

-- A header inside the process can be read and written.

theorem State.le_top (s : State) : s.sz.toNat ≤ s.top := by
  unfold State.top
  omega

theorem ptrOf_eq (h : a.toNat+8 ≤ s.sz.toNat) : s.ptrOf a = .ok (s.ptr a) :=
  if_pos (by have := s.le_top; omega)

theorem sizeOf_eq (h : a.toNat+8 ≤ s.sz.toNat) : s.sizeOf a = .ok (s.size a) :=
  if_pos (h.trans s.le_top)

theorem setPtr_eq (h : a.toNat+8 ≤ s.sz.toNat) (v : Word) : s.setPtr a v = .ok { s with ptr := update s.ptr a v } :=
  if_pos (by have := s.le_top; omega)

theorem setSize_eq (h : a.toNat+8 ≤ s.sz.toNat) (v : Word) : s.setSize a v = .ok { s with size := update s.size a v } :=
  if_pos (h.trans s.le_top)

end Memory

section Nodes

theorem next_mem (hh : Holds l h F) (hx : x ∈ l.base :: F.map Prod.fst) : h.ptr x ∈ l.base :: F.map Prod.fst := by
  obtain ⟨A,B,hsplit⟩ := hh.ring.succ hx
  have hmem : h.ptr x ∈ l.base :: F.map Prod.fst ++ [l.base] := by
    rw [hsplit]
    simp
  rcases List.mem_append.mp hmem with hmem | hmem
  · exact hmem
  · rw [List.mem_singleton.mp hmem]
    exact List.mem_cons_self

theorem node_le (hh : Holds l h F) (hx : x ∈ l.base :: F.map Prod.fst) : x+8*h.size x ≤ h.brk := by
  rcases List.mem_cons.mp hx with rfl | hx
  · have := hh.brk
    rw [hh.base]
    omega
  · obtain ⟨b,hb,rfl⟩ := List.mem_map.mp hx
    have hle := hh.tiles.le_top (fun r hr => (hh.regions r hr).2) (List.mem_append_left _ hb)
    rw [← hh.sizes b hb]
    exact hle

theorem node_inside (hs : Sim s h) (hh : Holds l h F) (hx : x ∈ l.base :: F.map Prod.fst) : x+8 ≤ s.sz.toNat := by
  refine le_trans ?_ hs.brk
  rcases List.mem_cons.mp hx with rfl | hx
  · exact hh.brk
  · obtain ⟨b,hb,rfl⟩ := List.mem_map.mp hx
    have hle := hh.tiles.le_top (fun r hr => (hh.regions r hr).2) (List.mem_append_left _ hb)
    have hpos := hh.tiles.pos b (List.mem_append_left _ hb)
    have hsize := hh.sizes b hb
    omega

theorem live_le (hh : Holds l h F) (hk : (x,k) ∈ h.live) : x+8*h.size x ≤ h.brk := by
  have hle := hh.tiles.le_top (fun r hr => (hh.regions r hr).2)
    (List.mem_append_right F (List.mem_map_of_mem (f := bytes) hk))
  rw [hh.live _ hk]
  exact hle

theorem live_notNode (hh : Holds l h F) (hk : (x,k) ∈ h.live) : x ∉ l.base :: F.map Prod.fst := by
  have hbase := hh.base_lt hk
  have hpos := hh.pos_live hk
  intro hx
  rcases List.mem_cons.mp hx with rfl | hx
  · omega
  · obtain ⟨b,hb,rfl⟩ := List.mem_map.mp hx
    have hapart := hh.apart hb hk
    have := hh.tiles.pos b (List.mem_append_left _ hb)
    simp only [Apart] at hapart
    omega

theorem spot_mem (hh : Holds l h F) (hx : x ∈ l.base :: F.map Prod.fst) {b : ℕ} (hr : Umalloc.spot h b n x = .ok r) :
    r ∈ l.base :: F.map Prod.fst := by
  induction n generalizing x with
  | zero => cases hr
  | succ n ih =>
    rw [Umalloc.spot] at hr
    split_ifs at hr
    · cases hr
      exact hx
    · cases hr
      exact hx
    · exact ih (next_mem hh hx) hr

theorem spot_mono {b : ℕ} (hr : Umalloc.spot h b n x = .ok r) (k : ℕ) : Umalloc.spot h b (n+k) x = .ok r := by
  induction n generalizing x with
  | zero => cases hr
  | succ n ih =>
    rw [Nat.add_right_comm,Umalloc.spot]
    rw [Umalloc.spot] at hr
    split_ifs at hr ⊢
    · exact hr
    · exact hr
    · exact ih hr

end Nodes

section Free

theorem toNat_update {f : Word → Word} {g : ℕ → ℕ} (hfg : ∀ a, (f a).toNat = g a.toNat) {v : Word} {y : ℕ} (w : Word)
    (hv : v.toNat = y) (a : Word) : (Function.update f w v a).toNat = Function.update g w.toNat y a.toNat := by
  by_cases ha : a = w
  · rw [ha,update_self,update_self,hv]
  · rw [update_of_ne ha,update_of_ne (fun he => ha (BitVec.eq_of_toNat_eq he)),hfg]

theorem spot_sim (hs : Sim s h) (hh : Holds l h F) (n : ℕ) (hp : p.toNat ∈ l.base :: F.map Prod.fst) :
    Umalloc.spot h bp.toNat n p.toNat = (spot s bp n p).map BitVec.toNat := by
  induction n generalizing p with
  | zero => rfl
  | succ n ih =>
    have hnext : (s.ptr p).toNat ∈ l.base :: F.map Prod.fst := by
      rw [hs.ptr]
      exact next_mem hh hp
    rw [Umalloc.spot,spot,ptrOf_eq (node_inside hs hh hp),ok_bind,← hs.ptr p]
    simp only [BitVec.lt_def,BitVec.le_def]
    split_ifs
    · rfl
    · rfl
    · exact ih hnext

theorem toNat_after {a w : Word} (hlt : a.toNat+8*w.toNat < 2^32) : (a+8*w).toNat = a.toNat+8*w.toNat := by
  rw [BitVec.toNat_add,BitVec.toNat_mul]
  change (a.toNat+8*w.toNat%2^32)%2^32 = _
  omega

theorem joinUpper_sim (hs : Sim s h) (hinside : bp.toNat+8 ≤ s.sz.toNat) (hpin : p.toNat+8 ≤ s.sz.toNat)
    (hqin : h.ptr p.toNat+8 ≤ s.sz.toNat) (hbp : bp.toNat+8*h.size bp.toNat < 2^31)
    (hnext : 8*h.size (h.ptr p.toNat) < 2^31) : ∃ u, joinUpper s p bp = .ok u ∧
      Sim u (Umalloc.joinUpper h p.toNat bp.toNat) ∧ u.live = s.live ∧ u.sz = s.sz := by
  have hafter : (bp+8*s.size bp).toNat = bp.toNat+8*h.size bp.toNat := by
    rw [← hs.size bp] at hbp ⊢
    exact toNat_after (by omega)
  have hiff : bp+8*s.size bp = s.ptr p ↔ bp.toNat+8*h.size bp.toNat = h.ptr p.toNat := by
    rw [← BitVec.toNat_inj,hafter,hs.ptr p]
  rw [← hs.ptr p] at hqin
  rw [joinUpper,sizeOf_eq hinside,ok_bind,ptrOf_eq hpin,ok_bind]
  by_cases heq : bp+8*s.size bp = s.ptr p
  · rw [if_pos heq,sizeOf_eq hqin,ok_bind,setSize_eq hinside,ok_bind,ptrOf_eq (by exact hqin),ok_bind,
      setPtr_eq (by exact hinside),Umalloc.joinUpper,if_pos (hiff.mp heq)]
    refine ⟨_,rfl,⟨toNat_update hs.ptr bp ?_,toNat_update hs.size bp ?_,hs.freep,hs.brk,hs.fits⟩,rfl,rfl⟩
    · rw [hs.ptr,hs.ptr]
    · rw [BitVec.toNat_add,hs.size,hs.size,hs.ptr]
      omega
  · rw [if_neg heq,setPtr_eq hinside,Umalloc.joinUpper,if_neg (fun he => heq (hiff.mpr he))]
    exact ⟨_,rfl,⟨toNat_update hs.ptr bp (hs.ptr p),hs.size,hs.freep,hs.brk,hs.fits⟩,rfl,rfl⟩

theorem joinLower_sim (hs : Sim s h) (hinside : bp.toNat+8 ≤ s.sz.toNat) (hpin : p.toNat+8 ≤ s.sz.toNat)
    (hp : p.toNat+8*h.size p.toNat < 2^31) (hbp : 8*h.size bp.toNat < 2^32) : ∃ u, joinLower s p bp = .ok u ∧
      Sim u (Umalloc.joinLower h p.toNat bp.toNat) ∧ u.live = s.live ∧ u.sz = s.sz := by
  have hafter : (p+8*s.size p).toNat = p.toNat+8*h.size p.toNat := by
    rw [← hs.size p] at hp ⊢
    exact toNat_after (by omega)
  have hiff : p+8*s.size p = bp ↔ p.toNat+8*h.size p.toNat = bp.toNat := by
    rw [← BitVec.toNat_inj,hafter]
  rw [joinLower,sizeOf_eq hpin,ok_bind]
  by_cases heq : p+8*s.size p = bp
  · rw [if_pos heq,sizeOf_eq hinside,ok_bind,setSize_eq hpin,ok_bind,ptrOf_eq (by exact hinside),ok_bind,
      setPtr_eq (by exact hpin),Umalloc.joinLower,if_pos (hiff.mp heq)]
    refine ⟨_,rfl,⟨toNat_update hs.ptr p (hs.ptr bp),toNat_update hs.size p ?_,hs.freep,hs.brk,hs.fits⟩,rfl,rfl⟩
    rw [BitVec.toNat_add,hs.size,hs.size]
    omega
  · rw [if_neg heq,setPtr_eq hpin,Umalloc.joinLower,if_neg (fun he => heq (hiff.mpr he))]
    exact ⟨_,rfl,⟨toNat_update hs.ptr p rfl,hs.size,hs.freep,hs.brk,hs.fits⟩,rfl,rfl⟩

theorem size_joinUpper (hne : x ≠ r) : (Umalloc.joinUpper h k x).size r = h.size r := by
  rw [Umalloc.joinUpper]
  split
  · exact update_of_ne hne.symm _ _
  · rfl

theorem size_joinUpper_le : (Umalloc.joinUpper h k x).size x ≤ h.size x+h.size (h.ptr k) := by
  rw [Umalloc.joinUpper]
  split
  · exact (update_self _ _ _).le
  · exact Nat.le_add_right _ _

theorem node_ne_zero (hh : Holds l h F) (hbase : l.base ≠ 0) (hx : x ∈ l.base :: F.map Prod.fst) : x ≠ 0 := by
  rcases List.mem_cons.mp hx with rfl | hx
  · exact hbase
  · obtain ⟨b,hb,rfl⟩ := List.mem_map.mp hx
    exact Nat.ne_zero_of_lt (hh.lt_base (List.mem_append_left _ hb))

theorem freep_eq (hs : Sim s h) (hh : Holds l h F) :
    s.freep ≠ 0 ∧ h.freep = some s.freep.toNat ∧ s.freep.toNat ∈ l.base :: F.map Prod.fst := by
  obtain ⟨f,hf,hfreep⟩ := hh.freep
  have hsim := hs.freep
  rw [hfreep] at hsim
  split_ifs at hsim with hzero
  cases hsim
  exact ⟨hzero,hfreep,hf⟩

theorem free_sim (hs : Sim s h) (hh : Holds l h F) (hbase : l.base ≠ 0) {ap : Word} (hap : ap-8 = bp)
    (hk : (bp.toNat,k) ∈ h.live) (hfree : Umalloc.free n h (bp.toNat+8) = .ok t) :
    ∃ u, free n s ap = .ok u ∧ Sim u t ∧ u.live = s.live.filter (·.1 ≠ ap) ∧ u.sz = s.sz := by
  obtain ⟨hzero,hfreep,hf⟩ := freep_eq hs hh
  have hbrk := hs.brk
  have hfits := hs.fits
  simp only [Umalloc.free,hfreep,Nat.add_sub_cancel,spot_sim hs hh n hf] at hfree
  cases hspot : spot s bp n s.freep with
  | error e =>
    rw [hspot] at hfree
    cases hfree
  | ok p =>
    have hp : p.toNat ∈ l.base :: F.map Prod.fst := by
      refine spot_mem hh hf (b := bp.toNat) (n := n) ?_
      rw [spot_sim hs hh n hf,hspot]
      rfl
    have hpbp : bp.toNat ≠ p.toNat := fun he => live_notNode hh hk (he ▸ hp)
    have hnext := node_le hh (next_mem hh hp)
    have hplow := node_le hh hp
    have hblow := live_le hh hk
    have hinside : bp.toNat+8 ≤ s.sz.toNat := by
      have hpos := hh.pos_live hk
      have hsize : h.size bp.toNat = k := hh.live _ hk
      omega
    have hpin := node_inside hs hh hp
    obtain ⟨u,hu,hupper,hulive,husz⟩ := joinUpper_sim hs hinside hpin (node_inside hs hh (next_mem hh hp))
      (by omega) (by omega)
    obtain ⟨v,hv,hlower,hvlive,hvsz⟩ := joinLower_sim hupper (by rw [husz]; exact hinside) (by rw [husz]; exact hpin)
      (by rw [size_joinUpper hpbp]; omega)
      (by have := size_joinUpper_le (h := h) (k := p.toNat) (x := bp.toNat); omega)
    rw [hspot] at hfree
    cases hfree
    refine ⟨{ v with freep := p, live := v.live.filter (·.1 ≠ ap) },?_,
      ⟨hlower.ptr,hlower.size,?_,hlower.brk,hlower.fits⟩,by rw [hvlive,hulive],hvsz.trans husz⟩
    · rw [free,hap,if_neg hzero,hspot,ok_bind,hu,ok_bind,hv,ok_bind]
    · have hp0 : p ≠ 0 := by
        rintro rfl
        exact node_ne_zero hh hbase hp rfl
      exact (if_neg hp0).symm

theorem free_holds (hh : Holds l h F) (hk : (x,k) ∈ h.live) (hfree : Umalloc.free n h (x+8) = .ok t) :
    ∃ F', Holds l t F' ∧ t.live = h.live.filter (·.1 ≠ x) := by
  obtain ⟨t',F',hrun,ht,hlive,_⟩ := free_spec hh hk (show F.length+3 < n+(F.length+4) by omega)
  obtain ⟨f,_,hf⟩ := hh.freep
  simp only [Umalloc.free,hf,Nat.add_sub_cancel] at hfree hrun
  cases hspot : Umalloc.spot h x n f with
  | error e =>
    rw [hspot] at hfree
    cases hfree
  | ok p =>
    rw [hspot] at hfree
    rw [spot_mono hspot] at hrun
    cases hfree
    cases hrun
    exact ⟨F',ht,hlive⟩

end Free

section Malloc

theorem growproc_cases {sz w : Word} (hsz : sz.toNat ≤ 0xE000000) (hpos : 0 < w.toNat) (hw : w.toNat < 2^31) (frames : Bool) :
    growproc sz w frames = none ∨
      ∃ v, growproc sz w frames = some v ∧ v.toNat = sz.toNat+w.toNat ∧ v.toNat ≤ 0xE000000 := by
  have hint : 0 < w.toInt := by
    rw [BitVec.toInt_eq_toNat_of_lt (by omega)]
    omega
  have hsum : (sz+w).toNat = sz.toNat+w.toNat := by
    rw [BitVec.toNat_add]
    omega
  rw [growproc,if_pos hint]
  by_cases hzero : allocuvm sz (sz+w) frames = 0
  · exact .inl (if_pos hzero)
  · refine .inr ⟨sz+w,?_,hsum,?_⟩
    all_goals
      rw [allocuvm] at hzero
      split_ifs at hzero with hkern hlt hmem
      · exact absurd rfl hzero
      · rw [BitVec.lt_def,hsum] at hlt
        omega
      · first
          | rw [allocuvm,if_neg hkern,if_neg hlt,if_pos hmem,if_neg hzero]
          | exact BitVec.le_def.mp hmem.2
      · exact absurd rfl hzero

theorem morecore_sim (hs : Sim s h) (hh : Holds l h F) (hbase : l.base ≠ 0) (hunits : 8*nunits.toNat < 2^31)
    (hlive : ∀ b ∈ s.live, b.1.toNat ≤ s.sz.toNat) (n : ℕ) (frames : Bool) :
    ∃ answer, ∀ t r, Umalloc.morecore n h nunits.toNat answer = .ok (t,r) →
      ∃ u v, morecore n s nunits frames = .ok (u,v) ∧ Sim u t ∧ v.map BitVec.toNat = r ∧ u.live = s.live ∧
        s.sz ≤ u.sz ∧ (∀ f ∈ v, f = u.freep) ∧ ∃ F', Holds l t F' := by
  obtain ⟨nu,hnu⟩ : ∃ nu, nu = if nunits < 4096 then 4096 else nunits := ⟨_,rfl⟩
  have hnuNat : nu.toNat = if nunits.toNat < 4096 then 4096 else nunits.toNat := by
    have hiff : nunits < 4096 ↔ nunits.toNat < 4096 := BitVec.lt_def
    rw [hnu]
    by_cases hlt : nunits < 4096
    · rw [if_pos hlt,if_pos (hiff.mp hlt)]
      rfl
    · rw [if_neg hlt,if_neg (fun hlt' => hlt (hiff.mpr hlt'))]
  have hbounds : 0 < nu.toNat ∧ 8*nu.toNat < 2^31 := by
    rw [hnuNat]
    split_ifs <;> omega
  have hmul : (nu*8).toNat = nu.toNat*8 := by
    rw [BitVec.toNat_mul]
    change nu.toNat*8%2^32 = _
    omega
  rcases growproc_cases hs.fits (w := nu*8) (by omega) (by omega) frames with hnone | ⟨v,hgrow,hv,hvfits⟩
  · refine ⟨none,fun t r hrun => ?_⟩
    cases hrun
    refine ⟨s,none,?_,hs,rfl,rfl,BitVec.le_refl _,by simp,F,hh⟩
    simp only [morecore,← hnu,sbrk,hnone,↓reduceIte]
  · obtain ⟨gap,hgap⟩ := Nat.exists_eq_add_of_le hs.brk
    refine ⟨some gap,fun t r hrun => ?_⟩
    have hfits := hs.fits
    have hfresh := hh.fresh gap hbounds.1
    rw [← hgap] at hfresh
    have hsim : Sim { s with sz := v, size := update s.size s.sz nu }
        { h with
          brk := s.sz.toNat+8*nu.toNat
          regions := (s.sz.toNat,8*nu.toNat) :: h.regions
          size := update h.size s.sz.toNat nu.toNat
          live := (s.sz.toNat,nu.toNat) :: h.live } := by
      refine ⟨hs.ptr,toNat_update hs.size s.sz rfl,hs.freep,?_,hvfits⟩
      simp only
      omega
    simp only [Umalloc.morecore,← hnuNat,Umalloc.sbrk,← hgap,Nat.mul_comm nu.toNat 8] at hrun
    cases hfree : Umalloc.free n { h with
        brk := s.sz.toNat+8*nu.toNat
        regions := (s.sz.toNat,8*nu.toNat) :: h.regions
        size := update h.size s.sz.toNat nu.toNat
        live := (s.sz.toNat,nu.toNat) :: h.live } (s.sz.toNat+8) with
    | error e =>
      rw [hfree] at hrun
      cases hrun
    | ok t' =>
      rw [hfree] at hrun
      cases hrun
      obtain ⟨u,hu,hut,hulive,husz⟩ := free_sim hsim hfresh hbase (BitVec.add_sub_cancel s.sz 8)
        List.mem_cons_self hfree
      obtain ⟨F',hF',_⟩ := free_holds hfresh List.mem_cons_self hfree
      refine ⟨u,some u.freep,?_,hut,?_,?_,?_,by simp,F',hF'⟩
      · have hne : s.sz ≠ -1 := by
          rintro he
          rw [he] at hfits
          exact absurd hfits (by decide)
        have hset : State.setSize { s with sz := v } s.sz nu = .ok { s with sz := v, size := update s.size s.sz nu } :=
          setSize_eq (by dsimp only; omega) nu
        simp only [morecore,← hnu,sbrk,hgrow,if_neg hne,hset,ok_bind,hu]
      · rw [(freep_eq hut hF').2.1]
        rfl
      · rw [hulive]
        refine List.filter_eq_self.mpr fun b hb => ?_
        have hb1 := hlive b hb
        refine decide_eq_true fun he => ?_
        rw [he,BitVec.toNat_add] at hb1
        change (s.sz.toNat+8)%2^32 ≤ _ at hb1
        omega
      · rw [husz,BitVec.le_def]
        simp only
        omega

theorem take_sim (hs : Sim s h) (hh : Holds l h F) (hbase : l.base ≠ 0) (hprev : prevp.toNat ∈ l.base :: F.map Prod.fst)
    (hp : p.toNat ∈ l.base :: F.map Prod.fst) (hpos : 0 < nunits.toNat) (hsize : nunits.toNat ≤ h.size p.toNat) :
    ∃ u r, take s nunits prevp p = .ok (u,some r) ∧ Sim u (Umalloc.take h nunits.toNat prevp.toNat p.toNat).1 ∧
      r.toNat = (Umalloc.take h nunits.toNat prevp.toNat p.toNat).2 ∧ u.live = s.live := by
  have hle := node_le hh hp
  have hbrk := hs.brk
  have hfits := hs.fits
  have hpin := node_inside hs hh hp
  have hprev0 : prevp ≠ 0 := by
    rintro rfl
    exact node_ne_zero hh hbase hprev rfl
  have hiff : s.size p = nunits ↔ h.size p.toNat = nunits.toNat := by
    rw [← BitVec.toNat_inj,hs.size]
  have h8 : ∀ q : Word, q.toNat < 2^31 → (q+8).toNat = q.toNat+8 := by
    intro q hq
    rw [BitVec.toNat_add]
    change (q.toNat+8)%2^32 = _
    omega
  rw [take,sizeOf_eq hpin,ok_bind]
  by_cases heq : s.size p = nunits
  · rw [if_pos heq,ptrOf_eq hpin,ok_bind,setPtr_eq (node_inside hs hh hprev),ok_bind,Umalloc.take,if_pos (hiff.mp heq)]
    exact ⟨_,_,rfl,⟨toNat_update hs.ptr prevp (hs.ptr p),hs.size,(if_neg hprev0).symm,hs.brk,hs.fits⟩,h8 p (by omega),rfl⟩
  · have hrest : (s.size p-nunits).toNat = h.size p.toNat-nunits.toNat := by
      rw [← hs.size p] at hsize ⊢
      exact BitVec.toNat_sub_of_le hsize
    have hq : (p+8*(s.size p-nunits)).toNat = p.toNat+8*(h.size p.toNat-nunits.toNat) := by
      rw [toNat_after,hrest]
      rw [hrest]
      omega
    rw [if_neg heq,setSize_eq hpin,ok_bind]
    dsimp only
    rw [setSize_eq (by dsimp only; omega),ok_bind,Umalloc.take,if_neg (fun he => heq (hiff.mpr he))]
    refine ⟨_,_,rfl,⟨hs.ptr,?_,(if_neg hprev0).symm,hs.brk,hs.fits⟩,?_,rfl⟩
    · dsimp only
      rw [← hq]
      exact toNat_update (toNat_update hs.size p hrest) _ rfl
    · rw [h8 _ (by omega),hq]

/-- The loop of `malloc` does the same to both heaps, with the answers that the kernel gives. -/
theorem search_sim (hbase : l.base ≠ 0) (hpos : 0 < nunits.toNat) (hunits : 8*nunits.toNat < 2^31) (n : ℕ) :
    ∀ (s : State) (h : Heap) (F : List Block) (frames : List Bool) (prevp p : Word), Sim s h → Holds l h F →
      prevp.toNat ∈ l.base :: F.map Prod.fst → p.toNat ∈ l.base :: F.map Prod.fst →
      (∀ b ∈ s.live, b.1.toNat ≤ s.sz.toNat) →
      ∃ answers, ∀ t r, Umalloc.search nunits.toNat n h answers prevp.toNat p.toNat = .ok (t,r) →
        ∃ u v, search nunits n s frames prevp p = .ok (u,v) ∧ Sim u t ∧ v.map BitVec.toNat = r ∧ u.live = s.live := by
  induction n with
  | zero =>
    intro s h F frames prevp p _ _ _ _ _
    refine ⟨[],fun t r hrun => ?_⟩
    cases hrun
  | succ n ih =>
    intro s h F frames prevp p hs hh hprev hp hlive
    rw [search,sizeOf_eq (node_inside hs hh hp),ok_bind]
    by_cases hsize : nunits ≤ s.size p
    · have hsizeN : nunits.toNat ≤ h.size p.toNat := by
        rw [← hs.size p]
        exact hsize
      obtain ⟨u,v,htake,hsim,hret,hulive⟩ := take_sim hs hh hbase hprev hp hpos hsizeN
      refine ⟨[],fun t r hrun => ?_⟩
      rw [Umalloc.search,if_pos hsizeN] at hrun
      cases hrun
      exact ⟨u,some v,by rw [if_pos hsize,htake],hsim,congrArg some hret,hulive⟩
    · have hsizeN : ¬ nunits.toNat ≤ h.size p.toNat := by
        rw [← hs.size p]
        exact hsize
      obtain ⟨hzero,hfreep,hf⟩ := freep_eq hs hh
      by_cases hpf : p = s.freep
      · obtain ⟨answer,hmore⟩ := morecore_sim hs hh hbase hunits hlive n (frames.headD false)
        cases hmc : Umalloc.morecore n h nunits.toNat answer with
        | error e =>
          refine ⟨[answer],fun t r hrun => ?_⟩
          rw [Umalloc.search,if_neg hsizeN,if_pos (by rw [hfreep,hpf]),List.headD_cons,hmc] at hrun
          cases hrun
        | ok tr =>
          obtain ⟨t',r'⟩ := tr
          obtain ⟨u,v,hmu,hsim,hv,hulive,husz,hvf,F',hF'⟩ := hmore t' r' hmc
          cases v with
          | none =>
            cases hv
            refine ⟨[answer],fun t r hrun => ?_⟩
            rw [Umalloc.search,if_neg hsizeN,if_pos (by rw [hfreep,hpf]),List.headD_cons,hmc] at hrun
            cases hrun
            exact ⟨u,none,by rw [if_neg hsize,if_pos hpf,hmu]; rfl,hsim,rfl,hulive⟩
          | some f =>
            cases hvf f rfl
            cases hv
            obtain ⟨_,_,hg⟩ := freep_eq hsim hF'
            have hnext : (u.ptr u.freep).toNat ∈ l.base :: F'.map Prod.fst := by
              rw [hsim.ptr]
              exact next_mem hF' hg
            obtain ⟨answers,hrest⟩ := ih u t' F' frames.tail u.freep (u.ptr u.freep) hsim hF' hg hnext
              (fun b hb => (hlive b (hulive ▸ hb)).trans husz)
            refine ⟨answer :: answers,fun t r hrun => ?_⟩
            rw [Umalloc.search,if_neg hsizeN,if_pos (by rw [hfreep,hpf]),List.headD_cons,hmc] at hrun
            simp only [Option.map_some,List.tail_cons,← hsim.ptr] at hrun
            obtain ⟨w,z,hw,hwt,hz,hwlive⟩ := hrest t r hrun
            refine ⟨w,z,?_,hwt,hz,hwlive.trans hulive⟩
            rw [if_neg hsize,if_pos hpf,hmu,ok_bind]
            dsimp only
            rw [ptrOf_eq (node_inside hsim hF' hg)]
            exact hw
      · have hnext : (s.ptr p).toNat ∈ l.base :: F.map Prod.fst := by
          rw [hs.ptr]
          exact next_mem hh hp
        obtain ⟨answers,hrest⟩ := ih s h F frames p (s.ptr p) hs hh hp hnext hlive
        refine ⟨answers,fun t r hrun => ?_⟩
        have hne : ¬ h.freep = some p.toNat := by
          rw [hfreep]
          exact fun he => hpf (BitVec.eq_of_toNat_eq (Option.some.inj he).symm)
        rw [Umalloc.search,if_neg hsizeN,if_neg hne,← hs.ptr] at hrun
        rw [if_neg hsize,if_neg hpf,ptrOf_eq (node_inside hs hh hp)]
        exact hrest t r hrun

end Malloc

end Xv6.Umalloc.Machine
