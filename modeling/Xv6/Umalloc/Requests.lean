import Xv6.Umalloc.Words
import Xv6.Vm.Growth

/-! # Requests of any size

The block that `malloc` returns has room for the bytes asked for, as long as no request comes near
half of the address space. A larger request makes the number of units or of bytes wrap.
-/
namespace Xv6.Umalloc.Machine
open Tiling Program Runs Function
variable {i : Image} {s u : State} {nbytes nunits p prevp : Word} {frames : List Bool} {n : ℕ}

/-- The requests are small enough, a pointer to be freed is in use, a store changes headers inside a block,
and the program's own `sbrk` does not shrink the process. -/
def Allowed (s : State) : Action → Prop
  | .malloc nbytes _ => nbytes.toNat ≤ 2^31-16
  | .free ap => ∃ b ∈ s.live, ap = b.1
  | .store a _ _ => ∃ b ∈ s.live, b.1.toNat < a.toNat+8 ∧ a.toNat < b.1.toNat+b.2
  | .grow n _ => n.toNat < 2^31

def Step (i : Image) (s : State) (a : Action) (t : State) : Prop := Allowed s a ∧ ∃ p, next i s a = .ok (t,p)

/-- The bytes from `p` on lie inside the process that `u` describes, apart from the blocks in use. -/
def Fits (s u : State) (p nbytes : Word) : Prop :=
  p.toNat+nbytes.toNat ≤ u.sz.toNat ∧
    ∀ b ∈ s.live, p.toNat+nbytes.toNat ≤ b.1.toNat ∨ b.1.toNat+b.2 ≤ p.toNat

section Invariant

def Image.layout (i : Image) : Layout := ⟨i.base.toNat,i.sz.toNat,i.below⟩

def block (b : Word × ℕ) : ℕ × ℕ := (b.1.toNat-8,(b.2+7)/8+1)

structure Behaves (i : Image) (s : State) (h : Heap) : Prop where
  sim : Sim s h
  heap : Unused i.layout h ∨ ∃ F, Holds i.layout h F
  live : h.live = s.live.map block
  pointers : ∀ b ∈ s.live, 8 ≤ b.1.toNat

variable {h t : Heap}

theorem base_ne_zero (i : Image) : i.layout.base ≠ 0 := by
  intro hzero
  exact i.nonnull (BitVec.eq_of_toNat_eq hzero)

theorem Behaves.mem (hb : Behaves i s h) {b : Word × ℕ} (hmem : b ∈ s.live) : block b ∈ h.live := by
  rw [hb.live]
  exact List.mem_map_of_mem hmem

theorem Behaves.holds (hb : Behaves i s h) {b : Word × ℕ} (hmem : b ∈ s.live) : ∃ F, Holds i.layout h F := by
  rcases hb.heap with hu | hh
  · have := hb.mem hmem
    rw [hu.live] at this
    cases this
  · exact hh

theorem block_le {F : List Block} (hsim : Sim s h) (hh : Holds i.layout h F) {b : Word × ℕ} (hmem : block b ∈ h.live)
    (hb : 8 ≤ b.1.toNat) : b.1.toNat+b.2 ≤ s.sz.toNat := by
  have hle := live_le hh hmem
  have hbrk := hsim.brk
  have hsize : h.size (b.1.toNat-8) = (b.2+7)/8+1 := hh.live _ hmem
  rw [hsize] at hle
  omega

theorem Behaves.le_sz (hb : Behaves i s h) {b : Word × ℕ} (hmem : b ∈ s.live) : b.1.toNat+b.2 ≤ s.sz.toNat := by
  obtain ⟨F,hh⟩ := hb.holds hmem
  exact block_le hb.sim hh (hb.mem hmem) (hb.pointers b hmem)

theorem boot_behaves (i : Image) (ptr size : Word → Word) : ∃ h, Behaves i (boot i ptr size) h := by
  refine ⟨⟨fun a => (ptr (.ofNat 32 a)).toNat,fun a => (size (.ofNat 32 a)).toNat,none,i.sz.toNat,[],[]⟩,
    ⟨fun a => ?_,fun a => ?_,rfl,le_rfl,BitVec.le_def.mp i.fits⟩,.inl ⟨rfl,rfl,rfl,rfl⟩,rfl,by simp [boot]⟩
  · simp only [boot,BitVec.ofNat_toNat,BitVec.setWidth_eq]
  · simp only [boot,BitVec.ofNat_toNat,BitVec.setWidth_eq]

theorem toNat_units (hn : nbytes.toNat ≤ 2^31-16) : (units nbytes).toNat = (nbytes.toNat+7)/8+1 := by
  have hsub : nbytes+8-1 = nbytes+7 := by
    rw [BitVec.sub_eq_add_neg,BitVec.add_assoc]
    rfl
  rw [units,hsub,BitVec.toNat_add,BitVec.toNat_udiv,BitVec.toNat_add]
  change (((nbytes.toNat+7)%2^32)/8+1)%2^32 = _
  omega

end Invariant

section Calls
variable {h t : Heap} {F : List Block}

theorem search_behaves (hsim : Sim s h) (hh : Holds i.layout h F) (hfuel : 2*F.length+8 ≤ n)
    (hlive : h.live = s.live.map block) (hpointers : ∀ b ∈ s.live, 8 ≤ b.1.toNat) (hn : nbytes.toNat ≤ 2^31-16)
    (frames : List Bool) :
    ∃ u v t, search (units nbytes) n s frames s.freep (s.ptr s.freep) = .ok (u,v) ∧ Behaves i (u.use nbytes v) t ∧
      u.live = s.live := by
  have hunits := toNat_units hn
  obtain ⟨_,hfreep,hf⟩ := freep_eq hsim hh
  have hnext : (s.ptr s.freep).toNat ∈ i.layout.base :: F.map Prod.fst := by
    rw [hsim.ptr]
    exact next_mem hh hf
  have hbelow : ∀ b ∈ s.live, b.1.toNat ≤ s.sz.toNat := by
    intro b hb
    have := block_le hsim hh (hlive ▸ List.mem_map_of_mem hb) (hpointers b hb)
    omega
  have hsmall : 8*(units nbytes).toNat < 2^31 := by omega
  have hpos : 0 < (units nbytes).toNat := by omega
  obtain ⟨answers,hanswers⟩ := search_sim (base_ne_zero i) hpos hsmall n s h F frames s.freep (s.ptr s.freep) hsim hh hf hnext
    hbelow
  obtain ⟨t,r,F',hrun,hF',hr⟩ := search_spec hh hfreep hpos hfuel
  rw [← hsim.ptr] at hrun
  obtain ⟨u,v,hu,hut,hv,hulive⟩ := hanswers t r hrun
  refine ⟨u,v,t,hu,?_,hulive⟩
  rcases hr with ⟨hnone,htlive⟩ | ⟨q,hq,htlive⟩
  · rw [hnone,Option.map_eq_none_iff] at hv
    rw [hv]
    exact ⟨hut,.inr ⟨F',hF'⟩,by rw [State.use,htlive,hlive,hulive],by rw [State.use,hulive]; exact hpointers⟩
  · obtain ⟨p,rfl,hp⟩ := Option.map_eq_some_iff.mp (hv.trans hq)
    have hblock : block (p,nbytes.toNat) = (q,(units nbytes).toNat) := by
      rw [block,hp,hunits,Nat.add_sub_cancel]
    refine ⟨⟨hut.ptr,hut.size,hut.freep,hut.brk,hut.fits⟩,.inr ⟨F',hF'⟩,?_,?_⟩
    · rw [State.use,List.map_cons,hblock,htlive,hlive,hulive]
    · rw [State.use,hulive]
      exact List.forall_mem_cons.mpr ⟨show 8 ≤ p.toNat by omega,hpointers⟩

theorem init_behaves (hb : Behaves i s h) : ∃ u t F, init i.base s = .ok u ∧ Sim u t ∧ Holds i.layout t F ∧
    2*F.length+8 ≤ s.fuel ∧ t.live = u.live.map block ∧ u.live = s.live := by
  rcases hb.heap with hu | ⟨F,hh⟩
  · have hzero : s.freep = 0 := by
      have hfreep := hb.sim.freep
      rw [hu.freep] at hfreep
      split_ifs at hfreep with hzero
      exact hzero
    have hin : i.base.toNat+8 ≤ s.sz.toNat := by
      have hbrk := hb.sim.brk
      rw [hu.brk] at hbrk
      exact i.below.trans hbrk
    refine ⟨{ s with ptr := update s.ptr i.base i.base, size := update s.size i.base 0, freep := i.base },
      { h with
        ptr := update h.ptr i.layout.base i.layout.base
        size := update h.size i.layout.base 0
        freep := some i.layout.base },[],?_,
      ⟨toNat_update hb.sim.ptr i.base rfl,toNat_update hb.sim.size i.base rfl,(if_neg i.nonnull).symm,hb.sim.brk,
        hb.sim.fits⟩,hu.holds,by simp [State.fuel],hb.live,rfl⟩
    rw [init,if_pos hzero,setPtr_eq hin,ok_bind,setSize_eq (by exact hin),ok_bind]
  · have hlen := hh.length_lt
    have hbrk := hb.sim.brk
    refine ⟨s,h,F,if_neg (freep_eq hb.sim hh).1,hb.sim,hh,?_,hb.live,rfl⟩
    rw [State.fuel]
    omega

theorem malloc_behaves (hb : Behaves i s h) (hn : nbytes.toNat ≤ 2^31-16) (frames : List Bool) :
    ∃ u p t, malloc i.base s.fuel s frames nbytes = .ok (u,p) ∧ Behaves i u t ∧
      ∀ q ∈ p, u.live = (q,nbytes.toNat) :: s.live := by
  obtain ⟨s',h',F,hinit,hsim,hh,hfuel,hlive,hsame⟩ := init_behaves hb
  obtain ⟨u,v,t,hrun,ht,hulive⟩ := search_behaves hsim hh hfuel hlive (hsame ▸ hb.pointers) hn frames
  refine ⟨u.use nbytes v,v,t,?_,ht,?_⟩
  · rw [malloc,hinit,ok_bind,ptrOf_eq (node_inside hsim hh (freep_eq hsim hh).2.2),ok_bind,hrun]
    rfl
  · rintro q rfl
    rw [State.use,hulive,hsame]

theorem free_behaves (hb : Behaves i s h) {b : Word × ℕ} (hmem : b ∈ s.live) :
    ∃ u t, free s.fuel s b.1 = .ok u ∧ Behaves i u t := by
  obtain ⟨F,hh⟩ := hb.holds hmem
  have hlen := hh.length_lt
  have hbrk := hb.sim.brk
  have hb8 := hb.pointers b hmem
  have hbp : (b.1-8).toNat = b.1.toNat-8 := BitVec.toNat_sub_of_le (BitVec.le_def.mpr hb8)
  have hblock : ((b.1-8).toNat,(b.2+7)/8+1) ∈ h.live := by
    rw [hbp]
    exact hb.mem hmem
  obtain ⟨t,F',hfree,hF',htlive,_⟩ := free_spec hh hblock (show F.length+3 < s.fuel by simp only [State.fuel]; omega)
  obtain ⟨u,hu,hut,hulive,_⟩ := free_sim hb.sim hh (base_ne_zero i) rfl hblock hfree
  refine ⟨u,t,hu,hut,.inr ⟨F',hF'⟩,?_,?_⟩
  · rw [htlive,hulive,hb.live,List.filter_map]
    refine congrArg (List.map block) (List.filter_congr fun c hc => ?_)
    have hc8 := hb.pointers c hc
    have hiff : c.1.toNat-8 = (b.1-8).toNat ↔ c.1 = b.1 := by
      rw [hbp,← BitVec.toNat_inj]
      omega
    simp only [Function.comp_apply,block,ne_eq,hiff]
  · intro c hc
    rw [hulive] at hc
    exact hb.pointers c (List.mem_of_mem_filter hc)

theorem sbrk_behaves (hb : Behaves i s h) {w : Word} (hw : w.toNat < 2^31) (frames : Bool) :
    Behaves i (sbrk s w frames).1 h := by
  by_cases hzero : w = 0
  · have hgrow : growproc s.sz w frames = some s.sz := by
      rw [hzero]
      rfl
    rw [sbrk,hgrow]
    exact hb
  · have hpos : 0 < w.toNat := by
      refine Nat.pos_of_ne_zero fun he => hzero (BitVec.eq_of_toNat_eq he)
    rcases growproc_cases hb.sim.fits hpos hw frames with hnone | ⟨v,hv,hsum,hfits⟩
    · rw [sbrk,hnone]
      exact hb
    · rw [sbrk,hv]
      have hbrk := hb.sim.brk
      refine ⟨⟨hb.sim.ptr,hb.sim.size,hb.sim.freep,?_,hfits⟩,hb.heap,hb.live,hb.pointers⟩
      simp only
      omega

theorem next_behaves (hb : Behaves i s h) {a : Action} (ha : Allowed s a) :
    ∃ u p t, next i s a = .ok (u,p) ∧ Behaves i u t := by
  cases a with
  | malloc nbytes frames =>
    obtain ⟨u,p,t,hu,ht,_⟩ := malloc_behaves hb ha frames
    exact ⟨u,p,t,hu,ht⟩
  | free ap =>
    obtain ⟨b,hmem,rfl⟩ := ha
    obtain ⟨u,t,hu,ht⟩ := free_behaves hb hmem
    exact ⟨u,none,t,by rw [next,hu],ht⟩
  | store a ptr size =>
    obtain ⟨b,hmem,hlow,hhigh⟩ := ha
    obtain ⟨F,hh⟩ := hb.holds hmem
    have hb8 := hb.pointers b hmem
    have hstore := hh.store (a := a.toNat) ptr.toNat size.toNat (hb.mem hmem) (by simp only [block]; omega)
      (by simp only [block]; omega)
    refine ⟨_,_,{ h with
      ptr := update h.ptr a.toNat ptr.toNat
      size := update h.size a.toNat size.toNat },rfl,?_,.inr ⟨F,hstore⟩,hb.live,hb.pointers⟩
    exact ⟨toNat_update hb.sim.ptr a rfl,toNat_update hb.sim.size a rfl,hb.sim.freep,hb.sim.brk,hb.sim.fits⟩
  | grow n frames => exact ⟨_,_,h,rfl,sbrk_behaves hb ha frames⟩

theorem run_behaves {ptr size : Word → Word} {acts : List Action} (hrun : Run (Step i) (boot i ptr size) acts s) :
    ∃ h, Behaves i s h := by
  refine hrun.invariant (I := fun _ u => ∃ h, Behaves i u h) (boot_behaves i ptr size) ?_
  rintro _ u a v _ ⟨h,hb⟩ ⟨ha,p,hp⟩
  obtain ⟨w,q,t,hw,ht⟩ := next_behaves hb ha
  rw [hp] at hw
  cases hw
  exact ⟨t,ht⟩

end Calls

section End

theorem growproc_fits {sz v w : Word} {frames : Bool} (hsz : sz.toNat ≤ 0xE000000) (hv : growproc sz w frames = some v) :
    v.toNat ≤ 0xE000000 := by
  have halloc : (allocuvm sz (sz+w) frames).toNat ≤ 0xE000000 := by
    rw [allocuvm]
    split_ifs with _ _ hmem
    · exact Nat.zero_le _
    · exact hsz
    · exact BitVec.le_def.mp hmem.2
    · exact Nat.zero_le _
  have hdealloc : (deallocuvm sz (sz+w)).toNat ≤ 0xE000000 := by
    rw [deallocuvm]
    split_ifs with hle
    · exact hsz
    · rw [BitVec.le_def] at hle
      omega
  rw [growproc] at hv
  split_ifs at hv
  all_goals
    cases hv
    assumption

theorem setPtr_sz {a v : Word} (h : s.setPtr a v = .ok u) : u.sz = s.sz := by
  rw [State.setPtr] at h
  split_ifs at h
  cases h
  rfl

theorem setSize_sz {a v : Word} (h : s.setSize a v = .ok u) : u.sz = s.sz := by
  rw [State.setSize] at h
  split_ifs at h
  cases h
  rfl

theorem join_sz {c : Prop} [Decidable c] {a k q r : Word} (h : (if c then do
      let m ← s.sizeOf q
      let s ← s.setSize a (k+m)
      let r ← s.ptrOf q
      s.setPtr a r
    else s.setPtr a r) = .ok u) : u.sz = s.sz := by
  split_ifs at h
  · obtain ⟨m,-,h⟩ := bind_ok h
    obtain ⟨v,hv,h⟩ := bind_ok h
    obtain ⟨r,-,h⟩ := bind_ok h
    exact (setPtr_sz h).trans (setSize_sz hv)
  · exact setPtr_sz h

theorem joinUpper_sz {bp : Word} (h : joinUpper s p bp = .ok u) : u.sz = s.sz := by
  obtain ⟨k,-,h⟩ := bind_ok h
  obtain ⟨q,-,h⟩ := bind_ok h
  exact join_sz h

theorem joinLower_sz {bp : Word} (h : joinLower s p bp = .ok u) : u.sz = s.sz := by
  obtain ⟨k,-,h⟩ := bind_ok h
  exact join_sz h

theorem free_sz {ap : Word} (h : free n s ap = .ok u) : u.sz = s.sz := by
  rw [free] at h
  split_ifs at h
  obtain ⟨p,-,h⟩ := bind_ok h
  obtain ⟨v,hv,h⟩ := bind_ok h
  obtain ⟨w,hw,h⟩ := bind_ok h
  cases h
  exact (joinLower_sz hw).trans (joinUpper_sz hv)

theorem take_sz {v : Option Word} (h : take s nunits prevp p = .ok (u,v)) : u.sz = s.sz := by
  obtain ⟨k,-,h⟩ := bind_ok h
  split_ifs at h
  · obtain ⟨q,-,h⟩ := bind_ok h
    obtain ⟨w,hw,h⟩ := bind_ok h
    cases h
    exact (setPtr_sz hw :)
  · obtain ⟨w,hw,h⟩ := bind_ok h
    obtain ⟨x,hx,h⟩ := bind_ok h
    cases h
    exact (setSize_sz hx).trans (setSize_sz hw)

theorem init_sz {base : Word} (h : init base s = .ok u) : u.sz = s.sz := by
  rw [init] at h
  split_ifs at h
  · obtain ⟨v,hv,h⟩ := bind_ok h
    obtain ⟨w,hw,h⟩ := bind_ok h
    cases h
    exact (setSize_sz hw).trans (setPtr_sz hv)
  · cases h
    rfl

theorem sbrk_sz (hs : s.sz.toNat ≤ 0xE000000) (w : Word) (b : Bool) : (sbrk s w b).1.sz.toNat ≤ 0xE000000 := by
  rw [sbrk]
  split
  · exact hs
  · rename_i sz hgrow
    exact growproc_fits hs hgrow

theorem morecore_sz {b : Bool} {v : Option Word} (hs : s.sz.toNat ≤ 0xE000000)
    (hmore : morecore n s nunits b = .ok (u,v)) : u.sz.toNat ≤ 0xE000000 := by
  obtain ⟨nu,hnu⟩ : ∃ nu, nu = if nunits < 4096 then 4096 else nunits := ⟨_,rfl⟩
  have hgrown := sbrk_sz hs (nu*8) b
  simp only [morecore,← hnu] at hmore
  split_ifs at hmore
  · cases hmore
    exact hgrown
  · obtain ⟨w,hset,hmore⟩ := bind_ok hmore
    obtain ⟨x,hfree,hmore⟩ := bind_ok hmore
    cases hmore
    rw [free_sz hfree,setSize_sz hset]
    exact hgrown

theorem search_sz {v : Option Word} (hs : s.sz.toNat ≤ 0xE000000)
    (hrun : search nunits n s frames prevp p = .ok (u,v)) : u.sz.toNat ≤ 0xE000000 := by
  induction n generalizing s frames prevp p with
  | zero => cases hrun
  | succ n ih =>
    rw [search] at hrun
    obtain ⟨k,-,hrun⟩ := bind_ok hrun
    split_ifs at hrun
    · rw [take_sz hrun]
      exact hs
    · obtain ⟨⟨w,r⟩,hmore,hrun⟩ := bind_ok hrun
      have hw := morecore_sz hs hmore
      cases r with
      | none =>
        cases hrun
        exact hw
      | some f =>
        obtain ⟨q,-,hrun⟩ := bind_ok hrun
        exact ih hw hrun
    · obtain ⟨q,-,hrun⟩ := bind_ok hrun
      exact ih hs hrun

theorem malloc_sz {base : Word} {v : Option Word} (hs : s.sz.toNat ≤ 0xE000000)
    (hrun : malloc base n s frames nbytes = .ok (u,v)) : u.sz.toNat ≤ 0xE000000 := by
  obtain ⟨s',hinit,hrun⟩ := bind_ok hrun
  obtain ⟨q,-,hrun⟩ := bind_ok hrun
  obtain ⟨⟨w,r⟩,hsearch,hrun⟩ := bind_ok hrun
  have hw := search_sz (by rw [init_sz hinit]; exact hs) hsearch
  cases hrun
  cases v with
  | none => exact hw
  | some p => exact hw

end End

section Kernel
variable {c c' : Kernel.Ctx} {pd : Kernel.PageDir} {sz : Word}

/-- There are no more pages than frames. -/
theorem size_le_phystop (haccount : Vm.Accounted c [] pd)
    (hpages : ∀ x, x < Wmap.MMAPBASE → Kernel.PGROUNDDOWN x < sz → pd.present x) : sz ≤ PHYSTOP := by
  by_contra hlarge
  have hsz : 0xE000000 < sz.toNat := BitVec.lt_def.mp (BitVec.not_le.mp hlarge)
  have hnum : ∀ j < 0xE001, (BitVec.ofNat 32 (4096*j)).toNat = 4096*j := fun j hj => by
    rw [BitVec.toNat_ofNat]
    omega
  have hpresent : ∀ j < 0xE001, (Vm.entry pd (BitVec.ofNat 32 (4096*j))).p = true := fun j hj => by
    refine Vm.present_iff_entry.mp (hpages _ ?_ ?_)
    · have hbase : Wmap.MMAPBASE.toNat = 0x60000000 := rfl
      rw [BitVec.lt_def,hnum j hj]
      omega
    · rw [BitVec.lt_def,Kernel.PGROUNDDOWN_toNat,hnum j hj]
      omega
  have hmaps : ∀ j ∈ Finset.range 0xE001,
      (Vm.entry pd (BitVec.ofNat 32 (4096*j))).frame ∈ Finset.range Kernel.PHYSTOP := fun j hj => by
    have hlow := hnum j (Finset.mem_range.mp hj)
    refine Finset.mem_range.mpr (haccount.owns_owned (Vm.entry_owned ?_ (hpresent j (Finset.mem_range.mp hj)))).2
    rw [hlow]
    have := Finset.mem_range.mp hj
    omega
  obtain ⟨i,hi,j,hj,hne,heq⟩ := Finset.exists_ne_map_eq_of_card_lt_of_maps_to
    (by rw [Finset.card_range,Finset.card_range]; decide) hmaps
  rw [Finset.mem_range] at hi hj
  have hnodup := (List.nodup_append.mp (List.nodup_append.mp haccount.nodup).2.1).1
  have hpage := Vm.entry_inj hnodup (by rw [hnum j hj]; omega) (by rw [hnum i hi]; omega) (hpresent j hj) (hpresent i hi) heq
  rw [hnum i hi,hnum j hj] at hpage
  omega

/-- On the page table of a process `growproc` does to the size what it does here, where the frames that the
kernel has are a parameter. -/
theorem growproc_paged (hspace : Vm.AddressSpace c) (n : Word) : ∃ frames r c', Vm.growproc n c = .ok r c' ∧
    (r = 0 ∧ growproc c.cur.sz n frames = some c'.cur.sz ∨ r = -1 ∧ growproc c.cur.sz n frames = none) := by
  rcases lt_trichotomy n.toInt 0 with hn | hn | hn
  · have hpos : ¬ 0 < n.toInt := by omega
    by_cases hlt : c.cur.sz+n < c.cur.sz
    · obtain ⟨pd',c',hdealloc,-⟩ := Vm.deallocuvm_drops hlt hspace.size hspace.accounted
      have hrun := Vm.growproc_dealloc hn hdealloc
      have hsize : growproc c.cur.sz n true = if c.cur.sz+n = 0 then none else some (c.cur.sz+n) := by
        rw [growproc,if_neg hpos,if_pos hn,deallocuvm,if_neg (BitVec.not_le.mpr hlt)]
      by_cases hzero : c.cur.sz+n = 0
      · exact ⟨true,-1,_,hrun.trans (if_pos hzero),.inr ⟨rfl,hsize.trans (if_pos hzero)⟩⟩
      · exact ⟨true,0,_,hrun.trans (if_neg hzero),.inl ⟨rfl,hsize.trans (if_neg hzero)⟩⟩
    · have hle := BitVec.not_lt.mp hlt
      have hrun := Vm.growproc_dealloc hn (Vm.deallocuvm_not_smaller hle)
      have hsize : growproc c.cur.sz n true = if c.cur.sz = 0 then none else some c.cur.sz := by
        rw [growproc,if_neg hpos,if_pos hn,deallocuvm,if_pos hle]
      by_cases hzero : c.cur.sz = 0
      · exact ⟨true,-1,_,hrun.trans (if_pos hzero),.inr ⟨rfl,hsize.trans (if_pos hzero)⟩⟩
      · exact ⟨true,0,_,hrun.trans (if_neg hzero),.inl ⟨rfl,hsize.trans (if_neg hzero)⟩⟩
  · refine ⟨true,0,c,Vm.growproc_zero hn,.inl ⟨rfl,?_⟩⟩
    rw [growproc,if_neg (by omega),if_neg (by omega)]
  · obtain ⟨hsum,hint⟩ := Vm.sum_toNat hspace.size hn
    have hle : ¬ c.cur.sz+n < c.cur.sz := by
      rw [BitVec.lt_def,hsum]
      omega
    have hne : c.cur.sz+n ≠ 0 := fun hzero => by
      rw [hzero,show (0 : Word).toNat = 0 from rfl] at hsum
      omega
    by_cases hlt : c.cur.sz+n < Wmap.KERNBASE
    · have hkern : ¬ KERNBASE ≤ c.cur.sz+n := BitVec.not_le.mpr hlt
      rcases Vm.allocuvm_cases hspace.accounted (BitVec.not_lt.mp hle) hlt with
        ⟨pd',c',halloc,hdone⟩ | ⟨pd',c',halloc,-⟩
      · have hrun := Vm.growproc_alloc hn halloc
        have hfits : c.cur.sz+n ≤ PHYSTOP := by
          have hpresent := (hdone.resized hspace hn hlt).present
          exact size_le_phystop (hdone.conserves.accounted hspace.accounted) fun x hx => (hpresent x hx).mpr
        have hsize : allocuvm c.cur.sz (c.cur.sz+n) true = c.cur.sz+n := by
          rw [allocuvm,if_neg hkern,if_neg hle,if_pos ⟨rfl,hfits⟩]
        refine ⟨true,0,_,hrun.trans (if_neg hne),.inl ⟨rfl,?_⟩⟩
        rw [growproc,if_pos hn,hsize,if_neg hne]
        rfl
      · have hrun := Vm.growproc_alloc hn halloc
        refine ⟨false,-1,_,hrun.trans (if_pos rfl),.inr ⟨rfl,?_⟩⟩
        have hsize : allocuvm c.cur.sz (c.cur.sz+n) false = 0 := by
          rw [allocuvm,if_neg hkern,if_neg hle]
          exact if_neg fun h => Bool.false_ne_true h.1
        rw [growproc,if_pos hn,if_pos hsize]
    · have halloc : Vm.allocuvm c.cur.pgdir c.cur.sz (c.cur.sz+n) c = .ok (0,c.cur.pgdir) c := by
        unfold Vm.allocuvm
        rw [if_pos (BitVec.not_lt.mp hlt)]
        rfl
      refine ⟨true,-1,_,(Vm.growproc_alloc hn halloc).trans (if_pos rfl),.inr ⟨rfl,?_⟩⟩
      have hsize : allocuvm c.cur.sz (c.cur.sz+n) true = 0 := if_pos (BitVec.not_lt.mp hlt)
      rw [growproc,if_pos hn,if_pos hsize]

end Kernel

section Main

/-- In a heap that small requests lead to, a request up to `2^31-16` bytes returns; and the block
that any request returns has room for it exactly up to this size. -/
theorem malloc_fits {ptr size : Word → Word} {acts : List Action} (hrun : Run (Step i) (boot i ptr size) acts s)
    (nbytes : Word) (frames : List Bool) :
    (nbytes.toNat ≤ 2^31-16 → ∃ u p, next i s (.malloc nbytes frames) = .ok (u,p)) ∧
    ∀ u p, next i s (.malloc nbytes frames) = .ok (u,some p) → (Fits s u p nbytes ↔ nbytes.toNat ≤ 2^31-16) := by
  obtain ⟨h,hb⟩ := run_behaves hrun
  refine ⟨fun hn => ?_,fun u p hu => ⟨fun hfits => ?_,fun hn => ?_⟩⟩
  · obtain ⟨u,p,_,hu,_⟩ := malloc_behaves hb hn frames
    exact ⟨u,p,hu⟩
  · have hsz := malloc_sz hb.sim.fits hu
    have := hfits.1
    omega
  · obtain ⟨w,q,t,hw,ht,hlive⟩ := malloc_behaves hb hn frames
    rw [next,hw] at hu
    cases hu
    have hnew : (p,nbytes.toNat) ∈ u.live := by
      rw [hlive p rfl]
      exact List.mem_cons_self
    refine ⟨ht.le_sz hnew,fun b hmem => ?_⟩
    obtain ⟨F,hF⟩ := ht.holds hnew
    have hapart := (List.pairwise_append.mp hF.tiles.apart).2.1
    rw [ht.live,hlive p rfl,List.map_cons,List.map_cons] at hapart
    have hpair := (List.pairwise_cons.mp hapart).1 (bytes (block b))
      (List.mem_map_of_mem (List.mem_map_of_mem hmem))
    have hp8 := ht.pointers _ hnew
    have hb8 := hb.pointers b hmem
    simp only [Apart,bytes,block] at hpair hp8
    omega

def sampleImage : Image := ⟨100#32,4096#32,by decide,by decide,by decide⟩

def fresh : State := boot sampleImage (fun _ => 0) fun _ => 0

theorem malloc_fits_ten : ∃ u p, next sampleImage fresh (.malloc 10#32 [true]) = .ok (u,some p) ∧
    Fits fresh u p 10#32 := by
  have hrun : (next sampleImage fresh (.malloc 10#32 [true])).toOption.any (·.2.isSome) = true := by decide +kernel
  obtain ⟨⟨u,r⟩,hu,hr⟩ := exists_ok hrun
  obtain ⟨p,rfl⟩ := Option.isSome_iff_exists.mp hr
  exact ⟨u,p,hu,((malloc_fits .nil 10#32 [true]).2 u p hu).mpr (by decide)⟩

/-- The units of `2^32-1` bytes wrap to one. -/
theorem malloc_tooLittle : ∃ u p, next sampleImage fresh (.malloc 0xFFFFFFFF#32 [true]) = .ok (u,some p) ∧
    ¬ Fits fresh u p 0xFFFFFFFF#32 := by
  have hrun : (next sampleImage fresh (.malloc 0xFFFFFFFF#32 [true])).toOption.any
      (fun r => r.2.isSome && decide (r.1.sz = 36864#32)) = true := by decide +kernel
  obtain ⟨⟨u,r⟩,hu,hr⟩ := exists_ok hrun
  obtain ⟨hsome,hsz⟩ := Bool.and_eq_true_iff.mp hr
  obtain ⟨p,rfl⟩ := Option.isSome_iff_exists.mp hsome
  refine ⟨u,p,hu,fun hfits => ?_⟩
  have := hfits.1
  rw [of_decide_eq_true hsz] at this
  change p.toNat+4294967295 ≤ 36864 at this
  omega

end Main

end Xv6.Umalloc.Machine
