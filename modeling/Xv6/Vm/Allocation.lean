import Xv6.Vm.Copy

/-! # Growing an address space

`allocuvm` maps zero pages behind the old size. When it fails, its rollback gives back every
present page of the range, whoever has mapped it.
-/
namespace Xv6.Vm
open Wmap Kernel Program Function
variable {s s' : Ctx} {pd pd' : PageDir} {a x oldsz newsz : Word} {fuel : ℕ} {f : Frame} {hand hand' : List Frame}
  {B : Set Frame}

def allocLoop (oldsz newsz : Word) : ℕ → PageDir → Word → KernelM (Word × PageDir)
  | 0, _, _ => throw .hang
  | fuel+1, pd, a => do
    if a < newsz then
      match ← kalloc with
      | none =>
        let (_,pd) ← deallocuvm pd newsz oldsz
        pure (0,pd)
      | some f =>
        setPage f (fun _ => 0)
        let (done,pd) ← mappages pd a 4096 f true true
        if done then allocLoop oldsz newsz fuel pd (a+4096)
        else
          let (_,pd) ← deallocuvm pd newsz oldsz
          kfree f
          pure (0,pd)
    else pure (newsz,pd)

def allocuvm (pd : PageDir) (oldsz newsz : Word) : KernelM (Word × PageDir) :=
  if KERNBASE ≤ newsz then pure (0,pd)
  else if newsz < oldsz then pure (oldsz,pd)
  else allocLoop oldsz newsz allPages pd (PGROUNDUP oldsz)

section Accounts

structure Accounted (s : Ctx) (hand : List Frame) (pd : PageDir) : Prop where
  nodup : (hand ++ (owned pd ++ s.mem.freelist)).Nodup
  owns : ∀ f ∈ hand ++ (owned pd ++ s.mem.freelist), s.mem.owns f

theorem Conserves.accounted (h : Conserves B hand pd s hand' pd' s') (haccount : Accounted s hand pd) :
    Accounted s' hand' pd' := by
  refine ⟨h.frames.nodup_iff.mp haccount.nodup,fun f hf => ?_⟩
  unfold Mem.owns
  rw [h.mem.image]
  exact haccount.owns f (h.frames.mem_iff.mpr hf)

theorem Accounted.owns_owned (h : Accounted s hand pd) (hf : f ∈ owned pd) : s.mem.owns f :=
  h.owns f (List.mem_append_right _ (List.mem_append_left _ hf))

theorem Accounted.not_free (h : Accounted s hand pd) (hf : f ∈ owned pd) : f ∉ s.mem.freelist := by
  intro hin
  exact (List.nodup_append.mp (List.nodup_append.mp h.nodup).2.1).2.2 f hf f hin rfl

theorem Building.accounted {s₀ : Ctx} {used : List Frame} (h : Building s₀ s hand pd) (hsound : SoundFree s₀ used) :
    Accounted s hand pd :=
  ⟨h.nodup hsound.nodup,fun _ hf => h.owns hsound.owns (h.frames.mem_iff.mpr hf)⟩

end Accounts

section Rollback

theorem inRange_toNat (hlo : oldsz.toNat+4095 < 2^32) (newsz x : Word) : InRange oldsz newsz x ↔
    (oldsz.toNat+4095)/4096*4096 ≤ x.toNat/4096*4096 ∧ x.toNat/4096*4096 < newsz.toNat := by
  rw [InRange,BitVec.le_def,BitVec.lt_def,PGROUNDDOWN_toNat,PGROUNDUP_toNat hlo]

def rangeFrames (pd : PageDir) (oldsz newsz : Word) : Set Frame :=
  {f | ∃ x, InRange oldsz newsz x ∧ (entry pd x).p = true ∧ (entry pd x).frame = f}

structure Dropped (hand : List Frame) (pd : PageDir) (s : Ctx) (oldsz newsz : Word) (pd' : PageDir) (s' : Ctx) : Prop where
  conserves : Conserves (rangeFrames pd oldsz newsz) hand pd s hand pd' s'
  cleared : ∀ x, InRange oldsz newsz x → (entry pd' x).p = false
  kept : ∀ x, ¬ InRange oldsz newsz x → entry pd' x = entry pd x
  table : ∀ d, (pd'.pde d).isSome ↔ (pd.pde d).isSome

theorem deallocuvm_drops (hlt : oldsz < newsz) (hlimit : newsz ≤ KERNBASE) (haccount : Accounted s hand pd) :
    ∃ pd' s', deallocuvm pd newsz oldsz s = .ok (oldsz,pd') s' ∧ Dropped hand pd s oldsz newsz pd' s' := by
  have hbound := pagesUpTo_le hlt hlimit
  have hrange : ∀ y, InRange oldsz newsz y ↔ InPages (PGROUNDUP oldsz) (pagesUpTo (PGROUNDUP oldsz) newsz) y :=
    fun y => inRange_iff hlt hlimit
  have hframe : ∀ f ∈ framesFrom pd (pagesUpTo (PGROUNDUP oldsz) newsz) (PGROUNDUP oldsz),
      f ∈ rangeFrames pd oldsz newsz ∧ f ∈ owned pd := by
    intro f hf
    obtain ⟨k,hk,hf⟩ := mem_framesFrom.mp hf
    have hnum : (pageAt (PGROUNDUP oldsz) k).toNat < 2^31 := by
      rw [pageAt_toNat (by omega)]
      omega
    rw [frameOf_walkpgdir] at hf
    split at hf
    · rename_i hp
      obtain rfl := Option.some.inj hf
      exact ⟨⟨_,(hrange _).mpr ⟨k,hk,rfl⟩,hp,rfl⟩,entry_owned hnum hp⟩
    · cases hf
  have hwalk := fun y => walkpgdir_dropping pd (a := PGROUNDUP oldsz)
    (n := pagesUpTo (PGROUNDUP oldsz) newsz) (by omega) y
  refine ⟨_,_,deallocuvm_ok pd hlt hlimit fun f hf => haccount.owns_owned (hframe f hf).2,
    conserves_dropping hbound fun f hf => (hframe f hf).1,fun y hy => ?_,fun y hy => ?_,fun d => ?_⟩
  · rw [entry,hwalk]
    split
    · rfl
    · rename_i hout
      rw [not_and,← present_iff,present_iff_entry,Bool.not_eq_true] at hout
      exact hout ((hrange y).mp hy)
  · rw [entry,hwalk,if_neg fun h => hy ((hrange y).mpr h.1)]
    rfl
  · have htable := congrArg Option.isSome (tables_dropping pd (pagesUpTo (PGROUNDUP oldsz) newsz) (PGROUNDUP oldsz) d)
    rw [Option.isSome_map,Option.isSome_map] at htable
    rw [htable]

end Rollback

section Loop

def Spans (a newsz x : Word) : Prop := a.toNat ≤ x.toNat/4096*4096 ∧ x.toNat/4096*4096 < newsz.toNat

structure Allocated (a newsz : Word) (pd : PageDir) (s : Ctx) (pd' : PageDir) (s' : Ctx) : Prop where
  conserves : Conserves {f | f ∈ s.mem.freelist} [] pd s [] pd' s'
  empty : ∀ x, Spans a newsz x → (entry pd x).p = false
  flags : ∀ x, Spans a newsz x → (entry pd' x).p = true ∧ (entry pd' x).w = true ∧ (entry pd' x).u = true
  zero : ∀ x, Spans a newsz x → s'.mem.page (entry pd' x).frame = fun _ => 0
  old : ∀ x, ¬ Spans a newsz x → entry pd' x = entry pd x
  table : ∀ d, (pd'.pde d).isSome ↔ (pd.pde d).isSome ∨ ∃ x, Spans a newsz x ∧ d = PDX x

structure Undone (oldsz newsz : Word) (pd : PageDir) (s : Ctx) (pd' : PageDir) (s' : Ctx) : Prop where
  conserves : Conserves ({f | f ∈ s.mem.freelist} ∪ rangeFrames pd oldsz newsz) [] pd s [] pd' s'
  cleared : ∀ x, InRange oldsz newsz x → (entry pd' x).p = false
  kept : ∀ x, ¬ InRange oldsz newsz x → entry pd' x = entry pd x
  tables : ∀ x : Word, 2^31 ≤ x.toNat → ((pd'.pde (PDX x)).isSome ↔ (pd.pde (PDX x)).isSome)

structure Grown (a : Word) (f : Frame) (pd : PageDir) (s : Ctx) (pd₁ : PageDir) (s₁ : Ctx) : Prop where
  conserves : Conserves {f | f ∈ s.mem.freelist} [] pd s [] pd₁ s₁
  took : f ∈ s.mem.freelist
  empty : (entry pd a).p = false
  entries : ∀ x, entry pd₁ x = if x.toNat/4096 = a.toNat/4096 then ⟨f,true,true,true⟩ else entry pd x
  zero : s₁.mem.page f = fun _ => 0
  table : ∀ d, (pd₁.pde d).isSome ↔ (pd.pde d).isSome ∨ d = PDX a

theorem Grown.mem_owned {pd₁ : PageDir} {s₁ : Ctx} (h : Grown a f pd s pd₁ s₁) (hlow : a.toNat < 2^31) : f ∈ owned pd₁ := by
  have hentry : entry pd₁ a = ⟨f,true,true,true⟩ := by rw [h.entries,if_pos rfl]
  have hmem : (entry pd₁ a).frame ∈ owned pd₁ := entry_owned hlow (by rw [hentry])
  rwa [hentry] at hmem

theorem spans_next (halign : a.toNat % 4096 = 0) (hlt : a < newsz) (hlow : newsz.toNat < 2^31) :
    Spans a newsz x ↔ x.toNat/4096 = a.toNat/4096 ∨ Spans (a+4096) newsz x := by
  have hlt' : a.toNat < newsz.toNat := BitVec.lt_def.mp hlt
  have hnext : (a+4096).toNat = a.toNat+4096 := page_succ (by omega)
  unfold Spans
  rw [hnext]
  omega

theorem Grown.allocated {pd₁ : PageDir} {s₁ : Ctx} (h : Grown a f pd s pd₁ s₁) (haccount : Accounted s [] pd)
    (halign : a.toNat % 4096 = 0) (hlt : a < newsz) (hlow : newsz.toNat < 2^31)
    (hrest : Allocated (a+4096) newsz pd₁ s₁ pd' s') : Allocated a newsz pd s pd' s' := by
  have hlt' : a.toNat < newsz.toNat := BitVec.lt_def.mp hlt
  have hspans := fun x => spans_next (x := x) halign hlt hlow
  have hself : ¬ Spans (a+4096) newsz a := by
    have hnext : (a+4096).toNat = a.toNat+4096 := page_succ (by omega)
    unfold Spans
    rw [hnext]
    omega
  have hfirst : ∀ x : Word, x.toNat/4096 = a.toNat/4096 → entry pd' x = ⟨f,true,true,true⟩ := by
    intro x hx
    rw [entry_page hx,hrest.old a hself,h.entries,if_pos rfl]
  have hfree : ∀ g ∈ s₁.mem.freelist, g ∈ s.mem.freelist := fun g hg => (h.conserves.free g hg).elim id id
  refine ⟨h.conserves.trans (hrest.conserves.mono hfree),fun x hx => ?_,fun x hx => ?_,fun x hx => ?_,fun x hx => ?_,
    fun d => ?_⟩
  · by_cases hpage : x.toNat/4096 = a.toNat/4096
    · rw [entry_page hpage]
      exact h.empty
    · have hempty := hrest.empty x (((hspans x).mp hx).resolve_left hpage)
      rwa [h.entries,if_neg hpage] at hempty
  · rcases (hspans x).mp hx with hpage | hx
    · rw [hfirst x hpage]
      exact ⟨rfl,rfl,rfl⟩
    · exact hrest.flags x hx
  · rcases (hspans x).mp hx with hpage | hx
    · rw [hfirst x hpage]
      refine (hrest.conserves.pages f ?_).trans h.zero
      exact (h.conserves.accounted haccount).not_free (h.mem_owned (by omega))
    · exact hrest.zero x hx
  · rw [hspans,not_or] at hx
    rw [hrest.old x hx.2,h.entries,if_neg hx.1]
  · rw [hrest.table,h.table,or_assoc]
    refine or_congr_right ⟨?_,?_⟩
    · rintro (rfl | ⟨x,hx,rfl⟩)
      · exact ⟨a,(hspans a).mpr (.inl rfl),rfl⟩
      · exact ⟨x,(hspans x).mpr (.inr hx),rfl⟩
    · rintro ⟨x,hx,rfl⟩
      rcases (hspans x).mp hx with hpage | hx
      · exact .inl (page_indices hpage).1
      · exact .inr ⟨x,hx,rfl⟩

theorem table_upper {y : Word} (hlow : a.toNat < 2^31) (hy : 2^31 ≤ y.toNat) : PDX y ≠ PDX a := by
  intro hd
  have hd := congrArg Fin.val hd
  rw [PDX_val,PDX_val] at hd
  omega

theorem Grown.undone {pd₁ : PageDir} {s₁ : Ctx} (h : Grown a f pd s pd₁ s₁) (hin : InRange oldsz newsz a)
    (hlow : a.toNat < 2^31) (hrest : Undone oldsz newsz pd₁ s₁ pd' s') : Undone oldsz newsz pd s pd' s' := by
  have hsame : ∀ x : Word, x.toNat/4096 = a.toNat/4096 → InRange oldsz newsz x := by
    intro x hx
    have hdown : PGROUNDDOWN x = PGROUNDDOWN a := by
      apply BitVec.eq_of_toNat_eq
      rw [PGROUNDDOWN_toNat,PGROUNDDOWN_toNat,hx]
    unfold InRange
    rw [hdown]
    exact hin
  have hB : {g | g ∈ s₁.mem.freelist} ∪ rangeFrames pd₁ oldsz newsz ⊆
      {g | g ∈ s.mem.freelist} ∪ rangeFrames pd oldsz newsz := by
    rintro g (hg | ⟨x,hx,hp,rfl⟩)
    · exact .inl ((h.conserves.free g hg).elim id id)
    · rw [h.entries] at hp ⊢
      by_cases hpage : x.toNat/4096 = a.toNat/4096
      · rw [if_pos hpage]
        exact .inl h.took
      · rw [if_neg hpage] at hp ⊢
        exact .inr ⟨x,hx,hp,rfl⟩
  refine ⟨(h.conserves.mono fun g hg => .inl hg).trans (hrest.conserves.mono hB),hrest.cleared,fun x hx => ?_,fun x hx => ?_⟩
  · rw [hrest.kept x hx,h.entries,if_neg fun hpage => hx (hsame x hpage)]
  · rw [hrest.tables x hx,h.table]
    exact or_iff_left (table_upper hlow hx)

/-- The loop maps the pages up to the new size or gives back the present ones of the range. -/
theorem allocLoop_cases (haccount : Accounted s [] pd) (halign : a.toNat % 4096 = 0) (hlow : newsz.toNat < 2^31)
    (hstart : PGROUNDUP oldsz ≤ a) (hold : oldsz.toNat+4095 < 2^32) (hfuel : pagesUpTo a newsz < fuel) :
    (∃ pd' s', allocLoop oldsz newsz fuel pd a s = .ok (newsz,pd') s' ∧ Allocated a newsz pd s pd' s') ∨
    ∃ pd' s', allocLoop oldsz newsz fuel pd a s = .ok (0,pd') s' ∧ Undone oldsz newsz pd s pd' s' := by
  have hlimit : newsz ≤ KERNBASE := BitVec.le_def.mpr (Nat.le_of_lt hlow)
  induction fuel generalizing pd a s with
  | zero => omega
  | succ fuel ih =>
    unfold allocLoop
    by_cases hlt : a < newsz
    · have hlt' : a.toNat < newsz.toNat := BitVec.lt_def.mp hlt
      have hstart' := BitVec.le_def.mp hstart
      rw [PGROUNDUP_toNat hold] at hstart'
      have hgrow : oldsz < newsz := BitVec.lt_def.mpr (by omega)
      have hin : InRange oldsz newsz a := (inRange_toNat hold _ _).mpr ⟨by omega,by omega⟩
      have hnext : (a+4096).toNat = a.toNat+4096 := page_succ (by omega)
      rw [if_pos hlt,bind_apply,kalloc_apply]
      cases hfree : s.mem.freelist with
      | nil =>
        obtain ⟨pd',s',hrun,hdrop⟩ := deallocuvm_drops hgrow hlimit haccount
        refine .inr ⟨pd',s',?_,hdrop.conserves.mono fun _ => .inr,hdrop.cleared,hdrop.kept,fun x _ => hdrop.table _⟩
        dsimp only
        rw [bind_of_ok hrun]
        rfl
      | cons f fs =>
        dsimp only
        rw [bind_apply]
        change (∃ pd' s', (mappages pd a 4096 f true true >>= fun r => _) { s with mem := { s.mem with
            page := update s.mem.page f (fun _ => 0)
            freelist := fs } } = _ ∧ _) ∨
          ∃ pd' s', (mappages pd a 4096 f true true >>= fun r => _) _ = _ ∧ _
        have hmem : f ∈ s.mem.freelist := by
          rw [hfree]
          exact List.mem_cons_self
        have htake : Conserves {f | f ∈ s.mem.freelist} [] pd s [f] pd { s with mem := { s.mem with
            page := update s.mem.page f (fun _ => 0)
            freelist := fs } } :=
          ((conserves_kalloc hfree).mono (Set.empty_subset _)).trans (conserves_setPage hmem _)
        rcases mappages_cases halign (by omega) [] pd f true true { s with mem := { s.mem with
            page := update s.mem.page f (fun _ => 0)
            freelist := fs } } with ⟨pd₁,s₁,hrun,hmap⟩ | hrun
        · have hgrown : Grown a f pd s pd₁ s₁ := ⟨htake.trans (hmap.conserves.mono (Set.empty_subset _)),hmem,hmap.empty,
            hmap.entries,(hmap.conserves.pages f id).trans (update_self _ _ _),hmap.table⟩
          rw [bind_of_ok hrun]
          have hpages : pagesUpTo (a+4096) newsz < fuel := by
            unfold pagesUpTo at *
            omega
          have hstart₁ : PGROUNDUP oldsz ≤ a+4096 := by
            rw [BitVec.le_def,PGROUNDUP_toNat hold,hnext]
            omega
          rcases ih (hgrown.conserves.accounted haccount) (by omega) hstart₁ hpages with
            ⟨pd',s',hloop,hrest⟩ | ⟨pd',s',hloop,hrest⟩
          · exact .inl ⟨pd',s',hloop,hgrown.allocated haccount halign hlt hlow hrest⟩
          · exact .inr ⟨pd',s',hloop,hgrown.undone hin (by omega) hrest⟩
        · obtain ⟨pd',s₂,hdealloc,hdrop⟩ := deallocuvm_drops hgrow hlimit (htake.accounted haccount)
          have howns := (hdrop.conserves.accounted (htake.accounted haccount)).owns f List.mem_cons_self
          have hkfree : Conserves {f | f ∈ s.mem.freelist} [f] pd' s₂ [] pd' { s₂ with mem := s₂.mem.freeing [f] } :=
            conserves_kfree.mono fun g hg => (show g = f from hg) ▸ hmem
          refine .inr ⟨pd',_,?_,((htake.mono fun _ => .inl).trans (hdrop.conserves.mono fun _ => .inr)).trans
            (hkfree.mono fun _ => .inl),hdrop.cleared,hdrop.kept,fun x _ => hdrop.table _⟩
          rw [bind_of_ok hrun]
          change (deallocuvm pd newsz oldsz >>= fun r => kfree f >>= fun _ => pure ((0 : Word),r.2)) _ = _
          rw [bind_of_ok hdealloc,bind_of_ok (kfree_owns howns)]
          rfl
    · have hle : newsz.toNat ≤ a.toNat := BitVec.le_def.mp (BitVec.not_lt.mp hlt)
      have hnone : ∀ x, ¬ Spans a newsz x := by
        rintro x ⟨h1,h2⟩
        omega
      rw [if_neg hlt]
      refine .inl ⟨pd,s,rfl,.refl _ _ _ _,fun x hx => absurd hx (hnone x),fun x hx => absurd hx (hnone x),
        fun x hx => absurd hx (hnone x),fun x _ => rfl,fun d => ⟨.inl,?_⟩⟩
      rintro (hd | ⟨x,hx,-⟩)
      · exact hd
      · exact absurd hx (hnone x)

end Loop

theorem spans_iff (hold : oldsz.toNat+4095 < 2^32) (newsz x : Word) :
    Spans (PGROUNDUP oldsz) newsz x ↔ InRange oldsz newsz x := by
  rw [inRange_toNat hold,Spans,PGROUNDUP_toNat hold]

/-- Below `KERNBASE`, `allocuvm` maps zero pages up to the new size, or its rollback empties the range. -/
theorem allocuvm_cases (haccount : Accounted s [] pd) (hle : oldsz ≤ newsz) (hlt : newsz < KERNBASE) :
    (∃ pd' s', allocuvm pd oldsz newsz s = .ok (newsz,pd') s' ∧ Allocated (PGROUNDUP oldsz) newsz pd s pd' s') ∨
    ∃ pd' s', allocuvm pd oldsz newsz s = .ok (0,pd') s' ∧ Undone oldsz newsz pd s pd' s' := by
  have hlow : newsz.toNat < 2^31 := BitVec.lt_def.mp hlt
  have hle' : oldsz.toNat ≤ newsz.toNat := BitVec.le_def.mp hle
  have hup := PGROUNDUP_toNat (a := oldsz) (by omega)
  have hfuel : pagesUpTo (PGROUNDUP oldsz) newsz < allPages := by
    unfold pagesUpTo allPages
    omega
  unfold allocuvm
  rw [if_neg (BitVec.not_le.mpr hlt),if_neg (BitVec.not_lt.mpr hle)]
  exact allocLoop_cases haccount (by omega) hlow (BitVec.le_refl _) (by omega) hfuel

end Xv6.Vm
