import Xv6.Vm.Allocation

/-! # The break of a process

`growproc` moves the end of a process's memory. A negative request that leaves nothing or
goes below zero is not treated as its text says, and a failed growth gives back pages that
it has not mapped.
-/
namespace Xv6.Vm
open Wmap Kernel Program Inventory
variable {s s' : Ctx} {pd pd' : PageDir} {n x : Word} {f : Frame}

def setSize (sz : Word) : KernelM Unit := modify fun s => { s with cur := { s.cur with sz := sz } }

def growproc (n : Word) : KernelM Word := do
  let sz := (← get).cur.sz
  let pd := (← get).cur.pgdir
  if 0 < n.toInt then
    let (sz,pd) ← allocuvm pd sz (sz+n)
    setPgdir pd
    if sz = 0 then pure (-1)
    else
      setSize sz
      pure 0
  else if n.toInt < 0 then
    let (sz,pd) ← deallocuvm pd sz (sz+n)
    setPgdir pd
    if sz = 0 then pure (-1)
    else
      setSize sz
      pure 0
  else
    setSize sz
    pure 0

section Property

structure AddressSpace (s : Ctx) : Prop where
  size : s.cur.sz ≤ KERNBASE
  pages : ∀ x, PGROUNDDOWN x < s.cur.sz → s.cur.pgdir.present x
  others : ∀ x, x < MMAPBASE → s.cur.pgdir.present x → PGROUNDDOWN x < s.cur.sz
  accounted : Accounted s [] s.cur.pgdir

def Kept (s s' : Ctx) (x : Word) : Prop := ∀ pte, walkpgdir s.cur.pgdir x = some pte →
  walkpgdir s'.cur.pgdir x = some pte ∧ s'.mem.page pte.frame = s.mem.page pte.frame

structure Resized (s s' : Ctx) (n : Word) : Prop where
  size : (s'.cur.sz.toNat : ℤ) = s.cur.sz.toNat+n.toInt
  present : ∀ x, x < MMAPBASE → (s'.cur.pgdir.present x ↔ PGROUNDDOWN x < s'.cur.sz)
  new : ∀ x, PGROUNDDOWN x < s'.cur.sz → ¬ PGROUNDDOWN x < s.cur.sz →
    ∃ pte, walkpgdir s'.cur.pgdir x = some pte ∧ pte.p = true ∧ s'.mem.page pte.frame = fun _ => 0
  old : ∀ x, PGROUNDDOWN x < s'.cur.sz → PGROUNDDOWN x < s.cur.sz → Kept s s' x

structure Unchanged (s s' : Ctx) : Prop where
  size : s'.cur.sz = s.cur.sz
  entries : ∀ x pte, walkpgdir s.cur.pgdir x = some pte → pte.p = true → walkpgdir s'.cur.pgdir x = some pte
  contents : ∀ x, x < KERNBASE → s.cur.pgdir.present x → Kept s s' x
  tables : ∀ d f, (s.cur.pgdir.pde d).map Prod.fst = some f → (s'.cur.pgdir.pde d).map Prod.fst = some f
  free : (tableFrames s.cur.pgdir ++ s.mem.freelist).Perm (tableFrames s'.cur.pgdir ++ s'.mem.freelist)

structure AllOrNothing (s : Ctx) (n : Word) : Prop where
  returns : ∃ r s', growproc n s = .ok r s' ∧ (r = 0 ∨ r = -1)
  done : ∀ s', growproc n s = .ok 0 s' → Resized s s' n
  failed : ∀ s', growproc n s = .ok (-1) s' → Unchanged s s'
  mappings : ∀ r s', growproc n s = .ok r s' → ∀ x, MMAPBASE ≤ x → x < KERNBASE → ¬ PGROUNDDOWN x < s.cur.sz →
    s.cur.pgdir.present x → Kept s s' x

structure Growable (s : Ctx) (n : Word) : Prop where
  shrinks : n.toInt < 0 → s.cur.sz = 0 ∨ 0 < s.cur.sz.toNat+n.toInt
  grows : 0 < n.toInt → s.cur.sz+n < KERNBASE → ∀ x, InRange s.cur.sz (s.cur.sz+n) x → ¬ s.cur.pgdir.present x

end Property

section Steps
variable {s₁ : Ctx} {B : Set Frame} {sz : Word}

def Ctx.withSpace (s : Ctx) (pd : PageDir) (sz : Word) : Ctx := { s with cur := { s.cur with pgdir := pd, sz := sz } }

theorem walkpgdir_kept {pte : Pte} (hc : Conserves B [] pd s [] pd' s₁) (hentry : entry pd' x = entry pd x)
    (hw : walkpgdir pd x = some pte) : walkpgdir pd' x = some pte := by
  have htable : (pd'.pde (PDX x)).isSome := by
    rw [walkpgdir,Option.map_eq_some_iff] at hw
    obtain ⟨t,ht,-⟩ := hw
    have htables := hc.tables (PDX x) t.1 (by rw [ht]; rfl)
    rw [Option.map_eq_some_iff] at htables
    obtain ⟨t',ht',-⟩ := htables
    rw [ht']
    rfl
  rw [walkpgdir_of_table htable,hentry,entry_of_walkpgdir hw]

theorem kept_of_entry (hc : Conserves B [] s.cur.pgdir s [] pd' s₁) (hentry : entry pd' x = entry s.cur.pgdir x)
    (hB : (entry s.cur.pgdir x).frame ∉ B) : Kept s (Ctx.withSpace s₁ pd' sz) x := by
  intro pte hw
  refine ⟨walkpgdir_kept hc hentry hw,?_⟩
  rw [entry_of_walkpgdir hw] at hB
  exact hc.pages _ hB

theorem AddressSpace.present_iff (h : AddressSpace s) (hx : x < MMAPBASE) :
    s.cur.pgdir.present x ↔ PGROUNDDOWN x < s.cur.sz := ⟨h.others x hx,h.pages x⟩

/-- The free list and the page tables together have kept their frames when the user's pages have. -/
theorem free_of_pages (hc : Conserves B [] pd s [] pd' s₁)
    (hpages : ∀ x : Word, x.toNat < 2^31 → frameOf (walkpgdir pd' x) = frameOf (walkpgdir pd x)) :
    (tableFrames pd ++ s.mem.freelist).Perm (tableFrames pd' ++ s₁.mem.freelist) := by
  have hsame : pageFrames pd' = pageFrames pd := by
    refine items_congr fun k _ => hpages _ ?_
    have hlt := k.isLt
    have hbound : UPAGES = 2^19 := rfl
    rw [pageAt_page]
    omega
  have hmid : ∀ (pd : PageDir) (l : List Frame), (owned pd ++ l).Perm (pageFrames pd ++ (pd.frame :: (tableFrames pd ++ l))) := by
    intro pd l
    refine ((owned_split pd).append_right l).trans ?_
    rw [List.append_assoc]
    refine .append_left _ ?_
    rw [List.append_assoc]
    exact List.perm_middle
  have hperm := ((hmid pd s.mem.freelist).symm.trans hc.frames).trans (hmid pd' s₁.mem.freelist)
  rw [hsame,hc.root,List.perm_append_left_iff] at hperm
  exact hperm.cons_inv

end Steps

section Grow
variable {s₁ : Ctx} {newsz : Word}

theorem sum_toNat (hsize : s.cur.sz ≤ KERNBASE) (hn : 0 < n.toInt) :
    (s.cur.sz+n).toNat = s.cur.sz.toNat+n.toNat ∧ n.toInt = n.toNat := by
  have hsize' : s.cur.sz.toNat ≤ 2^31 := BitVec.le_def.mp hsize
  have hint := BitVec.toInt_eq_toNat_cond n
  have := n.isLt
  split at hint
  · refine ⟨?_,hint⟩
    rw [BitVec.toNat_add]
    omega
  · omega

theorem growproc_alloc {sz : Word} (hn : 0 < n.toInt)
    (h : allocuvm s.cur.pgdir s.cur.sz (s.cur.sz+n) s = .ok (sz,pd') s₁) :
    growproc n s = if sz = 0 then .ok (-1) (Ctx.withSpace s₁ pd' s₁.cur.sz) else .ok 0 (Ctx.withSpace s₁ pd' sz) := by
  unfold growproc
  rw [get_bind_apply,get_bind_apply,if_pos hn,bind_of_ok h]
  dsimp only
  split
  · rfl
  · rfl

theorem Allocated.resized (h : Allocated (PGROUNDUP s.cur.sz) (s.cur.sz+n) s.cur.pgdir s pd' s₁) (hspace : AddressSpace s)
    (hn : 0 < n.toInt) (hlt : s.cur.sz+n < KERNBASE) : Resized s (Ctx.withSpace s₁ pd' (s.cur.sz+n)) n := by
  obtain ⟨hsum,hint⟩ := sum_toNat hspace.size hn
  have hlt' : (s.cur.sz+n).toNat < 2^31 := BitVec.lt_def.mp hlt
  have hbase : MMAPBASE.toNat = 0x60000000 := rfl
  have hlo : s.cur.sz.toNat+4095 < 2^32 := by omega
  have hspans := spans_iff hlo (s.cur.sz+n)
  have hrange := inRange_toNat hlo (s.cur.sz+n)
  refine ⟨?_,fun x hx => ?_,fun x hnew hold => ?_,fun x _ hold => ?_⟩
  · change ((s.cur.sz+n).toNat : ℤ) = _
    rw [hsum,hint]
    exact Int.natCast_add _ _
  · change pd'.present x ↔ PGROUNDDOWN x < s.cur.sz+n
    rw [present_iff_entry]
    by_cases hin : Spans (PGROUNDUP s.cur.sz) (s.cur.sz+n) x
    · rw [(h.flags x hin).1,BitVec.lt_def,PGROUNDDOWN_toNat]
      simp only [true_iff]
      exact hin.2
    · rw [h.old x hin,← present_iff_entry,hspace.present_iff hx,BitVec.lt_def,BitVec.lt_def,PGROUNDDOWN_toNat]
      rw [hspans,hrange] at hin
      omega
  · have hin : Spans (PGROUNDUP s.cur.sz) (s.cur.sz+n) x := by
      have hnew : PGROUNDDOWN x < s.cur.sz+n := hnew
      rw [BitVec.lt_def,PGROUNDDOWN_toNat] at hnew hold
      rw [hspans,hrange]
      omega
    have hp := (h.flags x hin).1
    exact ⟨entry pd' x,walkpgdir_of_table (table_of_present hp),hp,h.zero x hin⟩
  · have hout : ¬ Spans (PGROUNDUP s.cur.sz) (s.cur.sz+n) x := by
      rw [BitVec.lt_def,PGROUNDDOWN_toNat] at hold
      rw [hspans,hrange]
      omega
    refine kept_of_entry h.conserves (h.old x hout) ?_
    have hlow : x.toNat < 2^31 := by
      rw [BitVec.lt_def,PGROUNDDOWN_toNat] at hold
      omega
    exact hspace.accounted.not_free (entry_owned hlow (present_iff_entry.mp (hspace.pages x hold)))

theorem Undone.unchanged (h : Undone s.cur.sz newsz s.cur.pgdir s pd' s₁) (hspace : AddressSpace s)
    (hempty : ∀ x, InRange s.cur.sz newsz x → ¬ s.cur.pgdir.present x) : Unchanged s (Ctx.withSpace s₁ pd' s₁.cur.sz) := by
  have hout : ∀ x, s.cur.pgdir.present x → ¬ InRange s.cur.sz newsz x := fun x hp hin => hempty x hin hp
  have hkept : ∀ x, x < KERNBASE → s.cur.pgdir.present x → Kept s (Ctx.withSpace s₁ pd' s₁.cur.sz) x := by
    intro x hx hp
    refine kept_of_entry h.conserves (h.kept x (hout x hp)) ?_
    rintro (hfree | ⟨y,hy,hpy,-⟩)
    · exact hspace.accounted.not_free (entry_owned (BitVec.lt_def.mp hx) (present_iff_entry.mp hp)) hfree
    · exact hempty y hy (present_iff_entry.mpr hpy)
  have hfree : (tableFrames s.cur.pgdir ++ s.mem.freelist).Perm (tableFrames pd' ++ s₁.mem.freelist) := by
    refine free_of_pages h.conserves fun x _ => ?_
    by_cases hin : InRange s.cur.sz newsz x
    · have hnone : (entry s.cur.pgdir x).p = false :=
        Bool.eq_false_iff.mpr fun hp => hempty x hin (present_iff_entry.mpr hp)
      rw [frameOf_eq_none.mpr (h.cleared x hin),frameOf_eq_none.mpr hnone]
    · rw [frameOf_walkpgdir,frameOf_walkpgdir,h.kept x hin]
  have hcur : s₁.cur.sz = s.cur.sz := congrArg Proc.sz (h.conserves.mem.cur_eq)
  exact ⟨hcur,fun x pte hw hp => walkpgdir_kept h.conserves (h.kept x (hout x ⟨pte,hw,hp⟩)) hw,hkept,
    h.conserves.tables,hfree⟩

end Grow

section Shrink
variable {s₁ : Ctx} {newsz : Word}

theorem growproc_dealloc {sz : Word} (hn : n.toInt < 0)
    (h : deallocuvm s.cur.pgdir s.cur.sz (s.cur.sz+n) s = .ok (sz,pd') s₁) :
    growproc n s = if sz = 0 then .ok (-1) (Ctx.withSpace s₁ pd' s₁.cur.sz) else .ok 0 (Ctx.withSpace s₁ pd' sz) := by
  have hpos : ¬ 0 < n.toInt := by omega
  unfold growproc
  rw [get_bind_apply,get_bind_apply,if_neg hpos,if_pos hn,bind_of_ok h]
  dsimp only
  split
  · rfl
  · rfl

theorem growproc_zero (hn : n.toInt = 0) : growproc n s = .ok 0 s := by
  have hpos : ¬ 0 < n.toInt := by omega
  have hneg : ¬ n.toInt < 0 := by omega
  unfold growproc
  rw [get_bind_apply,get_bind_apply,if_neg hpos,if_neg hneg]
  rfl

/-- The sum of a size and a negative number: it wraps around when it is below zero. -/
theorem diff_toNat (s : Ctx) (hn : n.toInt < 0) : ((s.cur.sz+n).toNat : ℤ) = s.cur.sz.toNat+n.toInt ∨
    (s.cur.sz.toNat : ℤ)+n.toInt < 0 ∧ s.cur.sz ≤ s.cur.sz+n := by
  have hint := BitVec.toInt_eq_toNat_cond n
  have := n.isLt
  have := s.cur.sz.isLt
  have hadd := BitVec.toNat_add s.cur.sz n
  split at hint
  · omega
  · by_cases hneg : (s.cur.sz.toNat : ℤ)+n.toInt < 0
    · refine .inr ⟨hneg,BitVec.le_def.mpr ?_⟩
      omega
    · left
      omega

theorem Dropped.resized (h : Dropped [] s.cur.pgdir s (s.cur.sz+n) s.cur.sz pd' s₁) (hspace : AddressSpace s)
    (hsum : ((s.cur.sz+n).toNat : ℤ) = s.cur.sz.toNat+n.toInt) (hn : n.toInt < 0) :
    Resized s (Ctx.withSpace s₁ pd' (s.cur.sz+n)) n ∧
    ∀ x, x < KERNBASE → s.cur.pgdir.present x → ¬ InRange (s.cur.sz+n) s.cur.sz x →
      Kept s (Ctx.withSpace s₁ pd' (s.cur.sz+n)) x := by
  have hsize : s.cur.sz.toNat ≤ 2^31 := BitVec.le_def.mp hspace.size
  have hlo : (s.cur.sz+n).toNat+4095 < 2^32 := by omega
  have hrange := inRange_toNat hlo s.cur.sz
  have hkept : ∀ x, x < KERNBASE → s.cur.pgdir.present x → ¬ InRange (s.cur.sz+n) s.cur.sz x →
      Kept s (Ctx.withSpace s₁ pd' (s.cur.sz+n)) x := by
    intro x hx hp hout
    refine kept_of_entry h.conserves (h.kept x hout) ?_
    rintro ⟨y,hy,hpy,heq⟩
    have hy' := (hrange y).mp hy
    have hnodup := (List.nodup_append.mp hspace.accounted.nodup).2.1
    have hpage := entry_inj (List.nodup_append.mp hnodup).1 (BitVec.lt_def.mp hx) (by omega) (present_iff_entry.mp hp) hpy heq
    apply hout
    rw [hrange,← hpage]
    exact hy'
  refine ⟨⟨hsum,fun x hx => ?_,fun x hnew hold => ?_,fun x hnew hold => ?_⟩,hkept⟩
  · change pd'.present x ↔ PGROUNDDOWN x < s.cur.sz+n
    rw [present_iff_entry]
    by_cases hin : InRange (s.cur.sz+n) s.cur.sz x
    · rw [h.cleared x hin,BitVec.lt_def,PGROUNDDOWN_toNat]
      rw [hrange] at hin
      simp only [Bool.false_eq_true,false_iff]
      omega
    · rw [h.kept x hin,← present_iff_entry,hspace.present_iff hx,BitVec.lt_def,BitVec.lt_def,PGROUNDDOWN_toNat]
      rw [hrange] at hin
      omega
  · have hnew : PGROUNDDOWN x < s.cur.sz+n := hnew
    rw [BitVec.lt_def] at hnew hold
    omega
  · have hnew : PGROUNDDOWN x < s.cur.sz+n := hnew
    have hp := hspace.pages x hold
    rw [BitVec.lt_def,PGROUNDDOWN_toNat] at hnew hold
    refine hkept x (BitVec.lt_def.mpr ?_) hp ?_
    · have : KERNBASE.toNat = 2^31 := rfl
      omega
    · rw [hrange]
      omega

end Shrink

section Main
variable {s₁ : Ctx}

theorem allOrNothing_done (h : growproc n s = .ok 0 s₁) (hdone : Resized s s₁ n)
    (hmappings : ∀ x, MMAPBASE ≤ x → x < KERNBASE → ¬ PGROUNDDOWN x < s.cur.sz → s.cur.pgdir.present x → Kept s s₁ x) :
    AllOrNothing s n := by
  refine ⟨⟨0,s₁,h,.inl rfl⟩,fun s' h' => ?_,fun s' h' => ?_,fun r' s' h' => ?_⟩
  · rw [h] at h'
    cases h'
    exact hdone
  · rw [h] at h'
    cases h'
  · rw [h] at h'
    cases h'
    exact hmappings

theorem allOrNothing_failed (h : growproc n s = .ok (-1) s₁) (hfailed : Unchanged s s₁) : AllOrNothing s n := by
  refine ⟨⟨-1,s₁,h,.inr rfl⟩,fun s' h' => ?_,fun s' h' => ?_,fun r' s' h' => ?_⟩
  · rw [h] at h'
    cases h'
  · rw [h] at h'
    cases h'
    exact hfailed
  · rw [h] at h'
    cases h'
    exact fun x _ hx _ hp => hfailed.contents x hx hp

theorem kept_refl (s : Ctx) (x : Word) : Kept s s x := fun _ hw => ⟨hw,rfl⟩

theorem Unchanged.refl (s : Ctx) : Unchanged s s :=
  ⟨rfl,fun _ _ hw _ => hw,fun x _ _ => kept_refl s x,fun _ _ hd => hd,.rfl⟩

theorem Resized.refl (hspace : AddressSpace s) (hn : n.toInt = 0) : Resized s s n :=
  ⟨by omega,fun _ hx => hspace.present_iff hx,fun _ hnew hold => absurd hnew hold,fun x _ _ => kept_refl s x⟩

theorem deallocuvm_not_smaller {oldsz newsz : Word} (h : oldsz ≤ newsz) : deallocuvm pd oldsz newsz s = .ok (oldsz,pd) s := by
  unfold deallocuvm
  rw [if_pos h]
  rfl

theorem allOrNothing_shrink (hspace : AddressSpace s) (hn : n.toInt < 0)
    (h : s.cur.sz = 0 ∨ 0 < s.cur.sz.toNat+n.toInt) : AllOrNothing s n := by
  rcases h with hzero | hpos
  · have hle : s.cur.sz ≤ s.cur.sz+n := by
      rw [hzero]
      exact BitVec.le_def.mpr (Nat.zero_le _)
    have hrun := growproc_dealloc hn (deallocuvm_not_smaller hle)
    rw [if_pos hzero] at hrun
    exact allOrNothing_failed hrun (.refl s)
  · have hsum := (diff_toNat s hn).resolve_right fun h => by omega
    have hlt : s.cur.sz+n < s.cur.sz := BitVec.lt_def.mpr (by omega)
    obtain ⟨pd',s₁,hdealloc,hdrop⟩ := deallocuvm_drops hlt hspace.size hspace.accounted
    have hrun := growproc_dealloc hn hdealloc
    have hne : s.cur.sz+n ≠ 0 := by
      intro hzero
      rw [hzero,show (0 : Word).toNat = 0 from rfl] at hsum
      omega
    rw [if_neg hne] at hrun
    obtain ⟨hres,hkept⟩ := hdrop.resized hspace hsum hn
    exact allOrNothing_done hrun hres fun x _ hx hout hp => hkept x hx hp fun hin => hout hin.2

theorem allOrNothing_grow (hspace : AddressSpace s) (hn : 0 < n.toInt)
    (h : s.cur.sz+n < KERNBASE → ∀ x, InRange s.cur.sz (s.cur.sz+n) x → ¬ s.cur.pgdir.present x) : AllOrNothing s n := by
  obtain ⟨hsum,hint⟩ := sum_toNat hspace.size hn
  by_cases hlt : s.cur.sz+n < KERNBASE
  · have hne : s.cur.sz+n ≠ 0 := by
      intro hzero
      rw [hzero,show (0 : Word).toNat = 0 from rfl] at hsum
      omega
    have hle : s.cur.sz ≤ s.cur.sz+n := BitVec.le_def.mpr (by omega)
    rcases allocuvm_cases hspace.accounted hle hlt with ⟨pd',s₁,halloc,hdone⟩ | ⟨pd',s₁,halloc,hundone⟩
    · have hrun := growproc_alloc hn halloc
      rw [if_neg hne] at hrun
      refine allOrNothing_done hrun (hdone.resized hspace hn hlt) fun x _ hx _ hp => ?_
      have hout : ¬ Spans (PGROUNDUP s.cur.sz) (s.cur.sz+n) x := by
        intro hin
        have hempty := hdone.empty x hin
        rw [present_iff_entry.mp hp] at hempty
        cases hempty
      refine kept_of_entry hdone.conserves (hdone.old x hout) ?_
      exact hspace.accounted.not_free (entry_owned (BitVec.lt_def.mp hx) (present_iff_entry.mp hp))
    · have hrun := growproc_alloc hn halloc
      rw [if_pos rfl] at hrun
      exact allOrNothing_failed hrun (hundone.unchanged hspace (h hlt))
  · have halloc : allocuvm s.cur.pgdir s.cur.sz (s.cur.sz+n) s = .ok (0,s.cur.pgdir) s := by
      unfold allocuvm
      rw [if_pos (BitVec.not_lt.mp hlt)]
      rfl
    have hrun := growproc_alloc hn halloc
    rw [if_pos rfl] at hrun
    exact allOrNothing_failed hrun (.refl s)

theorem not_unchanged (hp : s.cur.pgdir.present x) (hclear : (entry pd' x).p = false) {sz : Word} :
    ¬ Unchanged s (Ctx.withSpace s₁ pd' sz) := by
  intro h
  obtain ⟨pte,hw,hp⟩ := hp
  have hentry : entry pd' x = pte := entry_of_walkpgdir (h.entries x pte hw hp)
  rw [hentry,hp] at hclear
  cases hclear

/-- `growproc` is all or nothing for the requests that leave something and that grow into free space. -/
theorem growproc_allOrNothing (hspace : AddressSpace s) : AllOrNothing s n ↔ Growable s n := by
  constructor
  · intro h
    refine ⟨fun hn => ?_,fun hn hlt x hin hp => ?_⟩
    · by_contra hnot
      rw [not_or] at hnot
      obtain ⟨hne,hneg⟩ := hnot
      rcases diff_toNat s hn with hsum | ⟨-,hle⟩
      · -- nothing is left of the process: its pages are freed, and the call reports a failure
        have hzero : s.cur.sz+n = 0 := BitVec.eq_of_toNat_eq (by rw [show (0 : Word).toNat = 0 from rfl]; omega)
        have hpos : (0 : Word) < s.cur.sz := BitVec.lt_def.mpr
          (Nat.pos_of_ne_zero fun h => hne (BitVec.eq_of_toNat_eq h))
        have hlt : s.cur.sz+n < s.cur.sz := by
          rw [hzero]
          exact hpos
        obtain ⟨pd',s₁,hdealloc,hdrop⟩ := deallocuvm_drops hlt hspace.size hspace.accounted
        have hrun := growproc_dealloc hn hdealloc
        rw [if_pos hzero] at hrun
        have hdown : PGROUNDDOWN 0 = 0 := by decide
        have hin : InRange (s.cur.sz+n) s.cur.sz 0 := by
          rw [hzero]
          refine ⟨by decide,?_⟩
          rw [hdown]
          exact hpos
        exact not_unchanged (hspace.pages 0 (by rw [hdown]; exact hpos)) (hdrop.cleared 0 hin) (h.failed _ hrun)
      · -- the new size wraps around, and the call reports success without a change
        have hrun := growproc_dealloc hn (deallocuvm_not_smaller hle)
        rw [if_neg hne] at hrun
        have hsize : (s.cur.sz.toNat : ℤ) = s.cur.sz.toNat+n.toInt := (h.done _ hrun).size
        omega
    · obtain ⟨hsum,hint⟩ := sum_toNat hspace.size hn
      have hle : s.cur.sz ≤ s.cur.sz+n := BitVec.le_def.mpr (by omega)
      rcases allocuvm_cases hspace.accounted hle hlt with ⟨pd',s₁,-,hdone⟩ | ⟨pd',s₁,halloc,hundone⟩
      · have hsize : s.cur.sz.toNat ≤ 2^31 := BitVec.le_def.mp hspace.size
        have hempty := hdone.empty x ((spans_iff (by omega) _ _).mpr hin)
        rw [present_iff_entry.mp hp] at hempty
        cases hempty
      · have hrun := growproc_alloc hn halloc
        rw [if_pos rfl] at hrun
        exact not_unchanged hp (hundone.cleared x hin) (h.failed _ hrun)
  · intro h
    rcases lt_trichotomy n.toInt 0 with hn | hn | hn
    · exact allOrNothing_shrink hspace hn (h.shrinks hn)
    · exact allOrNothing_done (growproc_zero hn) (.refl hspace hn) fun x _ _ _ _ => kept_refl s x
    · exact allOrNothing_grow hspace hn (h.grows hn)

end Main

section Instances

theorem firstCtx_nodup : (owned firstCtx.cur.pgdir).Nodup := by
  refine List.Nodup.filterMap (fun p q f hp hq => ?_) nodup_places
  rcases firstCtx_holds hp with ⟨rfl,rfl⟩ | ⟨rfl,rfl⟩ | ⟨rfl,rfl⟩ <;>
    rcases firstCtx_holds hq with ⟨rfl,h⟩ | ⟨rfl,h⟩ | ⟨rfl,h⟩ <;> first | rfl | cases h

theorem accounted_firstCtx : Accounted firstCtx [] firstCtx.cur.pgdir := by
  constructor
  · rw [List.nil_append]
    refine List.nodup_append.mpr ⟨firstCtx_nodup,soundFree_firstCtx.nodup,fun f hf g hg => ?_⟩
    rintro rfl
    exact soundFree_firstCtx.apart f hf hg
  · intro f hf
    rw [List.nil_append] at hf
    rcases List.mem_append.mp hf with hf | hf
    · rcases firstCtx_owned hf with rfl | rfl | rfl <;> exact ⟨by decide,by decide⟩
    · exact soundFree_firstCtx.owns f hf

theorem addressSpace_firstCtx : AddressSpace firstCtx := by
  refine ⟨by decide,firstCtx_present,fun x _ hp => ?_,accounted_firstCtx⟩
  obtain ⟨f,hf⟩ := Option.isSome_iff_exists.mp (present_iff.mp hp)
  have hsz : firstCtx.cur.sz.toNat = 4096 := rfl
  rw [BitVec.lt_def,PGROUNDDOWN_toNat,(firstCtx_frame hf).1,hsz]
  decide

/-- A process of one page asks to be two pages smaller: the call returns 0 and changes nothing. -/
theorem growproc_below_zero : growproc (-8192) firstCtx = .ok 0 firstCtx ∧ ¬ AllOrNothing firstCtx (-8192) := by
  have hrun : growproc (-8192) firstCtx = .ok 0 firstCtx := by
    have hn : (-8192 : Word).toInt < 0 := by decide
    have hstep := growproc_dealloc hn (deallocuvm_not_smaller (show firstCtx.cur.sz ≤ firstCtx.cur.sz+ -8192 by decide))
    rwa [if_neg (by decide)] at hstep
  refine ⟨hrun,fun h => ?_⟩
  exact absurd (h.done _ hrun).size (by decide)

theorem growproc_firstCtx : AddressSpace firstCtx ∧ (AllOrNothing firstCtx 4096 ↔ Growable firstCtx 4096) :=
  ⟨addressSpace_firstCtx,growproc_allOrNothing addressSpace_firstCtx⟩

end Instances
end Xv6.Vm
