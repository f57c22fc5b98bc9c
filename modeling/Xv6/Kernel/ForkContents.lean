import Xv6.Kernel.FirstRead
import Xv6.Vm.Copy

/-! # Private mappings after a fork

`copyuvm` copies the pages below the size of the process only. The child finds the
mappings in the shared table without any page behind them, and its first access gets
what the page fault handler puts there.
-/
namespace Xv6.Kernel
open Wmap Program Vm
variable {s s₁ : Ctx} {t t' : Table} {x a : Word} {p : Ptr} {child : Proc} {pd d : PageDir} {sz : Word}

section Directory

theorem translate_entry (pd : PageDir) (x : Word) : translate pd .userRead x =
    if (entry pd x).p = true ∧ (entry pd x).u = true then some (entry pd x).frame else none := by
  rw [translate,entry]
  cases walkpgdir pd x with
  | none => rfl
  | some pte =>
    obtain ⟨f,p,w,u⟩ := pte
    cases p <;> cases u <;> rfl

end Directory

section Contents

def currentByte (s : Ctx) (x : Word) : Byte :=
  match translate s.cur.pgdir .userRead x with
  | some f => s.mem.page f (offsetIn x)
  | none => 0

/-- The page is one that `copyuvm` has copied, and the copy has the byte. -/
structure Kept (s s₁ : Ctx) (child : Proc) (x : Word) : Prop where
  below : x.toNat/4096*4096 < s.cur.sz.toNat
  user : (entry s.cur.pgdir x).u = true
  copy : s₁.mem.page (entry child.pgdir x).frame (offsetIn x) = currentByte s x

/-- The handler finds a mapping for the address in the table that the fork leaves, the child has no page table for the
page that it turns to, and there are a frame to map and one for the page table; and the frame that is then behind the
address has the byte. -/
def Refilled (s s₁ : Ctx) (child : Proc) (x : Word) : Prop :=
  ∃ p f u g fs k, pageInMappings s₁.tab x = .ok (some p) ∧
    s.cur.sz.toNat ≤ (faultPage (s₁.tab.deref p).startAddress x).toNat/2^22*2^22 ∧
    ¬ kernelMapped (faultPage (s₁.tab.deref p).startAddress x) ∧ Fetches { s₁ with cur := child } p f u ∧
    u.mem.freelist = g :: fs ∧ Lands child.pgdir (faultPage (s₁.tab.deref p).startAddress x) x f fs k ∧
    u.mem.page k (offsetIn x) = currentByte s x

theorem Lands.above {f k : Frame} {fs : List Frame} (h : Lands pd a x f fs k) (ha : ¬ kernelMapped a) :
    a.toNat/2^22*2^22 ≤ x.toNat/4096*4096 := by
  have hdown := PGROUNDDOWN_toNat a
  have hlt := a.isLt
  unfold kernelMapped at ha
  rcases h with ⟨hpage,-⟩ | ⟨hpage,-⟩
  · omega
  · rw [nextPage,BitVec.toNat_add,page_toNat] at hpage
    omega

theorem Refilled.above (h : Refilled s s₁ child x) : s.cur.sz.toNat ≤ x.toNat/4096*4096 := by
  obtain ⟨p,f,u,g,fs,k,-,hsz,hmapped,-,-,hlands,-⟩ := h
  exact hsz.trans (hlands.above hmapped)

theorem fork_dir (hfork : fork s = .ok (some child) s₁) :
    ChildDir s.cur.pgdir child.pgdir ((s.cur.sz.toNat+4095)/4096) ∧ s.cur.sz.toNat ≤ 2^31 := by
  obtain ⟨u,u₁,kstack,hcopy,-⟩ := (fork_ok hfork).copied
  exact copyuvm_dir hcopy

/-- Where the free frames are distinct and not in use, the copies of `copyuvm` have the bytes. -/
theorem kept_of_sound (hsound : SoundFree s (owned s.cur.pgdir)) (hfork : fork s = .ok (some child) s₁)
    (hx : x.toNat/4096*4096 < s.cur.sz.toNat) (hu : (entry s.cur.pgdir x).u = true) : Kept s s₁ child x := by
  obtain ⟨u,u₁,kstack,hcopy,hmem,hmem'⟩ := (fork_ok hfork).copied
  have hdir := (fork_dir hfork).1
  have hj : x.toNat/4096 < (s.cur.sz.toNat+4095)/4096 := by omega
  have hfree : s.mem.freelist = kstack :: u.mem.freelist := by rw [hmem]
  have hsound' : SoundFree u (owned s.cur.pgdir) := by
    refine ⟨(hfree ▸ hsound.nodup).of_cons,fun f hf => ?_,fun f hf hin => ?_⟩
    · have howns := hsound.owns f (hfree ▸ List.mem_cons_of_mem _ hf)
      rw [hmem] at howns
      exact howns
    · exact hsound.apart f hf (hfree ▸ List.mem_cons_of_mem _ hin)
  have hpages : ∀ y : Word, PGROUNDDOWN y < s.cur.sz → s.cur.pgdir.present y := fun y hy => by
    rw [BitVec.lt_def,PGROUNDDOWN_toNat] at hy
    exact present_iff_entry.mpr (hdir.parent y (by omega))
  rcases copyuvm_cases hsound' hpages with ⟨d,u₂,hrun,hdone,-⟩ | ⟨u₂,hrun,-⟩
  · rw [hcopy] at hrun
    cases hrun
    refine ⟨hx,hu,?_⟩
    rw [currentByte,translate_entry,if_pos ⟨hdir.parent x hj,hu⟩,hmem',hdone.contents x hj,hmem]
  · rw [hcopy] at hrun
    cases hrun

end Contents

section Instances

/-- A process with one page and one private mapping, which can fork. -/
structure Parent (s : Ctx) : Prop where
  reachable : Reachable s.tab
  entries : ∃ n, s.tab.entries = [⟨MMAPBASE,1,4096,0,13,n⟩]
  helper : ∃ t, forkHelper s.tab = .ok t
  slot : s.unused ≠ 0
  size : s.cur.sz = 4096
  first : walkpgdir s.cur.pgdir 0 = some ⟨0x302,true,true,true⟩
  room : 1029 ≤ s.mem.freelist.length
  files : ∀ fd, s.cur.ofile fd = none

theorem pageInMappings_covers (hw : WF t) {e : Entry} (he : e ∈ t.entries) (hcov : e.covers x = true)
    (hx : x.toNat < 2^31) : ∃ p, pageInMappings t x = .ok (some p) ∧ t.entry p ∈ t.entries := by
  obtain ⟨i,hi⟩ := slotOf_lower hx
  cases hfind : t.findPage i x with
  | none =>
    rw [entries_eq] at he
    obtain ⟨q,hq,rfl⟩ := List.mem_map.mp he
    rw [Table.findPage,Option.or_eq_none_iff] at hfind
    exact absurd hcov (List.find?_eq_none.mp hfind.2 q hq)
  | some p =>
    have hp : pageInMappings t x = .ok (some p) := by rw [pageInMappings_eq hw hi,hfind]
    refine ⟨p,hp,?_⟩
    rw [entries_eq]
    exact List.mem_map_of_mem (pageInMappings_mem hw hp).1

/-- The handler finds the mapping or its copy, and turns to the page of the address. -/
theorem Parent.found (h : Parent s) (hfork : fork s = .ok (some child) s₁) (hx : x.toNat/4096 = 0x60000) :
    ∃ p, pageInMappings s₁.tab x = .ok (some p) ∧ faultPage (s₁.tab.deref p).startAddress x = MMAPBASE ∧
      (s₁.tab.deref p).flags &&& MAP_ANONYMOUS ≠ 0 := by
  obtain ⟨n,hn⟩ := h.entries
  have hcopied := (forkHelper_copied h.reachable.wf (fork_ok hfork).tab).1
  obtain ⟨l,hperm,hcopies⟩ := hcopied.extra
  have hentry : ∀ e ∈ s₁.tab.entries, e.startAddress = MMAPBASE ∧ e.flags = 13 := by
    intro e he
    rcases List.mem_append.mp (hperm.mem_iff.mp he) with he | he
    · obtain ⟨f,hf,rfl⟩ := hcopies e he
      rw [hn,List.mem_singleton] at hf
      subst hf
      exact ⟨rfl,rfl⟩
    · rw [hn,List.mem_singleton] at he
      subst he
      exact ⟨rfl,rfl⟩
  have hlive : (⟨MMAPBASE,1,4096,0,13,n⟩ : Entry) ∈ s₁.tab.entries :=
    hperm.mem_iff.mpr (List.mem_append_right _ (by rw [hn]; exact List.mem_singleton_self _))
  have hcovers : Entry.covers ⟨MMAPBASE,1,4096,0,13,n⟩ x = true := by
    change (decide (MMAPBASE ≤ x) && decide (x < MMAPBASE+1*4096)) = true
    rw [Bool.and_eq_true,decide_eq_true_iff,decide_eq_true_iff,BitVec.le_def,BitVec.lt_def]
    change 0x60000000 ≤ x.toNat ∧ x.toNat < 0x60001000
    omega
  obtain ⟨p,hp,hmem⟩ := pageInMappings_covers hcopied.wf hlive hcovers (by omega)
  obtain ⟨hstart,hflags⟩ := hentry _ hmem
  refine ⟨p,hp,?_,?_⟩
  · change faultPage (s₁.tab.entry p).startAddress x = MMAPBASE
    rw [hstart,faultPage_eq rfl (by change 0x60000000 ≤ x.toNat; omega) (by omega)]
    apply BitVec.eq_of_toNat_eq
    rw [PGROUNDDOWN_toNat]
    change x.toNat/4096*4096 = 0x60000000
    omega
  · change (s₁.tab.entry p).flags &&& MAP_ANONYMOUS ≠ 0
    rw [hflags]
    decide

end Instances

end Xv6.Kernel
