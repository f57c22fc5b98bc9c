import Xv6.Vm.Images
import Xv6.Vm.UserMemory
import Xv6.Kernel.ForkReport

/-! # The checks of `copyout`

In the directories that a process gets, every page that the user reaches has a frame of its own.
There `copyout` replaces exactly the bytes of its range, or stops at the first page that is not
the user's; only a page without a page table is not refused but read through a null pointer.
-/
namespace Xv6.Vm
open Wmap Kernel Program
variable {s s' : Ctx} {pd : PageDir} {va x : Word}

section Built
variable {pd' : PageDir}

def Accessible (pd : PageDir) (x : Word) : Prop := ∃ pte, walkpgdir pd x = some pte ∧ pte.p = true ∧ pte.u = true

theorem accessible_iff : Accessible pd x ↔ (target pd x).isSome := by
  unfold Accessible target entry
  cases walkpgdir pd x with
  | none => simp [Pte.zero]
  | some pte => simp

theorem Accessible.table (h : Accessible pd x) : (pd.pde (PDX x)).isSome := by
  obtain ⟨pte,hw,-⟩ := h
  exact table_of_walk hw

/-- The directories that `setupkvm`, `allocuvm` and `clearpteu` build, with any contents in their pages. -/
inductive Built : Ctx → PageDir → Prop
  | setup {s s' : Ctx} {pd : PageDir} : SoundFree s [] → setupkvm s = .ok (some pd) s' → Built s' pd
  | alloc {s s' : Ctx} {pd pd' : PageDir} {oldsz newsz r : Word} :
    Built s pd → allocuvm pd oldsz newsz s = .ok (r,pd') s' → Built s' pd'
  | clear {s s' : Ctx} {pd pd' : PageDir} {uva : Word} : Built s pd → clearpteu pd uva s = .ok pd' s' → Built s' pd'
  | fill {s : Ctx} {pd : PageDir} (page : Frame → Page) : Built s pd → Built { s with mem := { s.mem with page := page } } pd

structure Sealed (s : Ctx) (pd : PageDir) : Prop where
  accounted : Accounted s [] pd
  upper : ∀ x : Word, 2^31 ≤ x.toNat → (entry pd x).u = false

theorem Sealed.alloc {oldsz newsz r : Word} (h : Sealed s pd) (hrun : allocuvm pd oldsz newsz s = .ok (r,pd') s') :
    Sealed s' pd' := by
  by_cases hlt : newsz < KERNBASE
  · have hlow : newsz.toNat < 2^31 := BitVec.lt_def.mp hlt
    by_cases hle : oldsz ≤ newsz
    · rcases allocuvm_cases h.accounted hle hlt with ⟨pd₁,s₁,hrun₁,hdone⟩ | ⟨pd₁,s₁,hrun₁,hundone⟩
      · rw [hrun₁] at hrun
        cases hrun
        refine ⟨hdone.conserves.accounted h.accounted,fun x hx => ?_⟩
        rw [hdone.old x (by unfold Spans; omega)]
        exact h.upper x hx
      · rw [hrun₁] at hrun
        cases hrun
        refine ⟨hundone.conserves.accounted h.accounted,fun x hx => ?_⟩
        have hout : ¬ InRange oldsz newsz x := by
          rintro ⟨-,hhi⟩
          rw [BitVec.lt_def,PGROUNDDOWN_toNat] at hhi
          omega
        rw [hundone.kept x hout]
        exact h.upper x hx
    · unfold allocuvm at hrun
      rw [if_neg (BitVec.not_le.mpr hlt),if_pos (BitVec.not_le.mp hle)] at hrun
      cases hrun
      exact h
  · unfold allocuvm at hrun
    rw [if_pos (BitVec.not_lt.mp hlt)] at hrun
    cases hrun
    exact h

theorem Sealed.clear {uva : Word} (h : Sealed s pd) (hrun : clearpteu pd uva s = .ok pd' s') : Sealed s' pd' := by
  unfold clearpteu at hrun
  cases hw : walkpgdir pd uva with
  | none =>
    rw [hw] at hrun
    cases hrun
  | some pte =>
    rw [hw] at hrun
    cases hrun
    refine ⟨(conserves_clear hw).accounted h.accounted,fun x hx => ?_⟩
    rw [entry_setPte (table_of_walk hw)]
    split
    · rfl
    · exact h.upper x hx

theorem Built.sealed (h : Built s pd) : Sealed s pd := by
  induction h with
  | setup hsound hrun =>
    rcases setupkvm_cases hsound.owns with ⟨pd₁,s₁,hrun₁,hbuild,hkernel,-⟩ | ⟨s₁,hrun₁,-⟩
    · rw [hrun₁] at hrun
      cases hrun
      exact ⟨hbuild.accounted hsound,hkernel.user⟩
    · rw [hrun₁] at hrun
      cases hrun
  | alloc _ hrun ih => exact ih.alloc hrun
  | clear _ hrun ih => exact ih.clear hrun
  | fill page _ ih => exact ⟨⟨ih.accounted.nodup,ih.accounted.owns⟩,ih.upper⟩

theorem Sealed.unshared (h : Sealed s pd) : Unshared pd :=
  unshared_of_owned (List.nodup_append.mp (List.nodup_append.mp h.accounted.nodup).2.1).1 h.upper

end Built

section Main

theorem looksUp_uva2ka (pd : PageDir) : LooksUp uva2ka pd fun x => (pd.pde (PDX x)).isSome := by
  have hpage : ∀ x, walkpgdir pd (PGROUNDDOWN x) = walkpgdir pd x := fun x =>
    walkpgdir_page (by rw [PGROUNDDOWN_toNat]; omega)
  constructor
  · intro x s hx
    unfold uva2ka target
    rw [hpage,walkpgdir_of_table hx]
    dsimp only
    cases (entry pd x).p <;> cases (entry pd x).u <;> rfl
  · intro x s hx
    have hnone : pd.pde (PDX x) = none := Option.not_isSome_iff_eq_none.mp hx
    have hwalk : walkpgdir pd x = none := by
      rw [walkpgdir,hnone]
      rfl
    refine ⟨?_,?_⟩
    · unfold target entry
      rw [hwalk]
      rfl
    · unfold uva2ka
      rw [hpage,hwalk]
      rfl

/-- What `copyout` promises for a range: it returns, and it has copied the whole range or a part of
whole pages at its front. -/
structure ChecksPages (s : Ctx) (pd : PageDir) (va : Word) (buf : List Byte) : Prop where
  returns : ∃ r s', copyout pd va buf s = .ok r s' ∧ (r = 0 ∨ r = -1)
  zero : ∀ r s', copyout pd va buf s = .ok r s' → (r = 0 ↔ ∀ x, InBytes va buf.length x → Accessible pd x)
  done : ∀ s', copyout pd va buf s = .ok 0 s' → Puts s s' pd va buf
  failed : ∀ s', copyout pd va buf s = .ok (-1) s' → ∃ k ≤ buf.length, (k = 0 ∨ (va.toNat+k) % 4096 = 0) ∧
    Puts s s' pd va (buf.take k)

def TablesReached (pd : PageDir) (va : Word) (n : ℕ) : Prop := ∀ x, InBytes va n x →
  (∀ y, InBytes va n y → y.toNat/4096 < x.toNat/4096 → Accessible pd y) → (pd.pde (PDX x)).isSome

theorem checksPages_done {buf : List Byte} (hrun : copyout pd va buf s = .ok 0 s') (hput : Puts s s' pd va buf)
    (hall : ∀ x, InBytes va buf.length x → (target pd x).isSome) : ChecksPages s pd va buf := by
  refine ⟨⟨0,s',hrun,.inl rfl⟩,fun r t h => ?_,fun t h => ?_,fun t h => ?_⟩
  · rw [hrun] at h
    cases h
    exact iff_of_true rfl fun x hx => accessible_iff.mpr (hall x hx)
  · rw [hrun] at h
    cases h
    exact hput
  · rw [hrun] at h
    cases h

theorem checksPages_failed {buf : List Byte} (hrun : copyout pd va buf s = .ok (-1) s') (hstop : Stops pd va buf.length x)
    (hput : Puts s s' pd va (buf.take (x.toNat-va.toNat))) : ChecksPages s pd va buf := by
  have hinside := hstop.inside
  refine ⟨⟨-1,s',hrun,.inr rfl⟩,fun r t h => ?_,fun t h => ?_,fun t h => ?_⟩
  · rw [hrun] at h
    cases h
    refine iff_of_false (by decide) fun hall => ?_
    have hx := accessible_iff.mp (hall x hinside)
    rw [hstop.here] at hx
    cases hx
  · rw [hrun] at h
    cases h
  · rw [hrun] at h
    cases h
    refine ⟨x.toNat-va.toNat,by omega,?_,hput⟩
    rcases hstop.start with rfl | hx
    · exact .inl (Nat.sub_self _)
    · right
      omega

/-- `copyout` checks every page, as long as the first one that it has to refuse has a page table. -/
theorem copyout_checks {buf : List Byte} (hbuilt : Built s pd) (hend : va.toNat+buf.length ≤ 2^32) :
    ChecksPages s pd va buf ↔ TablesReached pd va buf.length := by
  have hcases := copyoutLoop_cases (s := s) (looksUp_uva2ka pd) hbuilt.sealed.unshared hend (Nat.lt_succ_self _)
  constructor
  · intro h x hx hearlier
    rcases hcases with ⟨s',-,-,hall⟩ | ⟨z,s',hstop,-,⟨hT,-⟩ | ⟨-,hrun⟩⟩
    · exact (accessible_iff.mpr (hall x hx)).table
    · have hinside := hstop.inside
      by_cases hbefore : x.toNat < z.toNat
      · exact (accessible_iff.mpr (hstop.before x (by omega))).table
      · by_cases hpage : z.toNat/4096 = x.toNat/4096
        · rw [← (page_indices hpage).1]
          exact hT
        · have hz := accessible_iff.mp (hearlier z hinside (by omega))
          rw [hstop.here] at hz
          cases hz
    · obtain ⟨r,t,hrun',-⟩ := h.returns
      have herror : copyout pd va buf s = .error .undefined s' := hrun
      rw [herror] at hrun'
      cases hrun'
  · intro h
    rcases hcases with ⟨s',hrun,hput,hall⟩ | ⟨z,s',hstop,hput,⟨-,hrun⟩ | ⟨hT,-⟩⟩
    · exact checksPages_done hrun hput hall
    · exact checksPages_failed hrun hstop hput
    · have hinside := hstop.inside
      exact absurd (h z hinside fun y hy hlt => accessible_iff.mpr (hstop.before y (by omega))) hT

end Main

section Instances

theorem unused_roomyCtx : SoundFree roomyCtx [] := ⟨soundFree_roomyCtx.nodup,soundFree_roomyCtx.owns,fun f hf => by cases hf⟩

theorem framesFor_roomyCtx {sz : Word} (h : framesFor sz ≤ 2000) : framesFor sz ≤ roomyCtx.mem.freelist.length :=
  h.trans List.length_range'.ge

/-- A new directory has no page table for the addresses between physical memory and the devices. -/
theorem setupkvm_roomyCtx : ∃ pd s, setupkvm roomyCtx = .ok (some pd) s ∧ Built s pd ∧ pd.pde (PDX 0x90000000) = none := by
  obtain ⟨pd,s,hrun,-,himage⟩ := setupkvm_room unused_roomyCtx.owns (framesFor_roomyCtx (by decide))
  refine ⟨pd,s,hrun,.setup unused_roomyCtx hrun,?_⟩
  have hnot : ¬ kernelMapped 0x90000000 := by
    unfold kernelMapped
    decide
  exact Option.not_isSome_iff_eq_none.mp fun hsome => hnot ((himage.kernel.tables 0x90000000 (by decide)).mp hsome)

/-- One byte for an address above physical memory: the lookup reads through a null pointer. -/
theorem copyout_above_memory : ∃ pd s, setupkvm roomyCtx = .ok (some pd) s ∧ Built s pd ∧
    copyout pd 0x90000000 [0] s = .error .undefined s ∧ ¬ ChecksPages s pd 0x90000000 [0] := by
  obtain ⟨pd,s,hrun,hbuilt,hnone⟩ := setupkvm_roomyCtx
  have hlook := ((looksUp_uva2ka pd).missing 0x90000000 s (by rw [hnone]; exact Bool.false_ne_true)).2
  have herror : copyout pd 0x90000000 [0] s = .error .undefined s := by
    unfold copyout copyoutLoop
    rw [if_neg (by decide)]
    dsimp only
    rw [bind_of_error hlook]
  refine ⟨pd,s,hrun,hbuilt,herror,fun h => ?_⟩
  obtain ⟨r,t,hret,-⟩ := h.returns
  rw [herror] at hret
  cases hret

/-- The two pages of a stack, the first of them the guard. -/
theorem guarded_roomyCtx : ∃ pd₀ s₀ pd₁ s₁ pd s, setupkvm roomyCtx = .ok (some pd₀) s₀ ∧
    allocuvm pd₀ 0 8192 s₀ = .ok (8192,pd₁) s₁ ∧ clearpteu pd₁ 0 s₁ = .ok pd s ∧ (pd.pde (PDX 0)).isSome ∧
    (∀ x : Word, x.toNat/4096 = 1 → Accessible pd x) ∧ ¬ Accessible pd 0 ∧ ¬ Accessible pd 0x2000 := by
  obtain ⟨pd₀,s₀,hsetup,hbuild,hempty⟩ := setupkvm_room unused_roomyCtx.owns (framesFor_roomyCtx (by decide))
  obtain ⟨r,pd₁,s₁,halloc,-,hgrown,hr⟩ := hempty.allocuvm hbuild unused_roomyCtx 8192
  obtain rfl : r = 8192 := hr (by decide) (framesFor_roomyCtx (by decide))
  have himage := (hgrown (by decide)).1
  have htwo : (8192 : Word).toNat = 8192 := rfl
  have hguard := table_of_present (himage.pages 0 (by decide)).1
  have hentry := @entry_setPte _ pd₁ hguard { entry pd₁ 0 with u := false }
  have hother : ∀ x : Word, x.toNat/4096 ≠ 0 → entry (pd₁.setPte 0 { entry pd₁ 0 with u := false }) x = entry pd₁ x :=
    fun x hx => (hentry x).trans (if_neg hx)
  refine ⟨pd₀,s₀,pd₁,s₁,pd₁.setPte 0 { entry pd₁ 0 with u := false },s₁,hsetup,halloc,?_,?_,fun x hx => ?_,?_,?_⟩
  · unfold clearpteu
    rw [walkpgdir_of_table hguard]
    rfl
  · rwa [pde_setPte_isSome]
  · obtain ⟨hp,hu⟩ := himage.pages x (by omega)
    rw [accessible_iff,target,hother x (by omega),if_pos ⟨hp,hu⟩]
    rfl
  · rw [accessible_iff,target,hentry,if_pos rfl,if_neg (by simp)]
    exact Bool.false_ne_true
  · have hout := himage.rest 0x2000 (by decide) (by decide)
    rw [accessible_iff,target,hother 0x2000 (by decide),if_neg fun h => Bool.false_ne_true (hout.symm.trans h.1)]
    exact Bool.false_ne_true

/-- Three bytes of which the last is behind the end of the stack. -/
theorem copyout_roomyCtx : ∃ pd s, Built s pd ∧ ¬ Accessible pd 0 ∧
    (ChecksPages s pd 0x1FFE [0,1,2] ↔ TablesReached pd 0x1FFE [(0 : Byte),1,2].length) ∧
    ∃ s', copyout pd 0x1FFE [0,1,2] s = .ok (-1) s' := by
  obtain ⟨pd₀,s₀,pd₁,s₁,pd,s,hsetup,halloc,hclear,htable,-,hguard,hend⟩ := guarded_roomyCtx
  have hbuilt : Built s pd := .clear (.alloc (.setup unused_roomyCtx hsetup) halloc) hclear
  have hchecks := @copyout_checks _ _ 0x1FFE [0,1,2] hbuilt (by decide)
  refine ⟨pd,s,hbuilt,hguard,hchecks,?_⟩
  have h := hchecks.mpr fun x hx _ => by
    have hva : (0x1FFE : Word).toNat = 0x1FFE ∧ (0 : Word).toNat = 0 := ⟨rfl,rfl⟩
    have hpdx : PDX x = PDX 0 := Fin.ext (by
      rw [PDX_val,PDX_val]
      change 0x1FFE ≤ x.toNat ∧ x.toNat < 0x1FFE+3 at hx
      omega)
    rwa [hpdx]
  obtain ⟨r,s',hrun,rfl | rfl⟩ := h.returns
  · exact absurd ((h.zero 0 s' hrun).mp rfl 0x2000 (by decide)) hend
  · exact ⟨s',hrun⟩

end Instances
end Xv6.Vm
