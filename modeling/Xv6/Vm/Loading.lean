import Xv6.Vm.Exec
import Xv6.Vm.Images

/-! # Loading a program

While the segments of a program are loaded, the new address space has all pages below its size
and no others, whatever the headers say. So the panics of `loaduvm` are out of reach, and every
frame that has been taken can be given back.
-/
namespace Xv6.Vm
open Wmap Kernel Program
variable {s₀ s s' : Ctx} {pd pd' : PageDir} {sz newsz addr offset off i x : Word} {contents : List Byte}
  {used : List Frame} {fuel k : ℕ}

section Segments

def pageRead (contents : List Byte) (offset sz i : Word) : Option (List Byte) :=
  readRecord contents (offset+i) (if sz-i < 4096 then sz-i else 4096)

/-- The file has every page of a segment in full. -/
def ReadsAll (contents : List Byte) (offset sz : Word) : Prop :=
  ∀ j < (sz.toNat+4095)/4096, (pageRead contents offset sz (BitVec.ofNat 32 (4096*j))).isSome

instance : Decidable (ReadsAll contents offset sz) := by
  unfold ReadsAll
  infer_instance

theorem page_ofNat (halign : i.toNat % 4096 = 0) : BitVec.ofNat 32 (4096*(i.toNat/4096)) = i := by
  refine BitVec.eq_of_toNat_eq ?_
  have := i.isLt
  rw [BitVec.toNat_ofNat]
  omega

/-- The loop returns, and it has read everything if every page that is left can be read in full. -/
theorem loadLoop_cases (hpages : ∀ j : Word, j < sz → (addr+j).toNat < 2^31 ∧ (entry pd (addr+j)).p = true)
    (hlimit : sz.toNat < 2^31) (halign : i.toNat % 4096 = 0) (hfuel : pagesUpTo i sz < fuel)
    (hbuild : Building s₀ s [] pd) :
    ∃ b s', loadLoop pd addr contents offset sz fuel i s = .ok b s' ∧ Building s₀ s' [] pd ∧
      (b = true ↔ ∀ j < (sz.toNat+4095)/4096, i.toNat ≤ 4096*j →
        (pageRead contents offset sz (BitVec.ofNat 32 (4096*j))).isSome) := by
  induction fuel generalizing i s with
  | zero => omega
  | succ fuel ih =>
    unfold loadLoop
    by_cases hlt : i < sz
    · obtain ⟨hlow,hp⟩ := hpages i hlt
      have hlt' : i.toNat < sz.toNat := BitVec.lt_def.mp hlt
      have hnext : (i+4096).toNat = i.toNat+4096 := page_succ (by omega)
      have hhere : ∀ {b}, (∀ j < (sz.toNat+4095)/4096, i.toNat ≤ 4096*j →
          (pageRead contents offset sz (BitVec.ofNat 32 (4096*j))).isSome) → pageRead contents offset sz i = b → b.isSome := by
        rintro b hall rfl
        have hj := hall (i.toNat/4096) (by omega) (by omega)
        rwa [page_ofNat halign] at hj
      rw [if_pos hlt,walkpgdir_of_table (table_of_present hp)]
      dsimp only
      unfold pageRead readRecord at hhere
      obtain ⟨n,hn⟩ : ∃ n, n = if sz-i < 4096 then sz-i else 4096 := ⟨_,rfl⟩
      rw [← hn] at hhere ⊢
      cases hread : readi contents (offset+i) n with
      | none =>
        rw [hread] at hhere
        exact ⟨false,s,rfl,hbuild,iff_of_false Bool.false_ne_true fun hall => Bool.false_ne_true (hhere hall rfl)⟩
      | some bytes =>
        rw [hread] at hhere
        dsimp only at hhere ⊢
        rw [bind_apply,get_apply]
        dsimp only
        obtain ⟨f,hf⟩ : ∃ f, f = (entry pd (addr+i)).frame := ⟨_,rfl⟩
        rw [← hf]
        have hstep : Building s₀ { s with mem := { s.mem with
            page := Function.update s.mem.page f (blit (s.mem.page f) 0 bytes) } } [] pd :=
          hbuild.step (conserves_setPage (B := {f}) rfl _) fun g hg =>
            (show g = f from hg) ▸ hf ▸ hbuild.mem_owned (entry_owned hlow hp)
        change ∃ b s', (if bytes.length = n.toNat then loadLoop pd addr contents offset sz fuel (i+4096)
          else pure false : KernelM Bool) _ = _ ∧ _
        by_cases hfull : bytes.length = n.toNat
        · rw [if_pos hfull]
          obtain ⟨b,s',hrun,hbuild',hb⟩ := ih (i := i+4096) (by omega) (by unfold pagesUpTo at *; omega) hstep
          refine ⟨b,s',hrun,hbuild',hb.trans ⟨fun hall j hj hle => ?_,fun hall j hj hle => hall j hj (by omega)⟩⟩
          by_cases hj' : i.toNat/4096 = j
          · subst hj'
            rw [page_ofNat halign,pageRead,readRecord,← hn,hread]
            dsimp only
            rw [if_pos hfull]
            rfl
          · exact hall j hj (by omega)
        · rw [if_neg hfull]
          rw [if_neg hfull] at hhere
          exact ⟨false,_,rfl,hstep,iff_of_false Bool.false_ne_true fun hall => Bool.false_ne_true (hhere hall rfl)⟩
    · rw [if_neg hlt]
      rw [BitVec.lt_def] at hlt
      exact ⟨true,s,rfl,hbuild,iff_of_true rfl fun j hj hle => by omega⟩

theorem Imaged.loaduvm {memsz : Word} (h : Imaged pd sz) (hbuild : Building s₀ s [] pd) (halign : addr.toNat % PGSIZE = 0)
    (hwrap : addr ≤ addr+memsz) (hend : addr+memsz ≤ sz) {filesz : Word} (hsize : filesz ≤ memsz) (contents : List Byte)
    (offset : Word) : ∃ b s', loaduvm pd addr contents offset filesz s = .ok b s' ∧ Building s₀ s' [] pd ∧
      (b = true ↔ ReadsAll contents offset filesz) := by
  have hlimit := h.limit
  have hend' : (addr+memsz).toNat ≤ sz.toNat := BitVec.le_def.mp hend
  have hsum : (addr+memsz).toNat = addr.toNat+memsz.toNat := by
    rw [BitVec.le_def,BitVec.toNat_add] at hwrap
    rw [BitVec.toNat_add]
    have := addr.isLt
    have := memsz.isLt
    omega
  have hsize' : filesz.toNat ≤ memsz.toNat := BitVec.le_def.mp hsize
  unfold Vm.loaduvm
  rw [if_neg (fun hne => hne halign)]
  obtain ⟨b,s',hrun,hbuild',hb⟩ := @loadLoop_cases _ _ _ filesz addr offset 0
    contents allPages (fun j hj => by
      have hj' : j.toNat < filesz.toNat := BitVec.lt_def.mp hj
      have hat : (addr+j).toNat = addr.toNat+j.toNat := by
        rw [BitVec.toNat_add]
        omega
      exact ⟨by omega,(h.pages (addr+j) (by omega)).1⟩) (by omega) rfl (by
      unfold pagesUpTo allPages
      have := filesz.isLt
      omega) hbuild
  exact ⟨b,s',hrun,hbuild',hb.trans ⟨fun hall j hj => hall j hj (Nat.zero_le _),fun hall j hj _ => hall j hj⟩⟩

/-- A segment that can be loaded into an image of size `sz`. -/
@[mk_iff]
structure Proghdr.Valid (contents : List Byte) (sz : Word) (ph : Proghdr) : Prop where
  filesz : ph.filesz ≤ ph.memsz
  wrap : ph.vaddr ≤ ph.vaddr+ph.memsz
  limit : ph.vaddr+ph.memsz < KERNBASE
  size : grownSize sz (ph.vaddr+ph.memsz) ≠ 0
  align : ph.vaddr.toNat % PGSIZE = 0
  reads : ReadsAll contents ph.off ph.filesz

instance (ph : Proghdr) : Decidable (ph.Valid contents sz) := decidable_of_iff _ (Proghdr.valid_iff contents sz ph).symm

/-- The size of the image that the program headers describe, if all of them are valid. -/
def imageSize (contents : List Byte) : ℕ → Word → Word → Option Word
  | 0, _, sz => some sz
  | k+1, off, sz =>
    match readProghdr contents off with
    | none => none
    | some ph =>
      if ph.type ≠ ELF_PROG_LOAD then imageSize contents k (off+32) sz
      else if ph.Valid contents sz then imageSize contents k (off+32) (grownSize sz (ph.vaddr+ph.memsz))
      else none

theorem imageSize_bounds {size : Word} (h : imageSize contents k off sz = some size) :
    sz ≤ size ∧ (sz.toNat < 2^31 → size.toNat < 2^31) := by
  induction k generalizing off sz with
  | zero =>
    cases h
    exact ⟨BitVec.le_refl _,fun hlt => hlt⟩
  | succ k ih =>
    unfold imageSize at h
    cases hread : readProghdr contents off with
    | none =>
      rw [hread] at h
      cases h
    | some ph =>
      rw [hread] at h
      dsimp only at h
      split at h
      · exact ih h
      · split at h
        · rename_i hvalid
          obtain ⟨hle,hlt⟩ := ih h
          refine ⟨BitVec.le_trans (le_grownSize sz (ph.vaddr+ph.memsz)).1 hle,fun hsz => hlt ?_⟩
          have hnew : (ph.vaddr+ph.memsz).toNat < 2^31 := BitVec.lt_def.mp hvalid.limit
          unfold grownSize
          split
          · exact hsz
          · exact hnew
        · cases h

theorem imageSize_skip {ph : Proghdr} (hread : readProghdr contents off = some ph) (htype : ph.type ≠ ELF_PROG_LOAD) :
    imageSize contents (k+1) off sz = imageSize contents k (off+32) sz := by
  rw [imageSize,hread]
  exact if_pos htype

theorem imageSize_segment {ph : Proghdr} (hread : readProghdr contents off = some ph) (htype : ph.type = ELF_PROG_LOAD) :
    imageSize contents (k+1) off sz =
      if ph.Valid contents sz then imageSize contents k (off+32) (grownSize sz (ph.vaddr+ph.memsz)) else none := by
  rw [imageSize,hread]
  exact if_neg (not_not.mpr htype)

/-- What the loop over the headers returns, given the size that they describe: an image of that size, or
nothing, if there is no such size or not enough frames for it. -/
def Loads (s₀ : Ctx) (described : Option Word) (result : EStateM.Result Stop Ctx (Option Word × PageDir)) : Prop :=
  ∃ r pd s, result = .ok (r,pd) s ∧ Building s₀ s [] pd ∧ (∀ size, r = some size → Imaged pd size ∧ described = some size) ∧
    ∀ size, described = some size → framesFor size ≤ s₀.mem.freelist.length → r = some size

theorem loads_none {described : Option Word} (hbuild : Building s₀ s [] pd)
    (h : ∀ size, described = some size → ¬ framesFor size ≤ s₀.mem.freelist.length) :
    Loads s₀ described ((pure (none,pd) : KernelM (Option Word × PageDir)) s) :=
  ⟨none,pd,s,rfl,hbuild,fun _ hr => (Option.some_ne_none _ hr.symm).elim,fun size hsize hroom => absurd hroom (h size hsize)⟩

theorem loadSegments_cases (h : Imaged pd sz) (hbuild : Building s₀ s [] pd) (hsound : SoundFree s₀ used)
    (contents : List Byte) (k : ℕ) (off : Word) :
    Loads s₀ (imageSize contents k off sz) (loadSegments contents k off pd sz s) := by
  induction k generalizing off pd sz s with
  | zero => exact ⟨some sz,pd,s,rfl,hbuild,fun size hr => by cases hr; exact ⟨h,rfl⟩,fun size hsize _ => hsize⟩
  | succ k ih =>
    unfold loadSegments
    cases hread : readProghdr contents off with
    | none =>
      refine loads_none hbuild fun size hsize => ?_
      rw [imageSize,hread] at hsize
      cases hsize
    | some ph =>
      dsimp only
      by_cases htype : ph.type ≠ ELF_PROG_LOAD
      · rw [if_pos htype,imageSize_skip hread htype]
        exact ih h hbuild (off+32)
      · rw [if_neg htype,imageSize_segment hread (not_not.mp htype)]
        -- Every early way out is one that a valid header does not take.
        have hout : ∀ {pd' s'}, Building s₀ s' [] pd' → ¬ ph.Valid contents sz → Loads s₀ (if ph.Valid contents sz then
            imageSize contents k (off+32) (grownSize sz (ph.vaddr+ph.memsz)) else none)
            ((pure (none,pd') : KernelM (Option Word × PageDir)) s') := by
          intro pd' s' hbuild' hnot
          rw [if_neg hnot]
          exact loads_none hbuild' fun _ hnone => by cases hnone
        by_cases hsize : ph.memsz < ph.filesz
        · rw [if_pos hsize]
          exact hout hbuild fun hvalid => BitVec.not_le.mpr hsize hvalid.filesz
        · rw [if_neg hsize]
          by_cases hwrap : ph.vaddr+ph.memsz < ph.vaddr
          · rw [if_pos hwrap]
            exact hout hbuild fun hvalid => BitVec.not_le.mpr hwrap hvalid.wrap
          · rw [if_neg hwrap]
            obtain ⟨r,pd₁,s₁,hrun,hbuild₁,hgrown,hroom⟩ := h.allocuvm hbuild hsound (ph.vaddr+ph.memsz)
            rw [bind_of_ok hrun]
            dsimp only
            by_cases hzero : r = 0
            · rw [if_pos hzero]
              by_cases hvalid : ph.Valid contents sz
              · rw [if_pos hvalid]
                refine loads_none hbuild₁ fun size hsome hframes => ?_
                have hr := hroom hvalid.limit ((framesFor_mono (imageSize_bounds hsome).1).trans hframes)
                exact hvalid.size (hr.symm.trans hzero)
              · exact hout hbuild₁ hvalid
            · obtain ⟨himage,hlt,hr⟩ := hgrown hzero
              rw [if_neg hzero]
              by_cases halign : ph.vaddr.toNat % PGSIZE ≠ 0
              · rw [if_pos halign]
                exact hout hbuild₁ fun hvalid => halign hvalid.align
              · rw [if_neg halign]
                have hend : ph.vaddr+ph.memsz ≤ r := hr ▸ (le_grownSize sz (ph.vaddr+ph.memsz)).2
                obtain ⟨b,s₂,hload,hbuild₂,hb⟩ := himage.loaduvm hbuild₁ (not_not.mp halign) (BitVec.not_lt.mp hwrap) hend
                  (BitVec.not_lt.mp hsize) contents ph.off
                rw [bind_of_ok hload]
                cases b with
                | false => exact hout hbuild₂ fun hvalid => Bool.false_ne_true (hb.mpr hvalid.reads)
                | true =>
                  have hvalid : ph.Valid contents sz := ⟨BitVec.not_lt.mp hsize,BitVec.not_lt.mp hwrap,hlt,hr ▸ hzero,
                    not_not.mp halign,hb.mp rfl⟩
                  rw [if_pos hvalid,← hr]
                  exact ih himage hbuild₂ (off+32)

end Segments
end Xv6.Vm
