import Xv6.Kernel.FirstRead
import Xv6.Kernel.FileCalls

/-! # Pages of files

A page of a file mapping is filled from the place where the last access through the
descriptor has ended. It shows the bytes of its own part of the file, and leaves the
descriptor alone, exactly where nothing is left to read and that part is zero.
-/
namespace Xv6.Kernel
open Wmap Program Runs Function
variable {s s' s₁ : Ctx} {x a : Word} {p : Ptr} {f g h : Frame} {k : Fin NFILE} {ip : ℕ} {bytes : List Byte}

section Reading

theorem readi_eq_some {contents : List Byte} {off n : Word} (hr : readi contents off n = some bytes) :
    off.toNat ≤ contents.length ∧ bytes = (contents.drop off.toNat).take n.toNat := by
  unfold readi at hr
  split at hr
  · cases hr
  · rename_i hoff
    cases hr
    exact ⟨by omega,rfl⟩

/-- A read that delivers bytes takes them from the offset of the file and moves it behind them. -/
theorem fileread_some {n : Word} (hkind : (s.files.file k).kind = .inode ip)
    (hread : fileread k n s = .ok (some bytes) s') :
    readi (s.files.inode ip).contents (s.files.file k).off n = some bytes ∧
      (s'.files.file k).off = (s.files.file k).off+BitVec.ofNat 32 bytes.length := by
  unfold fileread at hread
  rw [get_bind_apply] at hread
  dsimp only at hread
  split at hread
  · cases hread
  · rw [hkind] at hread
    obtain ⟨_,s₁,hlock,hread⟩ := bind_eq_ok.mp hread
    unfold ilock at hlock
    rw [get_bind_apply] at hlock
    split at hlock
    · cases hlock
    · cases hlock
      rw [get_bind_apply] at hread
      split at hread
      · cases hread
      · dsimp only at hread
        rw [update_self] at hread
        obtain ⟨_,s₂,hadv,hread⟩ := bind_eq_ok.mp hread
        obtain ⟨_,s₃,hunlock,hread⟩ := bind_eq_ok.mp hread
        rw [pure_apply,EStateM.Result.ok.injEq] at hread
        obtain ⟨hbytes,rfl⟩ := hread
        cases hunlock
        refine ⟨hbytes,?_⟩
        rw [hbytes] at hadv
        cases hadv
        simp only [update_self]

/-- The offset stays where it is if and only if the file has been read to its end. -/
theorem offset_kept_iff {contents : List Byte} {off : Word} (hr : readi contents off 4096 = some bytes) :
    off+BitVec.ofNat 32 bytes.length = off ↔ off.toNat = contents.length := by
  obtain ⟨hle,rfl⟩ := readi_eq_some hr
  have hlen : ((contents.drop off.toNat).take (4096 : Word).toNat).length = min 4096 (contents.length-off.toNat) := by
    rw [List.length_take,List.length_drop]
    rfl
  rw [hlen]
  constructor
  · intro hoff
    have hnat := congrArg BitVec.toNat hoff
    rw [BitVec.toNat_add,BitVec.toNat_ofNat] at hnat
    have := off.isLt
    omega
  · intro hoff
    rw [hoff,Nat.sub_self,Nat.min_zero]
    exact BitVec.add_zero off

end Reading

section Filling

/-- The handler finds a mapping of a file for the address. -/
structure Backed (s : Ctx) (x : Word) (p : Ptr) (k : Fin NFILE) (ip : ℕ) : Prop where
  found : pageInMappings s.tab x = .ok (some p)
  file : (s.tab.deref p).flags &&& MAP_ANONYMOUS = 0
  opened : ofile (s.tab.deref p).fd s = .ok (some k) s
  inode : (s.files.file k).kind = .inode ip

def fileByte (contents : List Byte) (start y : Word) : Byte := contents.getD (y-start).toNat 0

/-- The page has the bytes of the file that belong to it. -/
def ShowsPart (contents : List Byte) (start x : Word) (page : Page) : Prop :=
  ∀ y : Word, y.toNat/4096 = x.toNat/4096 → start ≤ y → page (offsetIn y) = fileByte contents start y

/-- The fault has filled the page of the address with its part of the file, as the file was before
the fault, and has left the offset of the file alone. -/
structure Shown (s s' : Ctx) (x : Word) (p : Ptr) (k : Fin NFILE) (ip : ℕ) : Prop where
  page : ∃ f, translate s'.cur.pgdir .userRead x = some f ∧
    ShowsPart (s.files.inode ip).contents (s.tab.deref p).startAddress x (s'.mem.page f)
  offset : (s'.files.file k).off = (s.files.file k).off

/-- The part of the file is zero and the page is the one that the handler turns to. If the mapping
does not start at a page boundary, the page behind that one comes to the frame behind the one that
was filled, whatever it holds. -/
def Filled (s : Ctx) (x a : Word) (p : Ptr) (ip : ℕ) (f g : Frame) (free : List Frame) : Prop :=
  (a.toNat/4096 = x.toNat/4096 ∧
    ShowsPart (s.files.inode ip).contents (s.tab.deref p).startAddress x (fun _ => 0)) ∨
  ((nextPage a).toNat/4096 = x.toNat/4096 ∧ ¬ OnePage s.cur.pgdir a free ∧
    ShowsPart (s.files.inode ip).contents (s.tab.deref p).startAddress x
      (if g+1 = f then fun _ => 0 else s.mem.page (g+1)))

/-- The condition on a first touch: there is no page table yet and memory for one and for two more
frames, nothing is left to read behind the offset of the file, and the part of the file is zero. -/
structure Fillable (s : Ctx) (x : Word) (p : Ptr) (k : Fin NFILE) (ip : ℕ) : Prop where
  table : walkpgdir s.cur.pgdir (faultPage (s.tab.deref p).startAddress x) = none
  offset : (s.files.file k).off.toNat = (s.files.inode ip).contents.length
  frames : ∃ f g h free, s.mem.freelist = f :: g :: h :: free ∧
    Filled s x (faultPage (s.tab.deref p).startAddress x) p ip f g free

theorem ofile_congr {fd : Word} {r : Option (Fin NFILE)} (s₁ : Ctx) (hcur : s₁.cur = s.cur) (hfd : ofile fd s = .ok r s) :
    ofile fd s₁ = .ok r s₁ := by
  unfold ofile at hfd ⊢
  split at hfd
  · rename_i hlt
    rw [dif_pos hlt,get_bind_apply,hcur]
    rw [get_bind_apply,pure_apply,EStateM.Result.ok.injEq] at hfd
    rw [hfd.1,pure_apply]
  · cases hfd

theorem translate_absent (habs : ¬ s.cur.pgdir.present x) (m : Access) : translate s.cur.pgdir m x = none := by
  unfold translate
  split
  · rfl
  · rename_i pte hpte
    have hp : pte.p = false := Bool.eq_false_iff.mpr fun hp => habs ⟨pte,hpte,hp⟩
    rw [if_neg]
    cases m <;> simp [Access.allowed,hp]

/-- A fault that reads the file: two frames are taken, and the second gets the bytes. -/
structure FileFault (s s' : Ctx) (x a : Word) (k : Fin NFILE) (ip : ℕ) (f g : Frame) (rest : List Frame)
    (bytes : List Byte) : Prop where
  free : s.mem.freelist = f :: g :: rest
  read : readi (s.files.inode ip).contents (s.files.file k).off 4096 = some bytes
  offset : (s'.files.file k).off = (s.files.file k).off+BitVec.ofNat 32 bytes.length
  pages : s'.mem.page = Function.update (Function.update s.mem.page f fun _ => 0) g (fillPage bytes)
  place : ∀ i, translate s'.cur.pgdir .userRead x = some i ↔ ∃ h free, rest = h :: free ∧
    Lands s.cur.pgdir a x g free i

theorem pageFault_backed (hb : Backed s x p k ip) (habs : ¬ s.cur.pgdir.present x)
    (hrun : pageFault x s = .ok () s')
    (hwalk : walkpgdir s.cur.pgdir (faultPage (s.tab.deref p).startAddress x) = none) :
    ∃ f g rest bytes, FileFault s s' x (faultPage (s.tab.deref p).startAddress x) k ip f g rest bytes := by
  have hnone : s.cur.pgdir.pde (PDX (faultPage (s.tab.deref p).startAddress x)) = none := by
    rwa [walkpgdir,Option.map_eq_none_iff] at hwalk
  obtain ⟨g,s₁,hfetch,hmap⟩ := (faultBody_fetches hb.found hwalk).mp (pageFault_returns hrun)
  cases hfetch with
  | anonymous hflags => exact absurd hb.file hflags
  | @file f g rest k' bytes s₂ hflags hfree hopened hread =>
    have hk := ofile_congr (s := s) (s.cleared f rest) rfl hb.opened
    rw [hopened] at hk
    cases hk
    have hs₂ := filesOnly_fileread hread
    obtain ⟨hbytes,hoff⟩ := fileread_some (s := s.cleared f rest) hb.inode hread
    generalize hs₃ : { s₂ with mem := { s₂.mem with page := update s₂.mem.page g (fillPage bytes) } } = s₃ at hmap
    have hcur : s₃.cur = s.cur := by rw [← hs₃,hs₂,Ctx.cleared]
    have hmem : s₃.mem = { s.mem with
        page := update (update s.mem.page f fun _ => 0) g (fillPage bytes)
        freelist := rest } := by rw [← hs₃,hs₂,Ctx.cleared]
    obtain ⟨s'',hrun',-,hpage,hfiles,-⟩ := mapPage_outcome (p := p) (f := g) (hcur ▸ hnone)
    rw [hmap] at hrun'
    cases hrun'
    refine ⟨f,g,rest,bytes,hfree,hbytes,?_,by rw [hpage,hmem],fun i => ?_⟩
    · rw [hfiles,← hs₃]
      exact hoff
    · rw [translate_mapped (hcur ▸ translate_absent habs _) (hcur ▸ hnone) hmap,hcur,hmem]

theorem fillPage_nil : fillPage [] = fun _ => 0 := rfl

/-- A returning fault has filled the page as it should if and only if the condition holds. -/
theorem shown_iff (hb : Backed s x p k ip) (habs : ¬ s.cur.pgdir.present x) (hrun : pageFault x s = .ok () s') :
    Shown s s' x p k ip ↔ Fillable s x p k ip := by
  cases hwalk : walkpgdir s.cur.pgdir (faultPage (s.tab.deref p).startAddress x) with
  | some pte =>
    have hbody := pageFault_returns hrun
    rw [faultBody_found hb.found,hwalk] at hbody
    cases hbody
    constructor
    · rintro ⟨⟨f,hf,-⟩,-⟩
      rw [translate_absent habs] at hf
      cases hf
    · intro hfill
      rw [hfill.table] at hwalk
      cases hwalk
  | none =>
    obtain ⟨f,g,rest,bytes,h⟩ := pageFault_backed hb habs hrun hwalk
    have hoffset := offset_kept_iff h.read
    have hzero (hoff : (s.files.file k).off.toNat = (s.files.inode ip).contents.length) :
        s'.mem.page g = (fun _ => 0) ∧ s'.mem.page (g+1) = if g+1 = f then fun _ => 0 else s.mem.page (g+1) := by
      have hnil : bytes = [] := by
        rw [(readi_eq_some h.read).2,hoff,List.drop_length,List.take_nil]
      rw [h.pages,hnil,fillPage_nil,update_self,update_of_ne (Nat.succ_ne_self g),
        update_apply]
      exact ⟨rfl,rfl⟩
    constructor
    · rintro ⟨⟨i,hi,hshows⟩,hkept⟩
      have hoff := hoffset.mp (h.offset ▸ hkept)
      obtain ⟨hg,hg'⟩ := hzero hoff
      obtain ⟨t,free,rfl,⟨hpage,rfl⟩ | ⟨hpage,hone,rfl⟩⟩ := (h.place i).mp hi
      · rw [hg] at hshows
        exact ⟨hwalk,hoff,f,i,t,free,h.free,.inl ⟨hpage,hshows⟩⟩
      · rw [hg'] at hshows
        exact ⟨hwalk,hoff,f,g,t,free,h.free,.inr ⟨hpage,hone,hshows⟩⟩
    · rintro ⟨-,hoff,f',g',t,free,hfree,hfilled⟩
      obtain ⟨hg,hg'⟩ := hzero hoff
      rw [h.free] at hfree
      cases hfree
      refine ⟨?_,h.offset.trans (hoffset.mpr hoff)⟩
      rcases hfilled with ⟨hpage,hshows⟩ | ⟨hpage,hone,hshows⟩
      · exact ⟨g,(h.place g).mpr ⟨t,free,rfl,.inl ⟨hpage,rfl⟩⟩,hg ▸ hshows⟩
      · exact ⟨g+1,(h.place (g+1)).mpr ⟨t,free,rfl,.inr ⟨hpage,hone,rfl⟩⟩,hg' ▸ hshows⟩

end Filling

section Accesses

inductive FileAccess
  | touch (x : Word)
  | read (fd p n : Word)
  | write (fd p n : Word)

def FileAccess.Step (s : Ctx) : FileAccess → Ctx → Prop
  | .touch x, s' => pageFault x s = .ok () s'
  | .read fd p n, s' => ∃ r, sysRead fd p n s = .ok r s'
  | .write fd p n, s' => ∃ r, sysWrite fd p n s = .ok r s'

def FileAccess.Right (s : Ctx) : FileAccess → Ctx → Prop
  | .touch x, s' => ∀ p k ip, Backed s x p k ip → ¬ s.cur.pgdir.present x → Shown s s' x p k ip
  | _, _ => True

def FileAccess.Meets (s : Ctx) : FileAccess → Prop
  | .touch x => ∀ p k ip, Backed s x p k ip → ¬ s.cur.pgdir.present x → Fillable s x p k ip
  | _ => True

theorem FileAccess.right_iff {c : FileAccess} (h : c.Step s s') : c.Right s s' ↔ c.Meets s := by
  cases c with
  | touch x =>
    constructor
    · exact fun hr p k ip hb habs => (shown_iff hb habs h).mp (hr p k ip hb habs)
    · exact fun hm p k ip hb habs => (shown_iff hb habs h).mpr (hm p k ip hb habs)
  | read fd p n => exact Iff.rfl
  | write fd p n => exact Iff.rfl

/-- In a run of touches, reads and writes every first touch shows its part of the file if and only
if every one meets the condition. -/
theorem file_pages_shown (s₀ s : Ctx) (cs : List FileAccess) :
    Run (fun s c s' => c.Step s s' ∧ c.Right s s') s₀ cs s ↔
      Run (fun s c s' => c.Step s s' ∧ c.Meets s) s₀ cs s := by
  constructor
  · exact fun h => h.mono fun _ _ _ hstep => ⟨hstep.1,(FileAccess.right_iff hstep.1).mp hstep.2⟩
  · exact fun h => h.mono fun _ _ _ hstep => ⟨hstep.1,(FileAccess.right_iff hstep.1).mpr hstep.2⟩

/-- A file of one byte is opened and mapped to two pages. -/
def mappedFile : Option Ctx :=
  match sysOpen (some 5) O_RDWR { firstCtx with files := { firstCtx.files with
    inode := fun _ => ⟨false,false,1,1,[7]⟩ } } with
  | .ok _ s => runCalls [.wmap MMAPBASE 8192 9 0] s
  | .error _ _ => none

/-- The program reads one byte through the descriptor. -/
def readOne (s : Ctx) : Option Ctx :=
  match sysRead 0 0 1 s with
  | .ok _ s' => some s'
  | .error _ _ => none

/-- The file is mapped, its offset is `off`, and a touch of `x` moves it to `off'` and shows `b`. -/
structure Mapped (s : Ctx) (x off off' : Word) (b : Byte) : Prop where
  backed : Backed s x (.slot 7) 0 5
  start : (s.tab.deref (.slot 7)).startAddress = MMAPBASE
  bytes : (s.files.inode 5).contents = [7]
  offset : (s.files.file 0).off = off
  table : walkpgdir s.cur.pgdir x = none
  free : 3 ≤ s.mem.freelist.length
  touched : ∃ s' f, pageFault x s = .ok () s' ∧ translate s'.cur.pgdir .userRead x = some f ∧
    (s'.files.file 0).off = off' ∧ s'.mem.page f (offsetIn x) = b

def afterTouch (x : Word) (s : Ctx) : Option (Word × Byte) :=
  match pageFault x s with
  | .ok _ s' => (translate s'.cur.pgdir .userRead x).map fun f => ((s'.files.file 0).off,s'.mem.page f (offsetIn x))
  | .error _ _ => none

theorem exists_mapped (m : Option Ctx) (x off off' : Word) (b : Byte) (h : (m.map fun s => decide (pageInMappings s.tab x = .ok (some (.slot 7)) ∧
      (s.tab.deref (.slot 7)).toEntry = ⟨MMAPBASE,2,8192,0,9,0⟩ ∧ s.cur.ofile 0 = some 0 ∧
      (s.files.file 0).kind = .inode 5 ∧ (s.files.inode 5).contents = [7] ∧ (s.files.file 0).off = off ∧
      walkpgdir s.cur.pgdir x = none ∧ 3 ≤ s.mem.freelist.length ∧ afterTouch x s = some (off',b))) = some true) :
    ∃ s, m = some s ∧ Mapped s x off off' b := by
  obtain ⟨s,hs,hchecks⟩ := Option.map_eq_some_iff.mp h
  obtain ⟨hfound,hentry,hopen,hkind,hcontents,hoff,hwalk,hfree,hafter⟩ := of_decide_eq_true hchecks
  have hfd : (s.tab.deref (.slot 7)).fd = 0 := congrArg Entry.fd hentry
  refine ⟨s,hs,⟨hfound,?_,?_,hkind⟩,congrArg Entry.startAddress hentry,hcontents,hoff,hwalk,hfree,?_⟩
  · rw [congrArg Entry.flags hentry]
    decide
  · rw [hfd]
    exact congrArg (EStateM.Result.ok · s) hopen
  · unfold afterTouch at hafter
    split at hafter
    · rename_i s' hrun
      obtain ⟨f,hf,hpair⟩ := Option.map_eq_some_iff.mp hafter
      exact ⟨s',f,hrun,hf,(Prod.mk.inj hpair).1,(Prod.mk.inj hpair).2⟩
    · cases hafter

theorem Mapped.absent {off off' : Word} {b : Byte} (h : Mapped s x off off' b) : ¬ s.cur.pgdir.present x := by
  rintro ⟨pte,hw,-⟩
  rw [h.table] at hw
  cases hw

/-- After the only byte of the file has been read, the second page is filled as it should be. -/
theorem file_pages_shown_read : ∃ s u s', mappedFile = some s ∧ (FileAccess.read 0 0 1).Step s u ∧
    Backed u 0x60001000 (.slot 7) 0 5 ∧ ¬ u.cur.pgdir.present 0x60001000 ∧
    (u.files.inode 5).contents = [7] ∧ (u.files.file 0).off = 1 ∧
    Run (fun s (c : FileAccess) s' => c.Step s s' ∧ c.Right s s') s [.read 0 0 1,.touch 0x60001000] s' := by
  obtain ⟨u,hu,h⟩ := exists_mapped (mappedFile.bind readOne) 0x60001000 1 1 0 (by decide +kernel)
  obtain ⟨s,hs,hread⟩ := Option.bind_eq_some_iff.mp hu
  have hstep : (FileAccess.read 0 0 1).Step s u := by
    unfold readOne at hread
    split at hread
    · cases hread
      exact ⟨_,by assumption⟩
    · cases hread
  obtain ⟨s',-,hrun,-⟩ := h.touched
  have hpage : faultPage MMAPBASE 0x60001000 = 0x60001000 := by decide
  have hmeets : (FileAccess.touch 0x60001000).Meets u := by
    intro p k ip hb _
    have hp := hb.found
    rw [h.backed.found] at hp
    cases hp
    have hk := hb.opened
    rw [h.backed.opened] at hk
    cases hk
    have hip := hb.inode
    rw [h.backed.inode] at hip
    cases hip
    refine ⟨?_,?_,?_⟩
    · rw [h.start,hpage]
      exact h.table
    · rw [h.offset,h.bytes]
      rfl
    · match hfree : u.mem.freelist, h.free with
      | f :: g :: t :: free, _ =>
        refine ⟨f,g,t,free,rfl,.inl ⟨by rw [h.start,hpage],fun y hy hle => ?_⟩⟩
        rw [h.bytes,h.start,fileByte,List.getD_eq_default]
        have hbase : MMAPBASE.toNat = 0x60000000 := rfl
        change y.toNat/4096 = 0x60001 at hy
        rw [BitVec.toNat_sub,hbase,List.length_singleton]
        omega
  exact ⟨s,u,s',hs,hstep,h.backed,h.absent,h.bytes,h.offset,(file_pages_shown s s' _).mpr
    ((Run.nil.snoc ⟨hstep,trivial⟩).snoc ⟨hrun,hmeets⟩)⟩

/-- The second page of a file of one byte shows that byte when it is touched first, and the offset
of the file has moved. -/
theorem file_page_misplaced : ∃ s s', mappedFile = some s ∧ Backed s 0x60001000 (.slot 7) 0 5 ∧
    (FileAccess.touch 0x60001000).Step s s' ∧ ¬ (FileAccess.touch 0x60001000).Right s s' := by
  obtain ⟨s,hs,h⟩ := exists_mapped mappedFile 0x60001000 0 1 7 (by decide +kernel)
  obtain ⟨s',f,hrun,hf,-,hbyte⟩ := h.touched
  refine ⟨s,s',hs,h.backed,hrun,fun hright => ?_⟩
  obtain ⟨f',hf',hshows⟩ := (hright _ _ _ h.backed h.absent).page
  rw [hf,Option.some.injEq] at hf'
  subst hf'
  have hzero := hshows 0x60001000 rfl (by rw [h.start]; decide)
  rw [h.bytes,h.start,hbyte] at hzero
  exact absurd hzero (by decide)

end Accesses
end Xv6.Kernel
