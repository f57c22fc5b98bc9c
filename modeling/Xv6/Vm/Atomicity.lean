import Xv6.Vm.ExecLoading
import Xv6.Vm.Growth
import Xv6.Kernel.ForkReport

/-! # `exec` is all or nothing

Whatever the file and the arguments are, `exec` either fails and has given back everything it has
taken, or the process runs in its new address space and the old one is free.
-/
namespace Xv6.Vm
open Wmap Kernel Program
variable {s s' : Ctx} {t t' : Task} {ip : ℕ} {path : List Byte} {argv : List Arg}
  {look : PageDir → Word → KernelM (Option Frame)} {T : PageDir → Word → Prop} {U : Word → Prop}

section Outcomes
variable {elf : Elfhdr} {size eip : Word} {name : List Byte} {pd : PageDir} {s₀ : Ctx}

theorem target_owned {pd : PageDir} {x : Word} {f : Frame} (hkernel : KernelHalf pd) (h : target pd x = some f) :
    f ∈ owned pd := by
  unfold target at h
  split at h
  · rename_i hpu
    cases h
    refine entry_owned ?_ hpu.1
    by_contra hhigh
    exact absurd hpu.2 (by rw [hkernel.user x (Nat.le_of_not_lt hhigh)]; exact Bool.false_ne_true)
  · cases h

/-- The process takes the new directory, and the frames of the old one become free. -/
theorem commit_freevm (haccount : Accounted s₀ [] s₀.cur.pgdir) (hbuild : Building s₀ s [] pd) (hkernel : KernelHalf pd)
    (t : Task) (sz eip esp : Word) (name : List Byte) :
    ∃ s', (do
        let oldpgdir := (← get).ctx.cur.pgdir
        commit pd sz eip esp name
        onCtx (freevm oldpgdir)
        pure 0 : TaskM Word) { t with ctx := s } = .ok 0 ⟨s',eip,esp,name⟩ ∧ s'.cur.pgdir = pd ∧ s'.cur.sz = sz ∧
      s'.files = s.files ∧ (∀ f ∈ owned s₀.cur.pgdir, f ∈ s'.mem.freelist) ∧
      (owned s₀.cur.pgdir ++ s₀.mem.freelist).Perm (owned pd ++ s'.mem.freelist) ∧
      ∀ x, userByte s' pd x = userByte s pd x := by
  have hcur : s.cur = s₀.cur := hbuild.mem.cur_eq
  have howns : ∀ f ∈ owned s₀.cur.pgdir, s.mem.owns f := by
    intro f hf
    unfold Mem.owns
    rw [hbuild.mem.image]
    exact haccount.owns_owned hf
  have hrun : ∃ l : List Frame, l.Perm (owned s₀.cur.pgdir) ∧ freevm s₀.cur.pgdir
      { s with cur := { s.cur with pgdir := pd, sz := sz } } = .ok ()
        { s with cur := { s.cur with pgdir := pd, sz := sz }, mem := s.mem.freeing l } :=
    freevm_ok (s := { s with cur := { s.cur with pgdir := pd, sz := sz } }) howns
  obtain ⟨l,hl,hrun⟩ := hrun
  have hfree := freelist_freeing s.mem l
  refine ⟨{ s with cur := { s.cur with pgdir := pd, sz := sz }, mem := s.mem.freeing l },?_,rfl,rfl,rfl,fun f hf => ?_,?_,
    fun x => ?_⟩
  · rw [← hcur] at hrun
    exact bind_of_ok (onCtx_ok ⟨s,eip,esp,name⟩ hrun)
  · exact hfree.mem_iff.mpr (List.mem_append_left _ (hl.mem_iff.mpr hf))
  · refine (hbuild.frames.append_left _).trans ?_
    rw [List.nil_append]
    refine (List.perm_append_comm_assoc _ _ _).trans ?_
    exact ((hl.symm.append_right _).trans hfree.symm).append_left _
  · unfold userByte
    cases htarget : target pd x with
    | none => rfl
    | some f =>
      have hout : f ∉ l := fun hin =>
        haccount.not_free (hl.mem_iff.mp hin) (hbuild.mem_owned (target_owned hkernel htarget))
      rw [Option.map_some,Option.map_some,page_freeing _ hout]

theorem ArgStack.congr {pd : PageDir} {sz esp arr : Word} {ptrs : List Word} (h : ArgStack s pd sz esp argv arr ptrs)
    (hsame : ∀ x, userByte s' pd x = userByte s pd x) : ArgStack s' pd sz esp argv arr ptrs := by
  have hreads : ∀ {va : Word} {bytes : List Byte}, Reads s pd va bytes → Reads s' pd va bytes :=
    fun hr x hx => (hsame x).trans (hr x hx)
  exact ⟨hreads h.returnPc,hreads h.argc,hreads h.array,h.length,fun i p hp => hreads (h.pointers i p hp),hreads h.last,
    fun i a p ha hp => ⟨(h.strings i a p ha hp).1,hreads (h.strings i a p ha hp).2⟩,h.disjoint,h.inside⟩

/-- How `exec` can end. With room for the program it fails only because of its arguments. -/
inductive Outcome (U : Word → Prop) (t : Task) (ip : ℕ) (argv : List Arg) : EStateM.Result Stop Task Word → Prop where
  | failed (t' : Task) (failed : ExecFailed t t') (unlocked : (t'.ctx.files.inode ip).locked = false)
      (reason : ∀ elf size, Executable (t.ctx.files.inode ip).contents elf size → Roomy t.ctx size →
        (StackFits argv → MAXARG < argv.length) ∧ ¬ Missing U (stackTop size) 0 0 argv) :
    Outcome U t ip argv (.ok (-1) t')
  | done (t' : Task) (ptrs : List Word) (done : ExecDone t t') (unlocked : (t'.ctx.files.inode ip).locked = false)
      (fits : StackFits argv)
      (stack : ArgStack t'.ctx t'.ctx.cur.pgdir t'.ctx.cur.sz t'.esp argv (t'.esp+12) ptrs) : Outcome U t ip argv (.ok 0 t')
  | stranded (t' : Task) (stranded : Stranded U t ip argv) :
    Outcome U t ip argv (.error .undefined t')

theorem outcome_enter (hlookup : PageLookup look T U) (haccount : Accounted t.ctx [] t.ctx.cur.pgdir)
    (h : Loaded t ip elf size pd s₀ s) : Outcome U t ip argv (enter look pd size eip name argv { t with ctx := s }) := by
  have haccount₀ := h.accounted haccount
  have hsound := haccount₀.soundFree
  unfold enter
  rcases buildStack_cases hlookup h.image h.build hsound argv with
    ⟨sp,pd',s',ptrs,hrun,hbuild',hstack,hfits,hargs⟩ | ⟨pd',s',hrun,hbuild',hreason⟩ | ⟨s',hrun,hroomy,hmissing⟩
  · rw [bind_of_ok (onCtx_ok t hrun)]
    obtain ⟨s₁,hcommit,hpgdir,hsize,hfiles,hfreed,hframes,hbytes⟩ := commit_freevm haccount₀ hbuild' hstack.kernel t
      (stackTop size) eip sp name
    dsimp only
    rw [hcommit]
    have hdone : ExecDone t ⟨s₁,eip,sp,name⟩ := by
      refine ⟨fun x hx => ?_,fun f hf => hfreed f (by rw [h.cur]; exact hf),?_⟩
      · dsimp only at hx ⊢
        rw [hsize] at hx
        rw [hpgdir]
        exact present_iff_entry.mpr (hstack.present x hx)
      · dsimp only
        rw [hpgdir,← h.cur,← h.mem]
        exact hframes
    refine .done _ ptrs hdone ?_ hfits ?_
    · dsimp only
      rw [hfiles,hbuild'.mem.rest]
      exact h.unlocked
    · dsimp only
      rw [hpgdir,hsize]
      exact hargs.congr hbytes
  · rw [bind_of_ok (onCtx_ok t hrun)]
    obtain ⟨s₁,hfree,hreturn⟩ := hbuild'.freevm hsound.owns
    dsimp only
    rw [bind_of_ok (onCtx_ok t hfree)]
    refine .failed _ ⟨hreturn.mem.cur_eq.trans h.cur,rfl,rfl,rfl,?_,?_⟩ ?_ fun elf' size' hprog hroomy => ?_
    · rw [← h.mem]
      exact hreturn.pages
    · rw [← h.mem]
      exact hreturn.frames
    · dsimp only
      rw [hreturn.mem.rest]
      exact h.unlocked
    · obtain ⟨-,rfl⟩ := h.program.unique hprog
      exact hreason (h.roomy.mpr hroomy)
  · rw [bind_of_error (onCtx_error t hrun)]
    exact .stranded _ ⟨elf,size,h.program,h.roomy.mp hroomy,hmissing⟩

theorem exec_outcome (hlookup : PageLookup look T U) (h : Runnable t ip) (path : List Byte) (argv : List Arg) :
    Outcome U t ip argv (exec look (some ip) path argv t) := by
  rcases exec_loading h path with ⟨t',hfailed,hunlocked,hreason,hrun⟩ | ⟨elf,size,pd,s₀,s,hloaded,hrun⟩
  · rw [hrun]
    exact .failed t' hfailed hunlocked fun elf size hprog hroomy => absurd hroomy (hreason elf size hprog)
  · rw [hrun]
    exact outcome_enter hlookup h.accounted hloaded

/-- A program that there is room for, with arguments that fit, is run. -/
theorem exec_succeeds (hlookup : PageLookup look T U) (h : Runnable t ip)
    (hprog : Executable (t.ctx.files.inode ip).contents elf size) (hroomy : Roomy t.ctx size) (hfits : StackFits argv)
    (hargc : argv.length ≤ MAXARG) (path : List Byte) : ∃ t', exec look (some ip) path argv t = .ok 0 t' := by
  have houtcome := exec_outcome hlookup h path argv
  generalize exec look (some ip) path argv t = result at houtcome ⊢
  cases houtcome with
  | failed t' hfailed hunlocked hreason => exact absurd ((hreason elf size hprog hroomy).1 hfits) (Nat.not_lt.mpr hargc)
  | done t' => exact ⟨t',rfl⟩
  | stranded t' hstranded =>
    obtain ⟨_,_,-,-,hmissing⟩ := hstranded
    exact absurd hfits hmissing.not_fits

end Outcomes

section Main

def checkedLook (pd : PageDir) (x : Word) : KernelM (Option Frame) := pure (target pd x)

theorem pageLookup_checkedLook : PageLookup checkedLook (fun _ _ => True) fun _ => True where
  looks pd := ⟨fun x s _ => by
    have hround : (PGROUNDDOWN x).toNat/4096 = x.toNat/4096 := by
      rw [PGROUNDDOWN_toNat]
      omega
    unfold checkedLook target entry
    rw [walkpgdir_page hround]
    rfl,fun x s hx => absurd trivial hx⟩
  tables _ _ _ := trivial
  upper _ _ _ _ := .rfl

/-- `exec` returns for every file and every arguments. If it fails, the process and its memory are as
before and no frame is lost; if it succeeds, the new image is there and the old one is free. -/
theorem exec_atomic (found : Option ℕ) (path : List Byte) (argv : List Arg) (h : ∀ ip, found = some ip → Runnable t ip) :
    ∃ r t', exec checkedLook found path argv t = .ok r t' ∧ (r = -1 ∧ ExecFailed t t' ∨ r = 0 ∧ ExecDone t t') ∧
      ∀ ip, found = some ip → (t'.ctx.files.inode ip).locked = false := by
  cases found with
  | none => exact ⟨-1,t,rfl,.inl ⟨rfl,rfl,rfl,rfl,rfl,fun _ _ => rfl,.rfl⟩,fun ip hip => by cases hip⟩
  | some ip =>
    have houtcome := exec_outcome pageLookup_checkedLook (h ip rfl) path argv
    generalize exec checkedLook (some ip) path argv t = result at houtcome ⊢
    cases houtcome with
    | failed t' hfailed hunlocked =>
      exact ⟨-1,t',rfl,.inl ⟨rfl,hfailed⟩,fun i hi => by cases hi; exact hunlocked⟩
    | done t' ptrs hdone hunlocked =>
      exact ⟨0,t',rfl,.inr ⟨rfl,hdone⟩,fun i hi => by cases hi; exact hunlocked⟩
    | stranded t' hstranded =>
      obtain ⟨elf,size,-,-,pre,a,post,x,-,-,-,-,-,hno⟩ := hstranded
      exact absurd trivial hno

/-- A program of one segment at address 0: four bytes of the file and four more. -/
def tinyElf : List Byte :=
  [0x7F,0x45,0x4C,0x46] ++ List.replicate 24 0 ++ [52,0,0,0] ++ List.replicate 12 0 ++ [1,0] ++ List.replicate 6 0 ++
  [1,0,0,0,84,0,0,0,0,0,0,0,0,0,0,0,4,0,0,0,8,0,0,0] ++ List.replicate 8 0 ++ [0xEB,0xFE,0x90,0x90]

def elfTask : Task where
  ctx := Ctx.withInode roomyCtx 1 ⟨false,false,1,1,tinyElf⟩
  eip := 0
  esp := 4096
  name := []

theorem accounted_roomyCtx : Accounted roomyCtx [] roomyCtx.cur.pgdir := by
  constructor
  · rw [List.nil_append]
    refine List.nodup_append.mpr ⟨firstCtx_nodup,soundFree_roomyCtx.nodup,fun f hf g hg hfg => ?_⟩
    exact soundFree_roomyCtx.apart f hf (hfg ▸ hg)
  · intro f hf
    rw [List.nil_append] at hf
    rcases List.mem_append.mp hf with hf | hf
    · rcases firstCtx_owned hf with rfl | rfl | rfl <;> exact ⟨by decide,by decide⟩
    · exact soundFree_roomyCtx.owns f hf

theorem runnable_elfTask : Runnable elfTask 1 :=
  ⟨⟨accounted_roomyCtx.nodup,accounted_roomyCtx.owns⟩,by
    rw [elfTask,inode_withInode],by
    rw [elfTask,inode_withInode]⟩

theorem executable_elfTask : Executable (elfTask.ctx.files.inode 1).contents ⟨ELF_MAGIC,0,52,1⟩ 8 := by
  have hcontents : (elfTask.ctx.files.inode 1).contents = tinyElf := by rw [elfTask,inode_withInode]
  rw [hcontents]
  exact ⟨rfl,rfl,by decide +kernel⟩

theorem roomy_elfTask : Roomy elfTask.ctx 8 :=
  ⟨by decide,(by decide : framesFor (stackTop 8) ≤ 2000).trans List.length_range'.ge⟩

def echoArgs : List Arg := [⟨[0x65,0x63,0x68,0x6F],by decide,by decide⟩,⟨[0x68,0x69],by decide,by decide⟩]

theorem echoArgs_fit : StackFits echoArgs ∧ echoArgs.length ≤ MAXARG := by
  unfold StackFits
  decide

theorem exec_elfTask : Runnable elfTask 1 ∧ ∃ t', exec checkedLook (some 1) [] echoArgs elfTask = .ok 0 t' ∧
    ExecDone elfTask t' ∧ (t'.ctx.files.inode 1).locked = false := by
  obtain ⟨r,t',hrun,hcases,hunlocked⟩ := exec_atomic (some 1) [] echoArgs fun ip hip => by
    cases hip
    exact runnable_elfTask
  obtain ⟨t'',hrun'⟩ := exec_succeeds pageLookup_checkedLook runnable_elfTask executable_elfTask roomy_elfTask echoArgs_fit.1
    echoArgs_fit.2 []
  rw [hrun] at hrun'
  cases hrun'
  refine ⟨runnable_elfTask,t',hrun,?_,hunlocked 1 rfl⟩
  rcases hcases with ⟨hr,-⟩ | ⟨-,hdone⟩
  · cases hr
  · exact hdone

end Main
end Xv6.Vm
