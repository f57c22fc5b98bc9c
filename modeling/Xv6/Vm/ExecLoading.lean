import Xv6.Vm.ArgumentStack

/-! # The loading of a program

The part of `exec` that reads the file. It leaves either no trace or a new directory with the image
of the program, and the inode is given back in both cases.
-/
namespace Xv6.Vm
open Wmap Kernel Program Function
variable {s s' : Ctx} {t t' : Task} {ip : ℕ} {path : List Byte} {argv : List Arg}
  {look : PageDir → Word → KernelM (Option Frame)} {T : PageDir → Word → Prop} {U : Word → Prop}

section Steps

theorem onCtx_ok {α : Type} {m : KernelM α} {a : α} (t : Task) (h : m s = .ok a s') :
    onCtx m { t with ctx := s } = .ok a { t with ctx := s' } := by
  unfold onCtx
  rw [h]

theorem onCtx_error {α : Type} {m : KernelM α} {e : Stop} (t : Task) (h : m s = .error e s') :
    onCtx m { t with ctx := s } = .error e { t with ctx := s' } := by
  unfold onCtx
  rw [h]

def Ctx.withInode (s : Ctx) (ip : ℕ) (v : Inode) : Ctx :=
  { s with files := { s.files with inode := Function.update s.files.inode ip v } }

def Ctx.holding (s : Ctx) (ip : ℕ) : Ctx :=
  Ctx.withInode s ip { s.files.inode ip with ref := (s.files.inode ip).ref+1, locked := true }

theorem idup_apply (ip : ℕ) (s : Ctx) :
    idup ip s = .ok () (Ctx.withInode s ip { s.files.inode ip with ref := (s.files.inode ip).ref+1 }) := rfl

theorem inode_withInode (s : Ctx) (ip : ℕ) (v : Inode) : (Ctx.withInode s ip v).files.inode ip = v := by
  unfold Ctx.withInode
  dsimp only
  rw [update_self]

theorem withInode_withInode (s : Ctx) (ip : ℕ) (v w : Inode) :
    Ctx.withInode (Ctx.withInode s ip v) ip w = Ctx.withInode s ip w := by
  unfold Ctx.withInode
  dsimp only
  rw [update_idem]

theorem ilock_apply (hlocked : (s.files.inode ip).locked = false) :
    ilock ip s = .ok () (Ctx.withInode s ip { s.files.inode ip with locked := true }) := by
  unfold ilock
  rw [get_bind_apply,if_neg (by rw [hlocked]; exact Bool.false_ne_true)]
  rfl

theorem ilock_idup (hlocked : (s.files.inode ip).locked = false) :
    ilock ip (Ctx.withInode s ip { s.files.inode ip with ref := (s.files.inode ip).ref+1 }) = .ok () (Ctx.holding s ip) := by
  have hnew := inode_withInode s ip { s.files.inode ip with ref := (s.files.inode ip).ref+1 }
  rw [ilock_apply (by rw [hnew]; exact hlocked),withInode_withInode,hnew]
  rfl

theorem iunlockput_ok (ip : ℕ) (s : Ctx) :
    ∃ fs, iunlockput ip s = .ok () { s with files := fs } ∧ (fs.inode ip).locked = false := by
  have hunlock : iunlock ip s = .ok () (Ctx.withInode s ip { s.files.inode ip with locked := false }) := rfl
  have hnew := inode_withInode s ip { s.files.inode ip with locked := false }
  unfold iunlockput
  rw [bind_of_ok hunlock]
  unfold iput
  rw [get_bind_apply,if_neg (by rw [hnew]; exact Bool.false_ne_true)]
  split
  · refine ⟨_,rfl,?_⟩
    dsimp only
    rw [update_self,hnew]
  · refine ⟨_,rfl,?_⟩
    dsimp only
    rw [update_self,hnew]

end Steps

section Results

structure ExecFailed (t t' : Task) : Prop where
  cur : t'.ctx.cur = t.ctx.cur
  eip : t'.eip = t.eip
  esp : t'.esp = t.esp
  name : t'.name = t.name
  pages : ∀ f, f ∉ t.ctx.mem.freelist → t'.ctx.mem.page f = t.ctx.mem.page f
  frames : t.ctx.mem.freelist.Perm t'.ctx.mem.freelist

structure ExecDone (t t' : Task) : Prop where
  present : ∀ x : Word, x.toNat < t'.ctx.cur.sz.toNat → t'.ctx.cur.pgdir.present x
  freed : ∀ f ∈ owned t.ctx.cur.pgdir, f ∈ t'.ctx.mem.freelist
  frames : (owned t.ctx.cur.pgdir ++ t.ctx.mem.freelist).Perm (owned t'.ctx.cur.pgdir ++ t'.ctx.mem.freelist)

/-- A process that may call `exec` on a file: its frames are accounted for, and the inode is one with
contents that the process has not locked. -/
structure Runnable (t : Task) (ip : ℕ) : Prop where
  accounted : Accounted t.ctx [] t.ctx.cur.pgdir
  device : (t.ctx.files.inode ip).device = false
  locked : (t.ctx.files.inode ip).locked = false

/-- The file has the header of a program, and its program headers describe an image of this size. -/
structure Executable (contents : List Byte) (elf : Elfhdr) (size : Word) : Prop where
  header : readElfhdr contents = some elf
  magic : elf.magic = ELF_MAGIC
  sized : imageSize contents elf.phnum.toNat elf.phoff 0 = some size

theorem Executable.unique {contents : List Byte} {elf elf' : Elfhdr} {size size' : Word} (h : Executable contents elf size)
    (h' : Executable contents elf' size') : elf' = elf ∧ size' = size := by
  obtain rfl := Option.some.inj (h.header.symm.trans h'.header)
  exact ⟨rfl,Option.some.inj (h'.sized.symm.trans h.sized)⟩

theorem Executable.frames {contents : List Byte} {elf : Elfhdr} {size : Word} (h : Executable contents elf size)
    (hroomy : Roomy s size) : framesFor size ≤ s.mem.freelist.length :=
  hroomy.frames ((imageSize_bounds h.sized).2 (by decide))

/-- The file is a program that there is room for, and the first argument that does not fit on its stack is
placed at an address for which the lookup has no page table. -/
def Stranded (U : Word → Prop) (t : Task) (ip : ℕ) (argv : List Arg) : Prop :=
  ∃ elf size, Executable (t.ctx.files.inode ip).contents elf size ∧ Roomy t.ctx size ∧ Missing U (stackTop size) 0 0 argv

theorem Accounted.soundFree {pd : PageDir} (h : Accounted s [] pd) : SoundFree s (owned pd) := by
  have hnodup := (List.nodup_append.mp h.nodup).2.1
  refine ⟨(List.nodup_append.mp hnodup).2.1,fun f hf => h.owns f ?_,fun f hf => h.not_free hf⟩
  exact List.mem_append_right _ (List.mem_append_right _ hf)

theorem Building.withFiles {s₀ : Ctx} {pd : PageDir} (h : Building s₀ s [] pd) (fs : Files) :
    Building { s₀ with files := fs } { s with files := fs } [] pd :=
  ⟨⟨h.mem.image,by rw [h.mem.rest]⟩,h.frames,h.pages⟩

theorem Returned.execFailed (h : Returned (Ctx.holding t.ctx ip) s) (fs : Files) :
    ExecFailed t { t with ctx := { s with files := fs } } :=
  ⟨h.mem.cur_eq,rfl,rfl,rfl,h.pages,h.frames⟩

end Results

section Load
variable {elf : Elfhdr} {size eip : Word} {name : List Byte} {pd : PageDir} {s₀ : Ctx}

def load (contents : List Byte) (ip : ℕ) (next : Elfhdr → Word → PageDir → TaskM Word) : TaskM Word := do
  match readElfhdr contents with
  | none =>
    onCtx (iunlockput ip)
    pure (-1)
  | some elf =>
    if elf.magic ≠ ELF_MAGIC then
      onCtx (iunlockput ip)
      pure (-1)
    else
      match ← onCtx setupkvm with
      | none =>
        onCtx (iunlockput ip)
        pure (-1)
      | some pd =>
        match ← onCtx (loadSegments contents elf.phnum.toNat elf.phoff pd 0) with
        | (none,pd) =>
          onCtx (freevm pd)
          onCtx (iunlockput ip)
          pure (-1)
        | (some sz,pd) =>
          onCtx (iunlockput ip)
          next elf sz pd

def enter (look : PageDir → Word → KernelM (Option Frame)) (pd : PageDir) (size eip : Word) (name : List Byte)
    (argv : List Arg) : TaskM Word := do
  match ← onCtx (buildStack look pd size argv) with
  | (none,pd) =>
    onCtx (freevm pd)
    pure (-1)
  | (some (sz,sp),pd) =>
    let oldpgdir := (← get).ctx.cur.pgdir
    commit pd sz eip sp name
    onCtx (freevm oldpgdir)
    pure 0

theorem exec_eq (h : Runnable t ip) : exec look (some ip) path argv t =
    load (t.ctx.files.inode ip).contents ip
      (fun elf size pd => enter look pd size elf.entry (safestrcpy (lastName path path) 16) argv)
      { t with ctx := Ctx.holding t.ctx ip } := by
  have hinode : (Ctx.holding t.ctx ip).files.inode ip =
      { t.ctx.files.inode ip with ref := (t.ctx.files.inode ip).ref+1, locked := true } := inode_withInode _ _ _
  unfold exec
  dsimp only
  rw [bind_of_ok (onCtx_ok t (idup_apply ip t.ctx)),bind_of_ok (onCtx_ok t (ilock_idup h.locked)),bind_of_ok (get_apply _)]
  dsimp only
  rw [hinode,if_neg (by rw [h.device]; exact Bool.false_ne_true)]
  rfl

structure Loaded (t : Task) (ip : ℕ) (elf : Elfhdr) (size : Word) (pd : PageDir) (s₀ s : Ctx) : Prop where
  program : Executable (t.ctx.files.inode ip).contents elf size
  image : Imaged pd size
  build : Building s₀ s [] pd
  mem : s₀.mem = t.ctx.mem
  cur : s₀.cur = t.ctx.cur
  unlocked : (s₀.files.inode ip).locked = false

theorem Loaded.accounted (h : Loaded t ip elf size pd s₀ s) (haccount : Accounted t.ctx [] t.ctx.cur.pgdir) :
    Accounted s₀ [] s₀.cur.pgdir := by
  rw [h.cur]
  exact ⟨by rw [h.mem]; exact haccount.nodup,by rw [h.mem]; exact haccount.owns⟩

theorem Loaded.roomy (h : Loaded t ip elf size pd s₀ s) : Roomy s₀ size ↔ Roomy t.ctx size := by
  unfold Roomy
  rw [h.mem]

theorem unlock_failed (h : Returned (Ctx.holding t.ctx ip) s) : ∃ t', (do
      onCtx (iunlockput ip)
      pure (-1) : TaskM Word) { t with ctx := s } = .ok (-1) t' ∧ ExecFailed t t' ∧
    (t'.ctx.files.inode ip).locked = false := by
  obtain ⟨fs,hput,hfs⟩ := iunlockput_ok ip s
  rw [bind_of_ok (onCtx_ok t hput)]
  exact ⟨_,rfl,h.execFailed fs,hfs⟩

/-- The loading fails whatever was to follow, as the file is not a program or there is no room for it, or what
follows runs on the loaded program. -/
theorem load_cases (h : Runnable t ip) :
    (∃ t', ExecFailed t t' ∧ (t'.ctx.files.inode ip).locked = false ∧
      (∀ elf size, Executable (t.ctx.files.inode ip).contents elf size → ¬ Roomy t.ctx size) ∧ ∀ next,
      load (t.ctx.files.inode ip).contents ip next { t with ctx := Ctx.holding t.ctx ip } = .ok (-1) t') ∨
    ∃ elf size pd s₀ s, Loaded t ip elf size pd s₀ s ∧ ∀ next,
      load (t.ctx.files.inode ip).contents ip next { t with ctx := Ctx.holding t.ctx ip } =
        next elf size pd { t with ctx := s } := by
  have haccount : Accounted (Ctx.holding t.ctx ip) [] t.ctx.cur.pgdir := ⟨h.accounted.nodup,h.accounted.owns⟩
  have hsound := haccount.soundFree
  unfold load
  cases helf : readElfhdr (t.ctx.files.inode ip).contents with
  | none =>
    obtain ⟨t',hrun,hfailed⟩ := unlock_failed (.refl (Ctx.holding t.ctx ip))
    refine .inl ⟨t',hfailed.1,hfailed.2,fun elf size hprog => ?_,fun _ => hrun⟩
    rw [hprog.header] at helf
    cases helf
  | some elf =>
    have hsame : ∀ {elf' size}, Executable (t.ctx.files.inode ip).contents elf' size → elf' = elf := by
      intro elf' size hprog
      exact Option.some.inj (hprog.header.symm.trans helf)
    dsimp only
    split
    · rename_i hmagic
      obtain ⟨t',hrun,hfailed⟩ := unlock_failed (.refl (Ctx.holding t.ctx ip))
      refine .inl ⟨t',hfailed.1,hfailed.2,fun elf' size hprog => ?_,fun _ => hrun⟩
      cases hsame hprog
      exact absurd hprog.magic hmagic
    · rename_i hmagic
      rcases setupkvm_cases hsound.owns with ⟨pd,s₁,hsetup,hbuild,hkernel,hempty⟩ | ⟨s₁,hsetup,hreturn⟩
      · obtain ⟨r,pd',s₂,hload,hbuild',himage,hroom⟩ := loadSegments_cases (imaged_zero hkernel hempty) hbuild hsound
          (t.ctx.files.inode ip).contents elf.phnum.toNat elf.phoff
        cases r with
        | none =>
          obtain ⟨s₃,hfree,hreturn⟩ := hbuild'.freevm hsound.owns
          obtain ⟨t',hrun,hfailed⟩ := unlock_failed hreturn
          refine .inl ⟨t',hfailed.1,hfailed.2,fun elf' size hprog hroomy => ?_,fun next => ?_⟩
          · cases hsame hprog
            cases hroom size hprog.sized (hprog.frames hroomy)
          · rw [bind_of_ok (onCtx_ok t hsetup)]
            dsimp only
            rw [bind_of_ok (onCtx_ok t hload)]
            dsimp only
            rw [bind_of_ok (onCtx_ok t hfree)]
            exact hrun
        | some size =>
          obtain ⟨himaged,hsize⟩ := himage size rfl
          obtain ⟨fs,hput,hfs⟩ := iunlockput_ok ip s₂
          refine .inr ⟨elf,size,pd',{ Ctx.holding t.ctx ip with files := fs },{ s₂ with files := fs },
            ⟨⟨helf,not_not.mp hmagic,hsize⟩,himaged,hbuild'.withFiles fs,rfl,rfl,hfs⟩,fun next => ?_⟩
          rw [bind_of_ok (onCtx_ok t hsetup)]
          dsimp only
          rw [bind_of_ok (onCtx_ok t hload)]
          dsimp only
          rw [bind_of_ok (onCtx_ok t hput)]
      · obtain ⟨t',hrun,hfailed⟩ := unlock_failed hreturn
        refine .inl ⟨t',hfailed.1,hfailed.2,fun elf' size hprog hroomy => ?_,fun next => ?_⟩
        · have hframes : framesFor 0 ≤ framesFor size := framesFor_mono (imageSize_bounds hprog.sized).1
          obtain ⟨pd,s₂,hsome,-⟩ := setupkvm_room hsound.owns (hframes.trans (hprog.frames hroomy))
          rw [hsetup] at hsome
          cases hsome
        · rw [bind_of_ok (onCtx_ok t hsetup)]
          exact hrun

theorem exec_loading (h : Runnable t ip) (path : List Byte) :
    (∃ t', ExecFailed t t' ∧ (t'.ctx.files.inode ip).locked = false ∧
      (∀ elf size, Executable (t.ctx.files.inode ip).contents elf size → ¬ Roomy t.ctx size) ∧
      ∀ look argv, exec look (some ip) path argv t = .ok (-1) t') ∨
    ∃ elf size pd s₀ s, Loaded t ip elf size pd s₀ s ∧ ∀ look argv, exec look (some ip) path argv t =
      enter look pd size elf.entry (safestrcpy (lastName path path) 16) argv { t with ctx := s } := by
  rcases load_cases h with ⟨t',hfailed,hunlocked,hreason,hrun⟩ | ⟨elf,size,pd,s₀,s,hloaded,hrun⟩
  · exact .inl ⟨t',hfailed,hunlocked,hreason,fun look argv => (exec_eq h).trans (hrun _)⟩
  · exact .inr ⟨elf,size,pd,s₀,s,hloaded,fun look argv => (exec_eq h).trans (hrun _)⟩

end Load
end Xv6.Vm
