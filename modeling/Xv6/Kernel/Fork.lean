import Xv6.Kernel.AddressSpace
import Xv6.Kernel.Reachable
import Xv6.Wmap.Copies

/-! # Fork

A fork that succeeds gives the child the pages below the size of the process and runs
`forkHelper` once on the table. It succeeds when there is a process slot and enough
memory and the table has room for the copies.
-/
namespace Xv6.Kernel
open Wmap Program
variable {s s' u : Ctx} {child : Proc}

section Results

theorem allocproc_ok {pid : ℕ} {kstack : Frame} (h : allocproc s = .ok (some (pid,kstack)) u) :
    ∃ fs, s.mem.freelist = kstack :: fs ∧
      u = { s with nextpid := s.nextpid+1, mem := { s.mem with freelist := fs }, unused := s.unused-1 } := by
  unfold allocproc at h
  rw [get_bind_apply,get_bind_apply] at h
  split at h
  · cases h
  · obtain ⟨_,u₁,h1,h2⟩ := bind_eq_ok.mp h
    obtain ⟨r,u₂,h3,h4⟩ := bind_eq_ok.mp h2
    cases h1
    rw [kalloc_apply] at h3
    cases hfree : s.mem.freelist with
    | nil =>
      simp only [hfree] at h3
      cases h3
      cases h4
    | cons f fs =>
      simp only [hfree] at h3
      cases h3
      cases h4
      exact ⟨fs,rfl,rfl⟩

theorem dupFd_mem {fd : Fin NOFILE} {r : Unit} (h : dupFd fd s = .ok r s') : s'.mem = s.mem := by
  unfold dupFd at h
  rw [get_bind_apply] at h
  cases hfd : s.cur.ofile fd with
  | none =>
    rw [hfd] at h
    cases h
    rfl
  | some f =>
    rw [hfd] at h
    dsimp only at h
    unfold filedup at h
    rw [get_bind_apply] at h
    split at h
    · cases h
    · cases h
      rfl

theorem dupFds_mem {fds : List (Fin NOFILE)} {r : Unit} (h : fds.forM dupFd s = .ok r s') : s'.mem = s.mem := by
  induction fds generalizing s with
  | nil =>
    cases h
    rfl
  | cons fd fds ih =>
    obtain ⟨_,u,h1,h2⟩ := bind_eq_ok.mp (h : (dupFd fd >>= fun _ => fds.forM dupFd) s = .ok r s')
    exact (ih h2).trans (dupFd_mem h1)

/-- The child has the directory that `copyuvm` has made once the kernel stack was taken, and the table has
its copies. -/
structure Forked (s s' : Ctx) (child : Proc) : Prop where
  tab : forkHelper s.tab = .ok s'.tab
  copied : ∃ u u₁ kstack, copyuvm s.cur.pgdir s.cur.sz u = .ok (some child.pgdir) u₁ ∧
    s.mem = { u.mem with freelist := kstack :: u.mem.freelist } ∧ s'.mem = u₁.mem

theorem fork_ok (h : fork s = .ok (some child) s') : Forked s s' child := by
  obtain ⟨r,u,h1,h2⟩ := bind_eq_ok.mp h
  cases r with
  | none => cases h2
  | some r =>
    obtain ⟨fs,hfree,rfl⟩ := allocproc_ok h1
    dsimp only at h2
    rw [get_bind_apply] at h2
    obtain ⟨d,u₁,h3,h4⟩ := bind_eq_ok.mp h2
    cases d with
    | none =>
      obtain ⟨_,_,-,h5⟩ := bind_eq_ok.mp h4
      obtain ⟨_,_,-,h6⟩ := bind_eq_ok.mp h5
      cases h6
    | some d =>
      dsimp only at h4
      generalize List.finRange NOFILE = fds at h4
      obtain ⟨_,u₂,h5,h6⟩ := bind_eq_ok.mp h4
      obtain ⟨_,u₃,h7,h8⟩ := bind_eq_ok.mp h6
      obtain ⟨t,ht,h9⟩ := onTable_bind_ok h8
      have htab : u₃.tab = s.tab := by rw [(quiet_idup _).ok h7,(quiet_forM quiet_dupFd).ok h5,((paging_copyuvm _ _).ok h3).rest]
      have hmem : u₃.mem = u₁.mem := by
        have hdup := dupFds_mem h5
        cases h7
        exact hdup
      cases h9
      exact ⟨htab ▸ ht,_,u₁,r.2,h3,by rw [← hfree],hmem⟩

end Results

section Success

def Counted (s : Ctx) : Prop := ∀ fd f, s.cur.ofile fd = some f → 1 ≤ (s.files.file f).ref

theorem dupFd_counted (h : Counted s) (fd : Fin NOFILE) :
    ∃ s', dupFd fd s = .ok () s' ∧ Counted s' ∧ s'.mem = s.mem := by
  unfold dupFd
  rw [get_bind_apply]
  cases hfd : s.cur.ofile fd with
  | none => exact ⟨s,rfl,h,rfl⟩
  | some f =>
    have href := h fd f hfd
    dsimp only
    unfold filedup
    rw [get_bind_apply,if_neg (by omega)]
    refine ⟨_,rfl,fun fd' f' hfd' => ?_,rfl⟩
    by_cases hf : f' = f
    · subst hf
      simp
    · simpa [hf] using h fd' f' hfd'

theorem dupFds_counted (h : Counted s) (fds : List (Fin NOFILE)) :
    ∃ s', fds.forM dupFd s = .ok () s' ∧ s'.mem = s.mem := by
  induction fds generalizing s with
  | nil => exact ⟨s,rfl,rfl⟩
  | cons fd fds ih =>
    obtain ⟨s₁,h1,hs₁,hmem₁⟩ := dupFd_counted h fd
    obtain ⟨s₂,h2,hmem₂⟩ := ih hs₁
    refine ⟨s₂,?_,hmem₂.trans hmem₁⟩
    change (dupFd fd >>= fun _ => fds.forM dupFd) s = _
    rw [bind_of_ok h1]
    exact h2

/-- Memory for the kernel stack, the page directory, all page tables and the pages, and room
in the table. -/
theorem fork_succeeds {t : Table} {c : ℕ} (hslot : s.unused ≠ 0) (hsz : s.cur.sz.toNat ≤ 2^31)
    (hpages : ∀ x : Word, x.toNat < s.cur.sz.toNat → x.toNat % 4096 = 0 → s.cur.pgdir.present x)
    (hroom : 1026+((s.cur.sz.toNat+4095)/4096+c) ≤ s.mem.freelist.length) (hfiles : Counted s)
    (htab : forkHelper s.tab = .ok t) :
    ∃ child s', fork s = .ok (some child) s' ∧ c ≤ s'.mem.freelist.length := by
  obtain ⟨f,fs,hfree⟩ := List.exists_cons_of_length_pos (by omega : 0 < s.mem.freelist.length)
  rw [hfree,List.length_cons] at hroom
  let u : Ctx := { s with
    nextpid := s.nextpid+1, mem := { s.mem with freelist := fs }, unused := s.unused-1 }
  have halloc : allocproc s = .ok (some (s.nextpid,f)) u := by
    unfold allocproc
    rw [get_bind_apply,get_bind_apply,if_neg hslot,bind_apply,modify_apply]
    dsimp only
    rw [bind_apply,kalloc_apply]
    simp only [hfree]
    rfl
  obtain ⟨d,u₁,hcopy,hroom₁⟩ := copyuvm_succeeds (c := c) (s := u) hsz hpages (by change _ ≤ fs.length; omega)
  have hmem := (paging_copyuvm _ _).ok hcopy
  have hcounted : Counted u₁ := by
    rw [hmem.rest]
    exact hfiles
  obtain ⟨u₂,hdup,hmem₂⟩ := dupFds_counted hcounted (List.finRange NOFILE)
  obtain ⟨u₃,hidup,hmem₃⟩ : ∃ u₃, idup s.cur.cwd u₂ = .ok () u₃ ∧ u₃.mem = u₂.mem := ⟨_,rfl,rfl⟩
  have htab₃ : u₃.tab = s.tab := by
    rw [(quiet_idup _).ok hidup,(quiet_forM quiet_dupFd).ok hdup,hmem.rest]
  have hhelper : onTable forkHelper u₃ = .ok t u₃ := by rw [onTable_apply,htab₃,htab]
  refine ⟨{ s.cur with pid := s.nextpid, initproc := false, pgdir := d, kstack := f },{ u₃ with tab := t },?_,?_⟩
  · unfold fork
    rw [bind_of_ok halloc]
    dsimp only
    rw [get_bind_apply]
    change (copyuvm s.cur.pgdir s.cur.sz >>= _) u = _
    rw [bind_of_ok hcopy]
    dsimp only
    rw [bind_of_ok hdup]
    change (idup s.cur.cwd >>= _) u₂ = _
    rw [bind_of_ok hidup,bind_of_ok hhelper]
    rfl
  · rw [hmem₃,hmem₂]
    exact hroom₁

end Success
end Xv6.Kernel
