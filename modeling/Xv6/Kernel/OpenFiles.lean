import Xv6.Kernel.FileCalls
import Xv6.Kernel.Reachable

/-! # Descriptors and open files

What the calls do to the descriptors of the process and to the references of open
files: the calls on mappings and page faults leave both alone, `open` takes an entry of
the file table that nobody uses, and `close` gives one back.
-/
namespace Xv6.Kernel
open Wmap Program Function
variable {s s' : Ctx} {fd : Word} {k : Fin NFILE}

section Keeps

structure Keeps (s s' : Ctx) : Prop where
  ofile : s'.cur.ofile = s.cur.ofile
  ref : ∀ k, (s'.files.file k).ref = (s.files.file k).ref

theorem Keeps.refl (s : Ctx) : Keeps s s := ⟨rfl,fun _ => rfl⟩

theorem Keeps.trans {s'' : Ctx} (h : Keeps s s') (h' : Keeps s' s'') : Keeps s s'' :=
  ⟨h'.ofile.trans h.ofile,fun k => (h'.ref k).trans (h.ref k)⟩

theorem Soft.keeps (h : Soft s s') : Keeps s s' := ⟨h.ofile,h.ref⟩

theorem faulting_keeps : Faulting Keeps (fun _ _ => True) where
  soft h := h.keeps
  bump _ _ := ⟨rfl,fun _ => rfl⟩
  trans h h' := h.trans h'
  fails _ := trivial
  after _ _ := trivial
  exit := by
    intro s
    cases h : (exit : KernelM Unit) s with
    | ok a t => exact absurd h (neverReturns_exit s a t)
    | error e t => trivial

theorem keeps_wmap {addr length flags r : Word} (h : wmap addr length flags fd s = .ok r s') : Keeps s s' := by
  have hinit : Keeps s s.initialised := ⟨rfl,fun _ => rfl⟩
  rw [wmap_apply] at h
  split at h
  · cases h
    exact hinit
  · cases hp : place (PGROUNDDOWN addr) length flags s.initialised with
    | error e u =>
      rw [hp] at h
      cases h
    | ok a u =>
      have hu := hinit.trans ((faulting_keeps.place _ _ _).ok hp)
      rw [hp] at h
      cases a with
      | none =>
        cases h
        exact hu
      | some a =>
        dsimp only at h
        split at h
        · cases h
        · cases h
          exact hu.trans ⟨rfl,fun _ => rfl⟩

theorem keeps_wunmap {addr r : Word} (h : wunmap addr s = .ok r s') : Keeps s s' := by
  obtain ⟨p,hp,h1⟩ := onTable_bind_ok h
  cases p with
  | none =>
    cases h1
    exact .refl s
  | some p =>
    dsimp only at h1
    rw [get_bind_apply] at h1
    obtain ⟨_,u₁,hback,h2⟩ := bind_eq_ok.mp h1
    obtain ⟨⟨r,t₂⟩,-,h3⟩ := onTable_bind_ok h2
    dsimp only at h3
    rw [setTable_bind_apply,get_bind_apply] at h3
    obtain ⟨_,u₂,hfree,h4⟩ := bind_eq_ok.mp h3
    obtain ⟨_,u₃,hclear,h5⟩ := bind_eq_ok.mp h4
    cases h5
    have h1 := (faulting_keeps.writeBack _).ok hback
    have h2 : Keeps u₁ { u₁ with tab := t₂ } := ⟨rfl,fun _ => rfl⟩
    have h3 := (faulting_keeps.freeLoop _ _ _).ok hfree
    exact h1.trans (h2.trans (h3.trans ((faulting_keeps.clearLoop _ _ _).ok hclear)))

end Keeps

section Counts

def opened (s : Ctx) (fd : Word) : Option (Fin NFILE) :=
  if h : fd.toNat < NOFILE then s.cur.ofile ⟨fd.toNat,h⟩ else none

/-- An open file has at least a reference for every descriptor. -/
def FilesCounted (s : Ctx) : Prop :=
  ∀ k, (Finset.univ.filter fun j => s.cur.ofile j = some k).card ≤ (s.files.file k).ref

theorem Keeps.filesCounted (h : Keeps s s') (hc : FilesCounted s) : FilesCounted s' := by
  intro k
  rw [h.ofile,h.ref]
  exact hc k

theorem Keeps.opened (h : Keeps s s') (fd : Word) : opened s' fd = opened s fd := by
  rw [Kernel.opened,Kernel.opened,h.ofile]

theorem FilesCounted.ref_pos (hc : FilesCounted s) (h : opened s fd = some k) : 0 < (s.files.file k).ref := by
  unfold opened at h
  split at h
  · rename_i hlt
    refine lt_of_lt_of_le (Finset.card_pos.mpr ⟨⟨fd.toNat,hlt⟩,?_⟩) (hc k)
    exact Finset.mem_filter.mpr ⟨Finset.mem_univ _,h⟩
  · cases h

theorem argfd_apply (fd : Word) (s : Ctx) : argfd fd s = .ok (opened s fd) s := by
  unfold argfd opened
  split <;> rfl

end Counts

section Close

def Ctx.withFile (s : Ctx) (k : Fin NFILE) (v : File) : Ctx :=
  { s with files := { s.files with file := Function.update s.files.file k v } }

theorem ref_withFile (s : Ctx) (k : Fin NFILE) (v : File) (m : Fin NFILE) :
    ((s.withFile k v).files.file m).ref = if m = k then v.ref else (s.files.file m).ref := by
  change (update s.files.file k v m).ref = _
  rw [update_apply]
  split <;> rfl

theorem fileclose_ok {u : Unit} (h : fileclose k s = .ok u s') : s'.tab = s.tab ∧ s'.cur.ofile = s.cur.ofile ∧
    0 < (s.files.file k).ref ∧
    ∀ m, (s'.files.file m).ref = if m = k then (s.files.file k).ref-1 else (s.files.file m).ref := by
  unfold fileclose at h
  rw [get_bind_apply] at h
  split at h
  · cases h
  · split at h
    · cases h
      exact ⟨rfl,rfl,by omega,ref_withFile s k _⟩
    · obtain ⟨_,s₁,h1,h2⟩ := bind_eq_ok.mp h
      cases h1
      have hsoft : Soft (s.withFile k { s.files.file k with ref := 0, kind := .none }) s' := by
        cases hkind : (s.files.file k).kind with
        | none =>
          rw [hkind] at h2
          exact (gentle_pure ()).ok h2
        | pipe q =>
          rw [hkind] at h2
          exact (gentle_pipeclose _ _).ok h2
        | inode ip =>
          rw [hkind] at h2
          exact (gentle_iput _).ok h2
      refine ⟨hsoft.tab,hsoft.ofile,by omega,fun m => ?_⟩
      rw [hsoft.ref m]
      rw [ref_withFile]
      split
      · dsimp only
        omega
      · rfl

theorem sysClose_ok {r : Word} (h : sysClose fd s = .ok r s') : (opened s fd = none ∧ s' = s) ∨
    ∃ k, opened s fd = some k ∧ s'.tab = s.tab ∧ 0 < (s.files.file k).ref ∧
      (s'.cur.ofile = fun j => if j.val = fd.toNat then none else s.cur.ofile j) ∧
      ∀ m, (s'.files.file m).ref = if m = k then (s.files.file k).ref-1 else (s.files.file m).ref := by
  unfold sysClose at h
  rw [bind_of_ok (argfd_apply fd s)] at h
  cases hk : opened s fd with
  | none =>
    rw [hk] at h
    cases h
    exact .inl ⟨rfl,rfl⟩
  | some k =>
    rw [hk] at h
    obtain ⟨_,s₁,h1,h2⟩ := bind_eq_ok.mp h
    cases h1
    obtain ⟨_,s₂,h3,h4⟩ := bind_eq_ok.mp h2
    cases h4
    obtain ⟨htab,hofile,hpos,href⟩ := fileclose_ok h3
    exact .inr ⟨k,rfl,htab,hpos,hofile,href⟩

theorem sysClose_counted {r : Word} (hc : FilesCounted s) (h : sysClose fd s = .ok r s') : FilesCounted s' := by
  rcases sysClose_ok h with ⟨-,rfl⟩ | ⟨k,hk,-,hpos,hofile,href⟩
  · exact hc
  · unfold opened at hk
    split at hk
    · rename_i hlt
      intro m
      have hsub : (Finset.univ.filter fun j => s'.cur.ofile j = some m) ⊆
          (Finset.univ.filter fun j => s.cur.ofile j = some m).erase ⟨fd.toNat,hlt⟩ := by
        intro j hj
        obtain ⟨-,hj⟩ := Finset.mem_filter.mp hj
        rw [hofile] at hj
        dsimp only at hj
        split at hj
        · cases hj
        · rename_i hne
          exact Finset.mem_erase.mpr ⟨fun he => hne (by rw [he]),Finset.mem_filter.mpr ⟨Finset.mem_univ _,hj⟩⟩
      have hle := Finset.card_le_card hsub
      have hcm := hc m
      rw [href]
      split
      · rename_i hm
        subst hm
        have hmem : (⟨fd.toNat,hlt⟩ : Fin NOFILE) ∈ Finset.univ.filter fun j => s.cur.ofile j = some m :=
          Finset.mem_filter.mpr ⟨Finset.mem_univ _,hk⟩
        rw [Finset.card_erase_of_mem hmem] at hle
        omega
      · exact hle.trans ((Finset.card_le_card (Finset.erase_subset _ _)).trans hcm)
    · cases hk

end Close

section Open

def freeEntry (s : Ctx) : Option (Fin NFILE) := (List.finRange NFILE).find? fun f => (s.files.file f).ref = 0

/-- A call of `open` that returns: it has failed, or it has put a free entry of the file table under a
free descriptor. -/
inductive Opened (s s' : Ctx) (r : Word) : Prop
  | failed : r = -1 → s'.tab = s.tab → Keeps s s' → Opened s s' r
  | done (f : Fin NFILE) (j : Fin NOFILE) : r ≠ -1 → s'.tab = s.tab → freeEntry s = some f → s.cur.ofile j = none →
    s'.cur.ofile = Function.update s.cur.ofile j (some f) →
    (∀ m, (s'.files.file m).ref = if m = f then 1 else (s.files.file m).ref) → Opened s s' r

theorem freeEntry_ref {f : Fin NFILE} (h : freeEntry s = some f) : (s.files.file f).ref = 0 := by
  simpa using List.find?_some h

theorem Keeps.freeEntry (h : Keeps s s') : freeEntry s' = freeEntry s := by
  unfold Kernel.freeEntry
  congr 1
  funext f
  rw [h.ref f]

theorem filealloc_apply (s : Ctx) : filealloc s = match freeEntry s with
    | none => .ok none s
    | some f => .ok (some f) (s.withFile f { s.files.file f with ref := 1 }) := by
  unfold filealloc freeEntry
  rw [get_bind_apply]
  dsimp only
  generalize hfind : (List.finRange NFILE).find? (fun f => decide ((s.files.file f).ref = 0)) = o
  cases o <;> rfl

theorem fdalloc_ok {f : Fin NFILE} {o : Option (Fin NOFILE)} (h : fdalloc f s = .ok o s') : (o = none ∧ s' = s) ∨
    ∃ j, o = some j ∧ s.cur.ofile j = none ∧
      s' = { s with cur := { s.cur with ofile := Function.update s.cur.ofile j (some f) } } := by
  unfold fdalloc at h
  rw [get_bind_apply] at h
  dsimp only at h
  generalize hfind : (List.finRange NOFILE).find? (fun j => decide (s.cur.ofile j = none)) = found at h
  cases found with
  | none =>
    cases h
    exact .inl ⟨rfl,rfl⟩
  | some j =>
    cases h
    exact .inr ⟨j,rfl,by simpa using List.find?_some hfind,rfl⟩

theorem sysOpen_ok {found : Option ℕ} {omode r : Word} (h : sysOpen found omode s = .ok r s') : Opened s s' r := by
  unfold sysOpen at h
  cases found with
  | none =>
    cases h
    exact .failed rfl rfl (.refl s)
  | some ip =>
    obtain ⟨_,s₁,h1,h2⟩ := bind_eq_ok.mp h
    obtain ⟨_,s₂,h3,h4⟩ := bind_eq_ok.mp h2
    have hsoft := ((gentle_idup _).ok h1).trans ((gentle_ilock _).ok h3)
    have hfree := hsoft.keeps.freeEntry
    rw [bind_apply,filealloc_apply] at h4
    cases hf : freeEntry s₂ with
    | none =>
      rw [hf] at h4
      have hend : Soft s₂ s' := ((gentle_iunlock ip).bind fun _ => (gentle_iput ip).bind fun _ => gentle_pure _).ok h4
      obtain ⟨_,s₃,-,h5⟩ := bind_eq_ok.mp h4
      obtain ⟨_,s₄,-,h6⟩ := bind_eq_ok.mp h5
      cases h6
      exact .failed rfl (hsoft.trans hend).tab (hsoft.trans hend).keeps
    | some f =>
      rw [hf] at h4 hfree
      have hzero := freeEntry_ref hfree.symm
      obtain ⟨o,s₃,h5,h6⟩ := bind_eq_ok.mp h4
      rcases fdalloc_ok h5 with ⟨rfl,rfl⟩ | ⟨j,rfl,hj,rfl⟩
      · obtain ⟨_,s₄,h7,h8⟩ := bind_eq_ok.mp h6
        obtain ⟨htab,hofile,-,href⟩ := fileclose_ok h7
        have hend : Soft s₄ s' := ((gentle_iunlock ip).bind fun _ => (gentle_iput ip).bind fun _ => gentle_pure _).ok h8
        obtain ⟨_,s₅,-,h9⟩ := bind_eq_ok.mp h8
        obtain ⟨_,s₆,-,h10⟩ := bind_eq_ok.mp h9
        cases h10
        refine .failed rfl (hend.tab.trans (htab.trans hsoft.tab)) ⟨hend.ofile.trans (hofile.trans hsoft.ofile),fun m => ?_⟩
        rw [hend.ref,href]
        split
        · rename_i hm
          rw [ref_withFile,if_pos rfl,hm,hzero]
          rfl
        · rename_i hm
          rw [ref_withFile,if_neg hm,hsoft.ref]
      · obtain ⟨_,s₄,h7,h8⟩ := bind_eq_ok.mp h6
        have hunlock := (gentle_iunlock ip).ok h7
        rw [get_bind_apply] at h8
        cases h8
        refine .done f j ?_ (hunlock.tab.trans hsoft.tab) hfree.symm ?_ ?_ fun m => ?_
        · intro hr
          have hlt := j.isLt
          have hnat : j.val % 2^32 = 2^32-1 := congrArg BitVec.toNat hr
          have : NOFILE = 16 := rfl
          omega
        · rw [← hsoft.ofile]
          exact hj
        · change s₄.cur.ofile = _
          rw [hunlock.ofile]
          change update s₂.cur.ofile j (some f) = _
          rw [hsoft.ofile]
        · change ((s₄.withFile f _).files.file m).ref = _
          rw [ref_withFile]
          split
          · change (s₄.files.file f).ref = 1
            rw [hunlock.ref]
            exact (ref_withFile s₂ f _ f).trans (if_pos rfl)
          · rename_i hm
            rw [hunlock.ref]
            refine (ref_withFile s₂ f _ m).trans ?_
            rw [if_neg hm,hsoft.ref]

theorem sysOpen_counted {r : Word} (hc : FilesCounted s) (h : Opened s s' r) : FilesCounted s' := by
  cases h with
  | failed _ _ hkeeps => exact hkeeps.filesCounted hc
  | done f j _ _ hfree hj hofile href =>
    have hzero := freeEntry_ref hfree
    intro m
    have hcm := hc m
    rw [href]
    by_cases hm : m = f
    · subst hm
      rw [if_pos rfl]
      have hsub : (Finset.univ.filter fun i => s'.cur.ofile i = some m) ⊆
          insert j (Finset.univ.filter fun i => s.cur.ofile i = some m) := by
        intro i hi
        obtain ⟨-,hi⟩ := Finset.mem_filter.mp hi
        rw [hofile,update_apply] at hi
        split at hi
        · rename_i hij
          exact Finset.mem_insert.mpr (.inl hij)
        · exact Finset.mem_insert_of_mem (Finset.mem_filter.mpr ⟨Finset.mem_univ _,hi⟩)
      have hle := (Finset.card_le_card hsub).trans (Finset.card_insert_le _ _)
      omega
    · rw [if_neg hm]
      refine (Finset.card_le_card fun i hi => ?_).trans hcm
      obtain ⟨-,hi⟩ := Finset.mem_filter.mp hi
      rw [hofile,update_apply] at hi
      split at hi
      · exact absurd (Option.some.inj hi).symm hm
      · exact Finset.mem_filter.mpr ⟨Finset.mem_univ _,hi⟩

end Open
end Xv6.Kernel
