import Xv6.Ptable.Cpus
import Xv6.Ptable.Pages

/-! # Exit and wait

The processes that have exited in a slot are those that calls of `wait` have returned, in
the same order, and the one that is a `ZOMBIE` now. Each of these calls was made by the
parent and freed the kernel stack and the page directory of the process.
-/
namespace Xv6.Ptable
open Runs Function
variable {s s' : Procs} {p q r np : Slot} {victim : Option PidNum}

section Accounts

def Procs.exitsOf (s : Procs) (p : Slot) : List Exited := s.exits.filter fun e => decide (e.slot = p)

def Procs.reapsOf (s : Procs) (p : Slot) : List Reaped := s.reaps.filter fun r => decide (r.exited.slot = p)

def Procs.pending (s : Procs) (p : Slot) : List Exited :=
  if (s.table p).state = .zombie then [exitedAs p (s.table p)] else []

structure Accounts (s : Procs) : Prop where
  matched : ∀ p, s.exitsOf p = (s.reapsOf p).map Reaped.exited ++ s.pending p
  reaped : ∀ r ∈ s.reaps, r.parent = some r.caller ∧
    ∃ k d, r.exited.kstack = some k ∧ r.exited.pgdir = some d ∧ r.frees = [k,d]

theorem Accounts.keep (h : Accounts s) (hexits : s'.exits = s.exits) (hreaps : s'.reaps = s.reaps)
    (hpending : ∀ q, s'.pending q = s.pending q) : Accounts s' := by
  refine ⟨?_,?_⟩
  · intro q
    rw [hpending,Procs.exitsOf,Procs.reapsOf,hexits,hreaps]
    exact h.matched q
  · rw [hreaps]
    exact h.reaped

theorem pending_of_ne (h : (s.table p).state ≠ .zombie) : s.pending p = [] := if_neg h

theorem pending_eq (hstate : (s'.table q).state = .zombie ↔ (s.table q).state = .zombie)
    (hpid : (s'.table q).pid = (s.table q).pid) (hkstack : (s'.table q).kstack = (s.table q).kstack)
    (hpgdir : (s'.table q).pgdir = (s.table q).pgdir) : s'.pending q = s.pending q := by
  simp only [Procs.pending,hstate,exitedAs,hpid,hkstack,hpgdir]

theorem Stirred.zombie {x y : ProcState} (h : Stirred x y) : y = .zombie ↔ x = .zombie := by
  rcases h with rfl | ⟨rfl,rfl⟩
  · exact Iff.rfl
  · exact ⟨nofun,nofun⟩

theorem Accounts.set {x : Proc} (h : Accounts s) (htable : s'.table = Function.update s.table q x)
    (hexits : s'.exits = s.exits) (hreaps : s'.reaps = s.reaps) (hq : (s.table q).state ≠ .zombie)
    (hx : x.state ≠ .zombie) : Accounts s' := by
  refine h.keep hexits hreaps fun r => ?_
  by_cases hr : r = q
  · subst hr
    rw [pending_of_ne hq,pending_of_ne]
    rw [htable,update_self]
    exact hx
  · simp only [Procs.pending,htable,update_of_ne hr]

theorem Accounts.exit (h : Accounts s) (hp : (s.table p).state = .running) : Accounts (exit s p) := by
  refine ⟨fun q => ?_,h.reaped⟩
  have hexits : (Ptable.exit s p).exits = s.exits ++ [exitedAs p (s.table p)] := by
    obtain ⟨h1,h2,h3⟩ := exit_same (s := s) (p := p) p
    simp only [Ptable.exit,update_self] at h1 h2 h3
    simp only [Ptable.exit,exitedAs,h1,h2,h3]
  have hreaps : (Ptable.exit s p).reapsOf q = s.reapsOf q := rfl
  rw [Procs.exitsOf,hexits,List.filter_append,hreaps]
  change s.exitsOf q ++ _ = _
  rw [h.matched q,List.append_assoc]
  congr 1
  obtain ⟨h1,h2,h3⟩ := exit_same (s := s) (p := p) q
  by_cases hq : q = p
  · subst hq
    rw [pending_of_ne (by rw [hp]; decide),Procs.pending,if_pos exit_self]
    simp [exitedAs,h1,h2,h3]
  · rw [pending_eq (woken_exit hq).state.zombie h1 h2 h3]
    simp [exitedAs,Ne.symm hq]

theorem wait_zombie (hparent : (s.table q).parent = some p) (hz : (s.table q).state = .zombie) :
    ∃ q, (s.table q).parent = some p ∧ (s.table q).state = .zombie ∧ wait s p = (reap s p q,true) := by
  unfold wait
  split
  · rename_i q b h
    exact ⟨q,(scan_some h).1,(scan_some h).2,rfl⟩
  · rename_i b h
    exact absurd hz ((scan_none h).1 q (List.mem_finRange q) hparent)

theorem Pages.zombie (h : Pages s) (hz : (s.table p).state = .zombie) :
    ∃ k d, (s.table p).kstack = some k ∧ (s.table p).pgdir = some d := by
  obtain ⟨hstack,hpgdir⟩ : (s.table p).kstack.isSome ∧ (s.table p).pgdir.isSome := by
    have := h.equipped p
    rw [Equipped,hz] at this
    exact this
  obtain ⟨k,hk⟩ := Option.isSome_iff_exists.mp hstack
  obtain ⟨d,hd⟩ := Option.isSome_iff_exists.mp hpgdir
  exact ⟨k,d,hk,hd⟩

theorem Accounts.reap (h : Accounts s) (hpages : Pages s) (hparent : (s.table q).parent = some p)
    (hz : (s.table q).state = .zombie) : Accounts (reap s p q) := by
  obtain ⟨k,d,hk,hd⟩ := hpages.zombie hz
  refine ⟨fun r => ?_,?_⟩
  · have hreaps : (Ptable.reap s p q).reapsOf r = s.reapsOf r ++ List.filter (fun r' => decide (r'.exited.slot = r))
        [⟨exitedAs q (s.table q),p,(s.table q).parent,(s.table q).kstack.toList ++ (s.table q).pgdir.toList⟩] :=
      List.filter_append ..
    have hexits : (Ptable.reap s p q).exitsOf r = s.exitsOf r := rfl
    rw [hexits,h.matched r,hreaps,List.map_append,List.append_assoc]
    congr 1
    by_cases hr : r = q
    · subst hr
      rw [Procs.pending,if_pos hz,pending_of_ne]
      · simp [exitedAs]
      · simp [Ptable.reap]
    · have hentry : (Ptable.reap s p q).table r = s.table r := set_of_ne hr
      rw [Procs.pending,Procs.pending,hentry]
      simp [exitedAs,Ne.symm hr]
  · intro r hr
    rcases List.mem_append.mp hr with hr | hr
    · exact h.reaped r hr
    · cases List.mem_singleton.mp hr
      refine ⟨hparent,k,d,hk,hd,?_⟩
      simp [hk,hd]

theorem Accounts.change (h : Accounts s) (hpages : Pages s) (hf : Forks s) (hc : Change s victim s') : Accounts s' := by
  have hne : ∀ {p st}, (s.table p).state = st → st ≠ .zombie → (s.table p).state ≠ .zombie :=
    fun hp hst he => hst (hp.symm.trans he)
  have hembryo : ∀ {p np}, (s.stage p).target = some np → (s.table np).state ≠ .zombie :=
    fun hp => hne (hf.embryo _ _ hp) (by decide)
  cases hc with
  | same => exact h
  | dispatch p hp => exact h.set rfl rfl rfl (hne hp (by decide)) (by simp)
  | tidy p hp => exact h.set rfl rfl rfl (hne hp (by decide)) (hne hp (by decide))
  | yield p hp => exact h.set rfl rfl rfl (hne hp (by decide)) (by simp)
  | sleep p chan hp => exact h.set rfl rfl rfl (hne hp (by decide)) (by simp)
  | exit p hp huser hinit => exact h.exit hp
  | wait p hp =>
    rcases wait_cases s p with ⟨q,hq,hz,hw⟩ | hw | ⟨-,-,-,hw⟩
    · rw [hw]
      exact h.reap hpages hq hz
    · rw [hw]
      exact h
    · rw [hw]
      exact h.set rfl rfl rfl (hne hp (by decide)) (by simp)
  | kill pid hpid =>
    refine h.keep rfl rfl fun q => ?_
    have hz := (kill_state s.table pid q).zombie
    rcases kill_entry s.table pid q with hq | hq
    · simp only [Procs.pending,hq]
    · exact pending_eq hz (by simp only [hq]; rfl) (by simp only [hq]; rfl) (by simp only [hq]; rfl)
  | wakeup chan =>
    refine h.keep rfl rfl fun q => ?_
    have hw := woken_wakeup1 s.table chan q
    exact pending_eq hw.state.zombie hw.pid hw.kstack hw.pgdir
  | allocproc p hp huser =>
    rcases allocproc_cases s p with hs | ⟨np,hnp,hs⟩
    · rw [hs]
      exact h
    · rw [hs]
      exact h.set rfl rfl rfl (hne hnp (by decide)) (by simp)
  | allocstack p np ok hp hst =>
    have hnp := hembryo (p := p) (by rw [hst]; rfl)
    cases ok with
    | true => exact h.set rfl rfl rfl hnp hnp
    | false => exact h.set rfl rfl rfl hnp (by simp)
  | copyproc p np ok hp hst =>
    have hnp := hembryo (p := p) (by rw [hst]; rfl)
    cases ok with
    | true => exact h.set rfl rfl rfl hnp hnp
    | false => exact h.set rfl rfl rfl hnp (by simp)
  | ready p np hp hst => exact h.set rfl rfl rfl (hembryo (p := p) (by rw [hst]; rfl)) (by simp)

end Accounts

section Runs

theorem family_boot : Family boot.procs := by
  have hparent : ∀ p, (boot.procs.table p).parent = none := by decide
  refine ⟨rfl,rfl,?_,?_,fun p _ => hparent p,?_,?_⟩
  · intro p r hp
    rw [hparent] at hp
    cases hp
  · intro p hp
    rw [hparent] at hp
    cases hp
  · rintro p np (hp | hp)
    · cases hp
    · cases hp
  · intro p hp
    have hall : ∀ p, (boot.procs.table p).state ≠ .sleeping := by decide
    exact absurd hp (hall p)

theorem pages_boot : Pages boot.procs := by
  have hfirst : ∀ p, p ≠ initproc → (boot.procs.table p).pages = [] := by decide
  have hzero : ∀ p, p ≠ initproc → (boot.procs.table p).state = .unused ∧ (boot.procs.table p).kstack = none := by
    decide
  have hmem : ∀ {p x}, x ∈ (boot.procs.table p).pages → p = initproc := by
    intro p x hx
    by_contra hp
    rw [hfirst p hp] at hx
    cases hx
  refine ⟨⟨?_,nofun,?_,?_,fun _ _ _ => nofun,List.nodup_nil⟩,?_,?_⟩
  · decide
  · exact fun i j x hi hj => (hmem hi).trans (hmem hj).symm
  · decide
  · intro p
    by_cases hp : p = initproc
    · subst hp
      exact ⟨rfl,rfl⟩
    · obtain ⟨hstate,hstack⟩ := hzero p hp
      rw [Equipped,hstate]
      exact hstack
  · rintro p np ⟨⟩

theorem accounts_boot : Accounts boot.procs := by
  refine ⟨fun p => ?_,nofun⟩
  have hall : ∀ p, (boot.procs.table p).state ≠ .zombie := by decide
  rw [pending_of_ne (hall p)]
  rfl

theorem accounts_run {t : List Action} {s : Sys} (h : Run Step boot t s) :
    Family s.procs ∧ Pages s.procs ∧ Accounts s.procs := by
  refine Run.invariant (I := fun _ s => Family s.procs ∧ Pages s.procs ∧ Accounts s.procs)
    ⟨family_boot,pages_boot,accounts_boot⟩ ?_ h
  rintro t u a v hrun ⟨hfam,hpages,hacc⟩ hstep
  obtain ⟨hm,hf⟩ := machine_run hrun
  have hc := (hm.step hf hstep).change
  exact ⟨hfam.change hf hc,hpages.change hfam hf hc,hacc.change hpages hf hc⟩

/-- Parents have not exited. Every exit in a slot is matched by one later call of `wait`, made by
the parent, which alone frees the pages of the process, or is still pending with its pages in
place. A `wait` call of a process with a child that has exited returns such a child, and frees its
slot and its pages. A process that sleeps in `wait` has a child, none that has exited, and is not
killed. -/
theorem exit_wait {t : List Action} {s : Sys} (h : Run Step boot t s) :
    (∀ p r, (s.procs.table p).parent = some r →
      (s.procs.table r).state ≠ .unused ∧ (s.procs.table r).state ≠ .zombie) ∧
    (∀ p, s.procs.exitsOf p = (s.procs.reapsOf p).map Reaped.exited ++ s.procs.pending p) ∧
    (∀ r ∈ s.procs.reaps, r.parent = some r.caller ∧
      ∃ k d, r.exited.kstack = some k ∧ r.exited.pgdir = some d ∧ r.frees = [k,d]) ∧
    s.procs.frees.Nodup ∧
    (∀ p, ∀ e ∈ s.procs.pending p, ∃ k d, e.kstack = some k ∧ e.pgdir = some d ∧ k ∉ s.procs.frees ∧
      d ∉ s.procs.frees) ∧
    (∀ c p, s.mode c = .locked .wait → s.proc c = some p →
      (∃ q, (s.procs.table q).parent = some p ∧ (s.procs.table q).state = .zombie) →
      ∃ q k d s', (s.procs.table q).parent = some p ∧ (s.procs.table q).state = .zombie ∧
        (s.procs.table q).kstack = some k ∧ (s.procs.table q).pgdir = some d ∧ Step s (.step c) s' ∧
        s'.mode c = .running ∧ (s'.procs.table q).state = .unused ∧
        s'.procs.reaps = s.procs.reaps ++ [⟨exitedAs q (s.procs.table q),p,some p,[k,d]⟩]) ∧
    (s.lock = none → ∀ p, (s.procs.table p).state = .sleeping → s.procs.resume p = .wait →
      (∃ q, (s.procs.table q).parent = some p) ∧
      (∀ q, (s.procs.table q).parent = some p → (s.procs.table q).state ≠ .zombie) ∧
      (s.procs.table p).killed = false) := by
  obtain ⟨hfam,hpages,hacc⟩ := accounts_run h
  refine ⟨?_,hacc.matched,hacc.reaped,hpages.tokens.once,?_,?_,?_⟩
  · intro p r hp
    have hr := hfam.parent p r hp
    refine ⟨fun hu => ?_,fun hz => ?_⟩
    · rw [hu] at hr
      cases hr
    · rw [hz] at hr
      cases hr
  · intro p e he
    rw [Procs.pending] at he
    split at he
    · rename_i hz
      cases List.mem_singleton.mp he
      obtain ⟨k,d,hk,hd⟩ := hpages.zombie hz
      have hheld : (s.procs.table p).pages = [k,d] := by
        simp [Proc.pages,Proc.mapped,hz,ProcState.kind,hk,hd]
      exact ⟨k,d,hk,hd,hpages.tokens.kept p k (by simp [hheld]),hpages.tokens.kept p d (by simp [hheld])⟩
    · cases he
  · rintro c p hmode hproc ⟨q,hparent,hz⟩
    obtain ⟨q,hq,hqz,hwait⟩ := wait_zombie hparent hz
    obtain ⟨k,d,hk,hd⟩ := hpages.zombie hqz
    refine ⟨q,k,d,s.go c .running none (reap s.procs p q),hq,hqz,hk,hd,?_,?_,?_,?_⟩
    · simp only [Step,next,stepOf,hmode,hproc,perform,hwait]
    · simp [Sys.go]
    · simp [Sys.go,reap,Procs.set]
    · simp [Sys.go,reap,hk,hd,hq]
  · intro _ p hp hw
    obtain ⟨-,hk,hkid,hz⟩ := hfam.waits p hp hw
    exact ⟨hkid,hz,hk⟩

/-- The first process forks on CPU 0, its child exits on CPU 1, which then finds no other process,
and the first process calls `wait`. -/
def forkExitWait : List Action :=
  [.step 0,.step 0,.step 0,.step 0,.call 0 .allocproc,.step 0,.build 0 true,.build 0 true,.call 0 (.ready 1),.step 0,
    .step 1,.step 1,.step 1,.step 1,.step 1,.call 1 .exit] ++ List.replicate 65 (.step 1) ++ [.call 0 .wait]

theorem exit_wait_forkExitWait : ∃ s s', Run Step boot forkExitWait s ∧ Step s (.step 0) s' ∧
    s.procs.exits = [⟨1,2,some 2,some 3⟩] ∧ s.procs.reaps = [] ∧
    s'.procs.reaps = [⟨⟨1,2,some 2,some 3⟩,initproc,some initproc,[2,3]⟩] ∧ (s'.procs.table 1).state = .unused := by
  obtain ⟨s,hs,hend⟩ : ∃ s, forkExitWait.foldlM next boot = some s ∧ (decide (s.mode 0 = .locked .wait) &&
      decide (s.proc 0 = some initproc) && decide ((s.procs.table 1).parent = some initproc) &&
      decide ((s.procs.table 1).state = .zombie) && decide (s.procs.exits = [⟨1,2,some 2,some 3⟩]) &&
      decide (s.procs.reaps = [])) = true := by
    rw [← Option.any_eq_true]
    decide +kernel
  simp only [Bool.and_eq_true,decide_eq_true_eq,and_assoc] at hend
  obtain ⟨hmode,hproc,hparent,hzombie,hexits,hreaps⟩ := hend
  have hrun := Run.of_foldlM hs
  obtain ⟨-,hmatched,-,-,-,hwait,-⟩ := exit_wait hrun
  obtain ⟨q,k,d,s',-,hz,hk,hd,hstep,-,hunused,hreaped⟩ := hwait 0 initproc hmode hproc ⟨1,hparent,hzombie⟩
  -- only one process has exited, so it is the one that is returned
  have hexited : exitedAs q (s.procs.table q) = ⟨1,2,some 2,some 3⟩ := by
    have hmem : exitedAs q (s.procs.table q) ∈ s.procs.exitsOf q := by simp [hmatched q,Procs.pending,hz]
    simpa [hexits] using List.mem_of_mem_filter hmem
  have hk' := congrArg Exited.kstack hexited
  have hd' := congrArg Exited.pgdir hexited
  cases (congrArg Exited.slot hexited : q = 1)
  cases (hk.symm.trans hk' : some k = some 2)
  cases (hd.symm.trans hd' : some d = some 3)
  refine ⟨s,s',hrun,hstep,hexits,hreaps,?_,hunused⟩
  rw [hreaped,hreaps,hexited]
  rfl

end Runs

end Xv6.Ptable
