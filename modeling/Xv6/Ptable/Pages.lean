import Xv6.Library.Tokens
import Xv6.Ptable.Families

/-! # Kernel stacks and page directories

Each page that `fork` allocates for a process is with that process until a failed `fork`
or a `wait` frees it, once. The pointers left behind in an unused entry do not count.
-/
namespace Xv6.Ptable
open Function
variable {s s' : Procs} {p q r np : Slot} {victim : Option PidNum}

section Invariant

def ProcState.kind : ProcState → ProcState
  | .unused => .unused
  | .embryo => .embryo
  | _ => .running

def Proc.mapped (x : Proc) : Bool :=
  match x.state.kind with
  | .unused => false
  | .embryo => x.parent.isSome
  | _ => true

def Proc.pages (x : Proc) : List Page := x.kstack.toList ++ if x.mapped then x.pgdir.toList else []

def Procs.frees (s : Procs) : List Page := s.forkFrees ++ s.reaps.flatMap Reaped.frees

def Built (x : Proc) : Stage → Prop
  | .user => True
  | .allocated _ => x.kstack = none ∧ x.parent = none
  | .stacked _ => x.kstack.isSome ∧ x.parent = none
  | .copied _ => x.kstack.isSome ∧ x.pgdir.isSome ∧ x.parent.isSome

def Equipped (x : Proc) : Prop :=
  match x.state.kind with
  | .unused => x.kstack = none
  | .embryo => True
  | _ => x.kstack.isSome ∧ x.pgdir.isSome

structure Pages (s : Procs) : Prop where
  tokens : Tokens s.allocs (fun p => (s.table p).pages) s.frees
  equipped : ∀ p, Equipped (s.table p)
  built : ∀ p np, (s.stage p).target = some np → Built (s.table np) (s.stage p)

structure Alike (x y : Proc) : Prop where
  kind : y.state.kind = x.state.kind
  kstack : y.kstack = x.kstack
  pgdir : y.pgdir = x.pgdir
  parent : y.parent.isSome = x.parent.isSome

theorem Alike.refl (x : Proc) : Alike x x := ⟨rfl,rfl,rfl,rfl⟩

theorem Alike.pages {x y : Proc} (h : Alike x y) : y.pages = x.pages := by
  have hmapped : y.mapped = x.mapped := by
    rw [Proc.mapped,Proc.mapped,h.kind,h.parent]
  rw [Proc.pages,Proc.pages,hmapped,h.kstack,h.pgdir]

theorem Alike.equipped {x y : Proc} (h : Alike x y) (hx : Equipped x) : Equipped y := by
  rw [Equipped,h.kind,h.kstack,h.pgdir]
  exact hx

theorem Alike.built {x y : Proc} {st : Stage} (h : Alike x y) (hx : Built x st) : Built y st := by
  have hnone : x.parent = none → y.parent = none := by
    intro hx
    have hp := h.parent
    rw [hx] at hp
    exact Option.isSome_eq_false_iff.mp hp |> Option.isNone_iff_eq_none.mp
  cases st with
  | user => trivial
  | allocated np => exact ⟨h.kstack.trans hx.1,hnone hx.2⟩
  | stacked np => exact ⟨h.kstack ▸ hx.1,hnone hx.2⟩
  | copied np => exact ⟨h.kstack ▸ hx.1,h.pgdir ▸ hx.2.1,h.parent.trans hx.2.2⟩

theorem Stirred.kind {x y : ProcState} (h : Stirred x y) : y.kind = x.kind := by
  rcases h with rfl | ⟨rfl,rfl⟩
  · rfl
  · rfl

theorem Pages.keep (h : Pages s) (halike : ∀ q, Alike (s.table q) (s'.table q)) (hstage : s'.stage = s.stage)
    (hallocs : s'.allocs = s.allocs) (hfrees : s'.frees = s.frees) : Pages s' := by
  refine ⟨?_,?_,?_⟩
  · rw [hallocs,hfrees]
    exact h.tokens.congr (fun q => (halike q).pages) (List.Perm.refl _)
  · exact fun q => (halike q).equipped (h.equipped q)
  · intro p np hp
    rw [hstage] at hp ⊢
    exact (halike np).built (h.built p np hp)

theorem Pages.own {x : Proc} (h : Pages s) (htable : s'.table = Function.update s.table p x) (hx : Alike (s.table p) x)
    (hstage : s'.stage = s.stage) (hallocs : s'.allocs = s.allocs) (hfrees : s'.frees = s.frees) : Pages s' := by
  refine h.keep (fun q => ?_) hstage hallocs hfrees
  rw [htable]
  by_cases hq : q = p
  · subst hq
    rw [update_self]
    exact hx
  · rw [update_of_ne hq]
    exact Alike.refl _

theorem Pages.set {x : Proc} (h : Pages s) (htable : s'.table = Function.update s.table q x)
    (htokens : Tokens s'.allocs (fun p => (s'.table p).pages) s'.frees) (hx : Equipped x)
    (hstage : ∀ r, s'.stage r = s.stage r ∧ (s.stage r).target ≠ some q ∨
      ∀ np, (s'.stage r).target = some np → np = q ∧ Built x (s'.stage r)) : Pages s' := by
  have hself : s'.table q = x := by
    rw [htable,update_self]
  have hstate : ∀ r, r ≠ q → s'.table r = s.table r := by
    intro r hr
    rw [htable,update_of_ne hr]
  refine ⟨htokens,?_,?_⟩
  · intro r
    by_cases hr : r = q
    · rw [hr,hself]
      exact hx
    · rw [hstate r hr]
      exact h.equipped r
  · intro r np hr
    rcases hstage r with ⟨hsame,hne⟩ | hbuilt
    · rw [hsame] at hr ⊢
      have hnp : np ≠ q := by
        rintro rfl
        exact hne hr
      rw [hstate np hnp]
      exact h.built r np hr
    · obtain ⟨rfl,hb⟩ := hbuilt np hr
      rw [hself]
      exact hb

end Invariant

section Steps

theorem Pages.exit (h : Pages s) (hp : (s.table p).state = .running) (hinit : p ≠ initproc) : Pages (exit s p) := by
  refine h.keep (fun q => ⟨?_,(exit_same q).2.1,(exit_same q).2.2,?_⟩) rfl rfl rfl
  · by_cases hq : q = p
    · subst hq
      rw [exit_self,hp]
      rfl
    · exact (woken_exit hq).state.kind
  · rw [exit_parent hinit]
    split
    · rename_i hq
      rw [hq]
      rfl
    · rfl

theorem Forks.target (hf : Forks s) (hp : (s.stage p).target = some np) {st : Stage} (x : Proc)
    (hst : ∀ r, st.target = some r → r = np ∧ Built x st) (r : Slot) :
    Function.update s.stage p st r = s.stage r ∧ (s.stage r).target ≠ some np ∨
      ∀ q, (Function.update s.stage p st r).target = some q → q = np ∧ Built x (Function.update s.stage p st r) := by
  by_cases hr : r = p
  · subst hr
    rw [update_self]
    exact .inr hst
  · rw [update_of_ne hr]
    exact .inl ⟨rfl,fun hc => hr (hf.unique r p np hc hp)⟩

theorem Pages.reap (h : Pages s) (hf : Forks s) (hz : (s.table q).state = .zombie) : Pages (reap s p q) := by
  have hpages : (s.table q).pages = (s.table q).kstack.toList ++ (s.table q).pgdir.toList := by
    simp [Proc.pages,Proc.mapped,hz,ProcState.kind]
  refine h.set rfl ?_ rfl ?_
  · refine h.tokens.drop (i := q) ?_ ?_ ?_
    · simp [Ptable.reap,Proc.pages,Proc.mapped,ProcState.kind]
    · intro r hr
      exact congrArg Proc.pages (set_of_ne hr)
    · simp [Procs.frees,Ptable.reap,Procs.set,hpages]
  · intro r
    refine .inl ⟨rfl,fun hr => ?_⟩
    rw [hf.embryo r q hr] at hz
    cases hz

theorem Pages.allocproc (h : Pages s) (hfam : Family s) (hf : Forks s) : Pages (allocproc s p) := by
  rcases allocproc_cases s p with hs | ⟨np,hnp,hs⟩
  · rw [hs]
    exact h
  · rw [hs]
    have hstack : (s.table np).kstack = none := by
      have := h.equipped np
      rw [Equipped,hnp] at this
      exact this
    have hparent := hfam.orphan np hnp
    refine h.set rfl ?_ trivial ?_
    · refine h.tokens.congr (fun q => ?_) (List.Perm.refl _)
      by_cases hq : q = np
      · subst hq
        simp [Proc.pages,Proc.mapped,hnp,ProcState.kind,hstack,hparent]
      · exact congrArg Proc.pages (set_of_ne hq)
    · intro r
      by_cases hr : r = p
      · subst hr
        refine .inr fun q hq => ?_
        simp only [update_self] at hq ⊢
        cases hq
        exact ⟨rfl,hstack,hparent⟩
      · refine .inl ⟨update_of_ne hr ..,fun hc => ?_⟩
        rw [hf.embryo r np hc] at hnp
        cases hnp

theorem Pages.allocstack (h : Pages s) (hf : Forks s) (hst : s.stage p = .allocated np) (ok : Bool) :
    Pages (allocstack s p np ok) := by
  have hp : (s.stage p).target = some np := by
    rw [hst]
    rfl
  have hnp := hf.embryo p np hp
  obtain ⟨hstack,hparent⟩ : (s.table np).kstack = none ∧ (s.table np).parent = none := by
    have := h.built p np hp
    rw [hst] at this
    exact this
  cases ok with
  | true =>
    refine h.set rfl ?_ ?_ (hf.target hp _ ?_)
    · refine h.tokens.take (i := np) ?_ ?_
      · simp [Ptable.allocstack,Proc.pages,Proc.mapped,hnp,ProcState.kind,hstack,hparent]
      · exact fun q hq => congrArg Proc.pages (set_of_ne hq)
    · rw [Equipped,hnp]
      trivial
    · rintro r hr
      cases hr
      exact ⟨rfl,rfl,hparent⟩
  | false =>
    refine h.set rfl ?_ rfl (hf.target hp _ (by simp [Stage.target]))
    refine h.tokens.congr (fun q => ?_) (List.Perm.refl _)
    by_cases hq : q = np
    · subst hq
      simp [Ptable.allocstack,Proc.pages,Proc.mapped,hnp,ProcState.kind,hstack,hparent]
    · exact congrArg Proc.pages (set_of_ne hq)

theorem Pages.copyproc (h : Pages s) (hf : Forks s) (hst : s.stage p = .stacked np) (ok : Bool) :
    Pages (copyproc s p np ok) := by
  have hp : (s.stage p).target = some np := by
    rw [hst]
    rfl
  have hnp := hf.embryo p np hp
  obtain ⟨hstack,hparent⟩ : (s.table np).kstack.isSome ∧ (s.table np).parent = none := by
    have := h.built p np hp
    rw [hst] at this
    exact this
  have hpages : (s.table np).pages = (s.table np).kstack.toList := by
    simp [Proc.pages,Proc.mapped,hnp,ProcState.kind,hparent]
  cases ok with
  | true =>
    refine h.set rfl ?_ ?_ (hf.target hp _ ?_)
    · refine h.tokens.take (i := np) ?_ ?_
      · rw [hpages]
        simp [Ptable.copyproc,Proc.pages,Proc.mapped,hnp,ProcState.kind]
      · exact fun q hq => congrArg Proc.pages (set_of_ne hq)
    · rw [Equipped,hnp]
      trivial
    · rintro r hr
      cases hr
      exact ⟨rfl,hstack,rfl,rfl⟩
  | false =>
    refine h.set rfl ?_ rfl (hf.target hp _ (by simp [Stage.target]))
    refine h.tokens.drop (i := np) ?_ ?_ ?_
    · simp [Ptable.copyproc,Proc.pages,Proc.mapped,ProcState.kind]
    · exact fun q hq => congrArg Proc.pages (set_of_ne hq)
    · rw [hpages]
      change (s.forkFrees ++ (s.table np).kstack.toList ++ s.reaps.flatMap Reaped.frees).Perm
        (s.forkFrees ++ s.reaps.flatMap Reaped.frees ++ (s.table np).kstack.toList)
      rw [List.append_assoc,List.append_assoc]
      exact (List.perm_append_comm).append_left _

theorem Pages.ready (h : Pages s) (hf : Forks s) (hst : s.stage p = .copied np) : Pages (ready s p np) := by
  have hp : (s.stage p).target = some np := by
    rw [hst]
    rfl
  have hnp := hf.embryo p np hp
  obtain ⟨hstack,hpgdir,hparent⟩ :
      (s.table np).kstack.isSome ∧ (s.table np).pgdir.isSome ∧ (s.table np).parent.isSome := by
    have := h.built p np hp
    rw [hst] at this
    exact this
  refine h.set rfl ?_ ⟨hstack,hpgdir⟩ (hf.target hp _ (by simp [Stage.target]))
  refine h.tokens.congr (fun q => ?_) (List.Perm.refl _)
  by_cases hq : q = np
  · subst hq
    simp [Ptable.ready,Proc.pages,Proc.mapped,hnp,ProcState.kind,hparent]
  · exact congrArg Proc.pages (set_of_ne hq)

theorem Pages.change (h : Pages s) (hfam : Family s) (hf : Forks s) (hc : Change s victim s') : Pages s' := by
  have hrunning : ∀ {x : ProcState}, x = .running → x.kind = .running := fun hx => by rw [hx]; rfl
  cases hc with
  | same => exact h
  | dispatch p hp => exact h.own rfl ⟨by rw [hp]; rfl,rfl,rfl,rfl⟩ rfl rfl rfl
  | tidy p hp => exact h.own rfl ⟨rfl,rfl,rfl,rfl⟩ rfl rfl rfl
  | yield p hp => exact h.own rfl ⟨(hrunning hp).symm,rfl,rfl,rfl⟩ rfl rfl rfl
  | sleep p chan hp => exact h.own rfl ⟨(hrunning hp).symm,rfl,rfl,rfl⟩ rfl rfl rfl
  | exit p hp huser hinit => exact h.exit hp hinit
  | wait p hp =>
    rcases wait_cases s p with ⟨q,-,hz,hw⟩ | hw | ⟨-,-,-,hw⟩
    · rw [hw]
      exact h.reap hf hz
    · rw [hw]
      exact h
    · rw [hw]
      exact h.own rfl ⟨(hrunning hp).symm,rfl,rfl,rfl⟩ rfl rfl rfl
  | kill pid hpid =>
    refine h.keep (fun q => ?_) rfl rfl rfl
    have hkind := (kill_state s.table pid q).kind
    rcases kill_entry s.table pid q with hq | hq
    · simp only [hq]
      exact Alike.refl _
    · simp only [hq] at hkind ⊢
      exact ⟨hkind,rfl,rfl,rfl⟩
  | wakeup chan =>
    refine h.keep (fun q => ?_) rfl rfl rfl
    have hw := woken_wakeup1 s.table chan q
    exact ⟨hw.state.kind,hw.kstack,hw.pgdir,congrArg Option.isSome (wakeup1_parent ..)⟩
  | allocproc p hp huser => exact h.allocproc hfam hf
  | allocstack p np ok hp hst => exact h.allocstack hf hst ok
  | copyproc p np ok hp hst => exact h.copyproc hf hst ok
  | ready p np hp hst => exact h.ready hf hst

end Steps

end Xv6.Ptable
