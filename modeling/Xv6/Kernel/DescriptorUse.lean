import Xv6.Kernel.Descriptors
import Xv6.Library.Runs

/-! # Uses of descriptors

Through a whole run the descriptor of a mapping stands for the file that the mapping was
made for exactly as long as the process keeps to the rules. The exit of the process is
followed through the loop that unmaps the mappings of the first slot.
-/
namespace Xv6.Kernel
open Wmap Program Runs

section Runs
variable {w₀ w w' : World} {cs : List Act}

theorem run_valid (hI : w₀.Inv) (hV : w₀.Valid)
    (h : Run (fun w c w' => w.next c = some w' ∧ w'.Valid) w₀ cs w) : w.Inv ∧ w.Valid := by
  refine Run.invariant (I := fun _ w => w.Inv ∧ w.Valid) ⟨hI,hV⟩ (fun _ u c v _ hu hstep => ?_) h
  exact ⟨(step_valid hu.1 hu.2 hstep.1).1,hstep.2⟩

/-- A run stays valid if and only if all its steps keep to the rules. -/
theorem run_valid_iff (hI : w₀.Inv) (hV : w₀.Valid) :
    Run (fun w c w' => w.next c = some w' ∧ w.Meets c) w₀ cs w ↔
      Run (fun w c w' => w.next c = some w' ∧ w'.Valid) w₀ cs w := by
  constructor
  · intro h
    induction h with
    | nil => exact .nil
    | snoc _ hstep ih =>
      obtain ⟨hI',hV'⟩ := run_valid hI hV ih
      exact ih.snoc ⟨hstep.1,(step_valid hI' hV' hstep.1).2.mpr hstep.2⟩
  · intro h
    induction h with
    | nil => exact .nil
    | snoc hrun hstep ih =>
      obtain ⟨hI',hV'⟩ := run_valid hI hV hrun
      exact ih.snoc ⟨hstep.1,(step_valid hI' hV' hstep.1).2.mp hstep.2⟩

/-- A round step is a round of the loop of `sys_exit`. -/
theorem next_round {p : Ptr} (hp : w.leaving = some (some p)) : w.next .round = some w' ↔
    ∃ r s, wunmap (w.ctx.tab.deref p).startAddress w.ctx = .ok r s ∧
      w' = ⟨s,w.taken,moved w.ctx.tab (w.ctx.tab.deref p).startAddress w.origin,some ((w.ctx.tab.deref p).next.map .pool)⟩ := by
  have hbody : w.next .round = (w.unmap (w.ctx.tab.deref p).startAddress).map fun w' =>
      { w' with leaving := some ((w.ctx.tab.deref p).next.map .pool) } := by
    unfold World.next
    rw [hp]
  rw [hbody,World.unmap]
  constructor
  · intro h
    split at h
    · rename_i r s hrun
      cases h
      exact ⟨r,s,hrun,rfl⟩
    · cases h
  · rintro ⟨r,s,hrun,rfl⟩
    rw [hrun]
    rfl

theorem unmapLoop_succ {p : Ptr} {n : ℕ} {r : Word} {s u : Ctx} (h : wunmap (u.tab.deref p).startAddress u = .ok r s) :
    unmapLoop (n+1) (some p) u = unmapLoop n ((u.tab.deref p).next.map .pool) s := by
  rw [unmapLoop,get_bind_apply,bind_of_ok h]

/-- After `m` rounds the loop goes on from where they have come to. -/
theorem unmapLoop_rounds {p : Option Ptr} {m : ℕ} (hp : w.leaving = some p)
    (h : Run (fun w c w' => w.next c = some w') w (List.replicate m .round) w') :
    ∃ q, w'.leaving = some q ∧ ∀ n, unmapLoop (m+n) p w.ctx = unmapLoop n q w'.ctx := by
  induction m generalizing w' with
  | zero =>
    obtain rfl := h.nil_eq
    exact ⟨p,hp,fun n => by rw [Nat.zero_add]⟩
  | succ m ih =>
    rw [List.replicate_succ'] at h
    obtain ⟨u,hrun,hlast⟩ := h.last
    obtain ⟨q,hq,hloop⟩ := ih hrun
    cases q with
    | none =>
      unfold World.next at hlast
      rw [hq] at hlast
      cases hlast
    | some q =>
      obtain ⟨r,s,hunmap,rfl⟩ := (next_round hq).mp hlast
      refine ⟨_,rfl,fun n => ?_⟩
      rw [Nat.add_assoc,Nat.add_comm 1 n,hloop,unmapLoop_succ hunmap]

/-- Where the loop returns, the rounds come to the end of the list. -/
theorem exists_rounds {p : Option Ptr} {n : ℕ} {s : Ctx} (hp : w.leaving = some p) (h : unmapLoop n p w.ctx = .ok () s) :
    ∃ m w', Run (fun w c w' => w.next c = some w') w (List.replicate m .round) w' ∧ w'.leaving = some none ∧ w'.ctx = s := by
  induction n generalizing w p with
  | zero =>
    cases p with
    | none =>
      cases h
      exact ⟨0,w,.nil,hp,rfl⟩
    | some p => cases h
  | succ n ih =>
    cases p with
    | none =>
      cases h
      exact ⟨0,w,.nil,hp,rfl⟩
    | some p =>
      obtain ⟨_,u,hget,h1⟩ := bind_eq_ok.mp h
      cases hget
      obtain ⟨r,u,hunmap,h2⟩ := bind_eq_ok.mp h1
      have hstep := (next_round hp).mpr ⟨r,u,hunmap,rfl⟩
      obtain ⟨m,w',hrun,hend⟩ := ih (w := ⟨u,_,_,_⟩) rfl h2
      exact ⟨m+1,w',.cons hstep hrun,hend⟩

/-- A state on the way through a call, after page faults. -/
structure Amid (s u : Ctx) : Prop where
  keeps : Keeps s u
  bumps : Bumps s.tab u.tab

/-- The descriptor of the mapping is open, for the file that the mapping was made for. -/
structure World.Refers (w : World) (u : Ctx) (p : Ptr) : Prop where
  range : (u.tab.entry p).fd.toNat < NOFILE
  file : ∃ k, u.cur.ofile ⟨(u.tab.entry p).fd.toNat,range⟩ = some k ∧ w.origin p = some (k,w.taken k)

theorem World.Valid.refers {u : Ctx} {x : Word} {p : Ptr} (hI : w.Inv) (hV : w.Valid) (hu : Amid w.ctx u)
    (hinit : u.tab.hashInit ≠ -1) (hp : pageInMappings u.tab x = .ok (some p)) (hfile : OfFile (u.tab.entry p)) :
    w.Refers u p := by
  have hsame := bumps_sameFiles hu.bumps
  have hlive := (pageInMappings_mem (hsame.retouched.wf hI.wf) hp).1
  obtain ⟨file,h1,h2⟩ := hsame.validOn.mpr hV hinit p hlive hfile
  obtain ⟨k,hk,rfl⟩ := Option.map_eq_some_iff.mp h1
  rw [← hu.keeps.opened] at hk
  unfold opened at hk
  split at hk
  · rename_i hlt
    exact ⟨hlt,k,hk,h2⟩
  · cases hk

/-- Through a run that keeps to the rules, and only through such a run, the descriptors of mappings
stay valid: whenever a page fault or an unmapping finds a file mapping, on the way through a call
too, its descriptor stands for the file that the mapping was made for. -/
theorem descriptors_valid (w₀ w : World) (cs : List Act) (hI : w₀.Inv) (hV : w₀.Valid) :
    (Run (fun w c w' => w.next c = some w' ∧ w.Meets c) w₀ cs w ↔
      Run (fun w c w' => w.next c = some w' ∧ w'.Valid) w₀ cs w) ∧
    (Run (fun w c w' => w.next c = some w' ∧ w.Meets c) w₀ cs w → ∀ u x p, Amid w.ctx u →
      u.tab.hashInit ≠ -1 → pageInMappings u.tab x = .ok (some p) → OfFile (u.tab.entry p) → w.Refers u p) := by
  refine ⟨run_valid_iff hI hV,fun h u x p hu hinit hp hfile => ?_⟩
  obtain ⟨hI',hV'⟩ := run_valid hI hV ((run_valid_iff hI hV).mp h)
  exact hV'.refers hI' hu hinit hp hfile

def freshWorld : World := ⟨firstCtx,fun _ => 0,fun _ => none,none⟩

theorem freshWorld_inv : freshWorld.Inv := by
  refine ⟨wf_of_unlinked fun _ => rfl,fun k => ?_,fun hinit => absurd rfl hinit⟩
  rw [Finset.card_eq_zero.mpr]
  · exact Nat.zero_le _
  · exact Finset.filter_eq_empty_iff.mpr fun _ _ => nofun

theorem freshWorld_valid : freshWorld.Valid := fun hinit => absurd rfl hinit

/-- What the lookup for `MMAPBASE` finds after some calls, and whether its descriptor is open. -/
theorem exists_world (cs : List Act) (b : Bool) (h : ((cs.foldlM World.next freshWorld).map fun w =>
    decide (w.ctx.tab.hashInit ≠ -1 ∧ pageInMappings w.ctx.tab MMAPBASE = .ok (some (.slot 7)) ∧
      OfFile (w.ctx.tab.entry (.slot 7)) ∧ (opened w.ctx (w.ctx.tab.entry (.slot 7)).fd).isSome = b)) = some true) :
    ∃ w, cs.foldlM World.next freshWorld = some w ∧ w.ctx.tab.hashInit ≠ -1 ∧
      pageInMappings w.ctx.tab MMAPBASE = .ok (some (.slot 7)) ∧ OfFile (w.ctx.tab.entry (.slot 7)) ∧
      (opened w.ctx (w.ctx.tab.entry (.slot 7)).fd).isSome = b := by
  obtain ⟨w,hw,hchecks⟩ := Option.map_eq_some_iff.mp h
  exact ⟨w,hw,of_decide_eq_true hchecks⟩

theorem descriptors_valid_opened : ∃ w, Run (fun w c w' => w.next c = some w' ∧ w.Meets c) freshWorld
    [.openFile (some 5) O_RDWR,.wmap MMAPBASE 8192 9 0] w ∧ OfFile (w.ctx.tab.entry (.slot 7)) ∧
    w.Refers w.ctx (.slot 7) := by
  obtain ⟨w,hw,hinit,hfound,hfile,-⟩ := exists_world
    [.openFile (some 5) O_RDWR,.wmap MMAPBASE 8192 9 0] true (by decide +kernel)
  rw [List.foldlM_cons] at hw
  obtain ⟨w₁,h1,h2⟩ := Option.bind_eq_some_iff.mp hw
  rw [List.foldlM_cons] at h2
  have hopen : ((freshWorld.next (.openFile (some 5) O_RDWR)).map fun w => (opened w.ctx 0).isSome) = some true := by
    decide +kernel
  rw [h1,Option.map_some,Option.some.injEq] at hopen
  have hrun : Run (fun w c w' => w.next c = some w' ∧ w.Meets c) freshWorld
      [.openFile (some 5) O_RDWR,.wmap MMAPBASE 8192 9 0] w := by
    refine .cons ⟨h1,trivial⟩ (.cons ⟨?_,fun _ _ => Option.isSome_iff_ne_none.mp hopen⟩ .nil)
    obtain ⟨w₂,h3,h4⟩ := Option.bind_eq_some_iff.mp h2
    cases h4
    exact h3
  have hamid : Amid w.ctx w.ctx := ⟨.refl _,.refl⟩
  exact ⟨w,hrun,hfile,(descriptors_valid _ w _ freshWorld_inv freshWorld_valid).2 hrun _ MMAPBASE _ hamid hinit hfound hfile⟩

/-- After `close` the descriptor of a mapping stands for nothing. -/
theorem descriptor_closed : ∃ w, Run (fun w c w' => w.next c = some w') freshWorld
    [.openFile (some 5) O_RDWR,.wmap MMAPBASE 8192 9 0,.close 0] w ∧ w.ctx.tab.hashInit ≠ -1 ∧
    pageInMappings w.ctx.tab MMAPBASE = .ok (some (.slot 7)) ∧ OfFile (w.ctx.tab.entry (.slot 7)) ∧
    ¬ w.Refers w.ctx (.slot 7) := by
  obtain ⟨w,hw,hinit,hfound,hfile,hopen⟩ := exists_world
    [.openFile (some 5) O_RDWR,.wmap MMAPBASE 8192 9 0,.close 0] false (by decide +kernel)
  refine ⟨w,Run.of_foldlM hw,hinit,hfound,hfile,fun href => ?_⟩
  obtain ⟨k,hk,-⟩ := href.file
  rw [opened,dif_pos href.range,hk] at hopen
  cases hopen

end Runs
end Xv6.Kernel
