import Xv6.Ptable.Table

/-! # The critical sections

What the loops of `wakeup1`, `exit`, `wait`, `kill` and `allocproc` do to the entries of
the process table.
-/
namespace Xv6.Ptable
open Function
variable {s : Procs} {p q r : Slot} {t : Table}

section Entries

@[simp] theorem set_self {x : Proc} : (s.set p x).table p = x := update_self ..

@[simp] theorem set_of_ne {x : Proc} (h : q ≠ p) : (s.set p x).table q = s.table q := update_of_ne h ..

def ProcState.active : ProcState → Bool
  | .sleeping => true
  | .runnable => true
  | .running => true
  | _ => false

def Stirred (x y : ProcState) : Prop := y = x ∨ x = .sleeping ∧ y = .runnable

theorem Stirred.active {x y : ProcState} (h : Stirred x y) : y.active = x.active := by
  rcases h with rfl | ⟨rfl,rfl⟩
  · rfl
  · rfl

theorem Stirred.eq_of_ne {x y : ProcState} (h : Stirred x y) (hx : x ≠ .sleeping) : y = x :=
  h.resolve_right fun hs => hx hs.1

structure Woken (x y : Proc) : Prop where
  state : Stirred x.state y.state
  pid : y.pid = x.pid
  chan : y.chan = x.chan
  killed : y.killed = x.killed
  kstack : y.kstack = x.kstack
  pgdir : y.pgdir = x.pgdir

theorem Woken.refl (x : Proc) : Woken x x := ⟨.inl rfl,rfl,rfl,rfl,rfl,rfl⟩

theorem Woken.trans {x y z : Proc} (h : Woken x y) (h' : Woken y z) : Woken x z := by
  refine ⟨?_,h'.pid.trans h.pid,h'.chan.trans h.chan,h'.killed.trans h.killed,h'.kstack.trans h.kstack,
    h'.pgdir.trans h.pgdir⟩
  rcases h.state with hs | ⟨hs,hr⟩
  · rw [← hs]
    exact h'.state
  · refine .inr ⟨hs,?_⟩
    rcases h'.state with hs' | ⟨hs',-⟩
    · exact hs'.trans hr
    · rw [hr] at hs'
      cases hs'

theorem woken_wakeup1 (t : Table) (chan : Option Chan) (q : Slot) : Woken (t q) (wakeup1 t chan q) := by
  unfold wakeup1
  split
  · rename_i h
    exact ⟨.inr ⟨h.1,rfl⟩,rfl,rfl,rfl,rfl,rfl⟩
  · exact Woken.refl _

theorem wakeup1_parent (t : Table) (chan : Option Chan) (q : Slot) : (wakeup1 t chan q).parent = (t q).parent := by
  unfold wakeup1
  split
  · rfl
  · rfl

theorem wakeup1_chan {chan : Option Chan} (h : (wakeup1 t chan q).state = .sleeping) : (t q).chan ≠ chan := by
  intro hc
  unfold wakeup1 at h
  split at h
  · cases h
  · rename_i hn
    exact hn ⟨h,hc⟩

def passOn (t : Table) (p q : Slot) : Table :=
  if (t q).parent = some p then
    let t := Function.update t q { t q with parent := some initproc }
    if (t q).state = .zombie then wakeup1 t (pointer (some initproc)) else t
  else t

theorem reparent_cons (l : List Slot) : reparent t p (q :: l) = reparent (passOn t p q) p l := by
  rw [reparent,passOn]
  split
  · rfl
  · rfl

theorem woken_passOn (t : Table) (p q r : Slot) : Woken (t r) (passOn t p q r) := by
  have hupdate : Woken (t r) (update t q { t q with parent := some initproc } r) := by
    by_cases hr : r = q
    · subst hr
      rw [update_self]
      exact ⟨.inl rfl,rfl,rfl,rfl,rfl,rfl⟩
    · rw [update_of_ne hr]
      exact Woken.refl _
  unfold passOn
  split
  · simp only []
    split
    · exact hupdate.trans (woken_wakeup1 ..)
    · exact hupdate
  · exact Woken.refl _

theorem passOn_parent (t : Table) (p q r : Slot) :
    (passOn t p q r).parent = if r = q ∧ (t r).parent = some p then some initproc else (t r).parent := by
  have hupdate : (t q).parent = some p → (update t q { t q with parent := some initproc } r).parent =
      if r = q ∧ (t r).parent = some p then some initproc else (t r).parent := by
    intro hp
    by_cases hr : r = q
    · subst hr
      rw [update_self,if_pos ⟨rfl,hp⟩]
    · rw [update_of_ne hr,if_neg fun h => hr h.1]
  unfold passOn
  split
  · rename_i hp
    simp only []
    split
    · rw [wakeup1_parent]
      exact hupdate hp
    · exact hupdate hp
  · rename_i hp
    rw [if_neg]
    rintro ⟨rfl,h⟩
    exact hp h

theorem woken_reparent (t : Table) (p : Slot) (l : List Slot) (r : Slot) : Woken (t r) (reparent t p l r) := by
  induction l generalizing t with
  | nil => exact Woken.refl _
  | cons q l ih =>
    rw [reparent_cons]
    exact (woken_passOn t p q r).trans (ih _)

theorem reparent_parent (hp : p ≠ initproc) (t : Table) (l : List Slot) (r : Slot) :
    (reparent t p l r).parent = if r ∈ l ∧ (t r).parent = some p then some initproc else (t r).parent := by
  induction l generalizing t with
  | nil => simp [reparent]
  | cons q l ih =>
    rw [reparent_cons,ih,passOn_parent]
    by_cases hr : r = q
    · subst hr
      by_cases hc : (t r).parent = some p
      · simp [hc,Ne.symm hp]
      · simp [hc]
    · simp [hr]

/-- If a child that is passed on has exited, then `initproc` does not sleep for children. -/
theorem reparent_zombie {l : List Slot} (hq : q ∈ l) (hparent : (t q).parent = some p)
    (hzombie : (t q).state = .zombie) (hsleep : (reparent t p l r).state = .sleeping) :
    (t r).chan ≠ some (.proc initproc) := by
  induction l generalizing t with
  | nil => simp at hq
  | cons q' l ih =>
    rw [reparent_cons] at hsleep
    have hw := woken_passOn t p q'
    by_cases he : q = q'
    · subst he
      have hmid : (passOn t p q r).state = .sleeping := by
        rcases (woken_reparent (passOn t p q) p l r).state with hs | ⟨hs,-⟩
        · rw [← hs]
          exact hsleep
        · exact hs
      simp only [passOn,if_pos hparent,update_self,hzombie,if_true] at hmid
      have hne := wakeup1_chan hmid
      intro hc
      refine hne ?_
      by_cases hr : r = q
      · subst hr
        rw [update_self]
        exact hc
      · rw [update_of_ne hr]
        exact hc
    · have hmem : q ∈ l := (List.mem_cons.mp hq).resolve_left he
      rw [← (hw r).chan]
      refine ih hmem ?_ ?_ hsleep
      · rw [passOn_parent,if_neg fun h => he h.1]
        exact hparent
      · rw [(hw q).state.eq_of_ne (by rw [hzombie]; decide)]
        exact hzombie

theorem exit_table (hq : q ≠ p) : (exit s p).table q =
    reparent (wakeup1 s.table (pointer (s.table p).parent)) p (List.finRange NPROC) q := by
  simp [exit,hq]

theorem woken_exit (hq : q ≠ p) : Woken (s.table q) ((exit s p).table q) := by
  rw [exit_table hq]
  exact (woken_wakeup1 ..).trans (woken_reparent ..)

theorem exit_same (q : Slot) : ((exit s p).table q).pid = (s.table q).pid ∧
    ((exit s p).table q).kstack = (s.table q).kstack ∧ ((exit s p).table q).pgdir = (s.table q).pgdir := by
  have hw : Woken (s.table q) (reparent (wakeup1 s.table (pointer (s.table p).parent)) p (List.finRange NPROC) q) :=
    (woken_wakeup1 ..).trans (woken_reparent ..)
  by_cases hq : q = p
  · subst hq
    simp only [exit,update_self]
    exact ⟨hw.pid,hw.kstack,hw.pgdir⟩
  · rw [exit_table hq]
    exact ⟨hw.pid,hw.kstack,hw.pgdir⟩

theorem exit_self : ((exit s p).table p).state = .zombie := by
  simp [exit]

end Entries

section Loops

theorem first_some {f : Slot → Bool} (h : first f = some q) : f q = true := List.find?_some h

theorem first_none {f : Slot → Bool} (h : first f = none) (q : Slot) : f q = false := by
  have := List.find?_eq_none.mp h q (List.mem_finRange q)
  simpa using this

theorem allocproc_cases (s : Procs) (p : Slot) : allocproc s p = s ∨ ∃ np, (s.table np).state = .unused ∧
    allocproc s p = { s.set np { s.table np with state := .embryo, pid := s.nextpid } with
      nextpid := s.nextpid+1
      stage := Function.update s.stage p (.allocated np) } := by
  unfold allocproc
  split
  · exact .inl rfl
  · rename_i np h
    exact .inr ⟨np,of_decide_eq_true (first_some h),rfl⟩

def marked (x : Proc) : Proc :=
  { x with killed := true, state := if x.state = .sleeping then .runnable else x.state }

theorem marked_state (x : Proc) : Stirred x.state (marked x).state := by
  by_cases hx : x.state = .sleeping
  · exact .inr ⟨hx,if_pos hx⟩
  · exact .inl (if_neg hx)

theorem marked_sleeping (x : Proc) : (marked x).state ≠ .sleeping := by
  intro h
  rcases marked_state x with hs | ⟨-,hr⟩
  · have hx : x.state = .sleeping := hs ▸ h
    rw [marked,if_pos hx] at h
    cases h
  · rw [hr] at h
    cases h

theorem kill_cases (t : Table) (pid : PidNum) : ((∀ q, (t q).pid ≠ pid) ∧ kill t pid = (t,-1)) ∨
    ∃ q, first (fun q => decide ((t q).pid = pid)) = some q ∧ (t q).pid = pid ∧
      kill t pid = (Function.update t q (marked (t q)),0) := by
  unfold kill
  split
  · rename_i h
    exact .inl ⟨fun q => of_decide_eq_false (first_none h q),rfl⟩
  · rename_i q h
    exact .inr ⟨q,h,of_decide_eq_true (first_some h),rfl⟩

theorem kill_entry (t : Table) (pid : PidNum) (r : Slot) : (kill t pid).1 r = t r ∨ (kill t pid).1 r = marked (t r) := by
  rcases kill_cases t pid with ⟨-,hk⟩ | ⟨q,-,-,hk⟩
  · rw [hk]
    exact .inl rfl
  · simp only [hk]
    by_cases hr : r = q
    · subst hr
      exact .inr (update_self ..)
    · exact .inl (update_of_ne hr ..)

theorem kill_state (t : Table) (pid : PidNum) (r : Slot) : Stirred (t r).state ((kill t pid).1 r).state := by
  rcases kill_entry t pid r with hr | hr
  · rw [hr]
    exact .inl rfl
  · rw [hr]
    exact marked_state _

theorem scan_some {l : List Slot} {b b' : Bool} (h : scan t p l b = (some q,b')) :
    (t q).parent = some p ∧ (t q).state = .zombie := by
  induction l generalizing b with
  | nil => cases h
  | cons r l ih =>
    rw [scan] at h
    split at h
    · rename_i hr
      split at h
      · rename_i hz
        cases h
        exact ⟨hr,hz⟩
      · exact ih h
    · exact ih h

theorem scan_none {l : List Slot} {b b' : Bool} (h : scan t p l b = (none,b')) :
    (∀ q ∈ l, (t q).parent = some p → (t q).state ≠ .zombie) ∧
    (b' = true ↔ b = true ∨ ∃ q ∈ l, (t q).parent = some p) := by
  induction l generalizing b with
  | nil =>
    cases h
    simp
  | cons r l ih =>
    rw [scan] at h
    split at h
    · rename_i hr
      split at h
      · cases h
      · rename_i hz
        obtain ⟨h1,h2⟩ := ih h
        refine ⟨?_,?_⟩
        · intro q hq
          rcases List.mem_cons.mp hq with rfl | hq
          · exact fun _ => hz
          · exact h1 q hq
        · simp [h2,hr]
    · rename_i hr
      obtain ⟨h1,h2⟩ := ih h
      refine ⟨?_,?_⟩
      · intro q hq
        rcases List.mem_cons.mp hq with rfl | hq
        · exact fun he => absurd he hr
        · exact h1 q hq
      · simp [h2,hr]

theorem wait_cases (s : Procs) (p : Slot) :
    (∃ q, (s.table q).parent = some p ∧ (s.table q).state = .zombie ∧ wait s p = (reap s p q,true)) ∨
    wait s p = (s,true) ∨
    ((∀ q, (s.table q).parent = some p → (s.table q).state ≠ .zombie) ∧ (∃ q, (s.table q).parent = some p) ∧
      (s.table p).killed = false ∧ wait s p = (sleep s p (.proc p) .wait,false)) := by
  unfold wait
  split
  · rename_i q b h
    obtain ⟨h1,h2⟩ := scan_some h
    exact .inl ⟨q,h1,h2,rfl⟩
  · rename_i b h
    obtain ⟨h1,h2⟩ := scan_none h
    split
    · exact .inr (.inl rfl)
    · rename_i hgo
      obtain ⟨hb,hk⟩ := not_or.mp hgo
      obtain ⟨q,-,hq⟩ := (h2.mp (by simpa using hb)).resolve_left (by decide)
      exact .inr (.inr ⟨fun q => h1 q (List.mem_finRange q),⟨q,hq⟩,by simpa using hk,rfl⟩)

end Loops

end Xv6.Ptable
