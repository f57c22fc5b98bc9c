import Xv6.Pipes.Alert

/-! # Wakeups on a pipe

Every step of a process keeps the sleepers attended to, except an error return of
`pipewrite` while a reader sleeps. A run without such a step loses no wakeup.
-/
namespace Xv6.Pipes
open Runs Mutex Function
variable {s s' : Sys} {p q : Pid} {ph : Phase} {a : Action} {c : Chan}

section Steps

/-- A process without `p->lock` moves on and leaves the pipe alone. -/
theorem Alert.aside (h : Alert s) (ph : Phase) {old : Phase} (hp : s.phase p = old) (hbefore : old.hasLock = false)
    (hnow : ph.hasLock = false) (hfree : ph.hasPtable = true → old.hasPtable = true ∨ s.ptable = none)
    (hself : ∀ c, ph.sleepsOn c → old.sleepsOn c) (henters : old.enters = true → ph.enters = true) :
    Alert { s.at p ph with ptable := owner ph.hasPtable old.hasPtable p s.ptable } := by
  subst hp
  refine h.pass ph rfl rfl ?_ ?_ rfl hfree ?_ ?_ (fun c hc => .inr (hself c hc)) ?_ (henters (h.enters p))
  · rw [hbefore,hnow]
    rfl
  · rw [hnow]
    exact fun he => by cases he
  · rw [hbefore]
    exact fun he => by cases he
  · intro c hc
    cases hx : s.phase p with
    | holds k => simp [hx,Phase.hasLock] at hbefore
    | wakeup d k => simp [hx,Phase.hasLock] at hbefore
    | waking d k => simp [hx,Phase.hasLock] at hbefore
    | _ =>
      rw [hx] at hc
      exact hc.elim
  · intro c hc
    rw [intends_hasLock hc] at hnow
    cases hnow

theorem Alert.take (h : Alert s) {old : Phase} (hp : s.phase p = old) (hbefore : old.hasLock = true)
    (hnow : ph.hasLock = true) (hpt : ph.hasPtable = true) (hfree : s.ptable = none)
    (howes : ∀ c, old.owes c → ph.owes c) (hintends : ∀ c, ph.intends = some c → old.intends = some c)
    (henters : old.enters = true → ph.enters = true) :
    Alert { s.at p ph with ptable := some p } := by
  subst hp
  refine h.pass ph rfl rfl ?_ (fun _ => .inl hbefore) ?_ (fun _ => .inr hfree) (fun _ => hnow) howes ?_
    (fun c hc => h.intends p c (hintends c hc)) (henters (h.enters p))
  · rw [hnow]
    exact (h.lock p).mp hbefore
  · rw [hpt]
    rfl
  · intro c hc
    rw [sleepsOn_hasLock hc] at hnow
    cases hnow

theorem Alert.waking (h : Alert s) {k : Point} (hp : s.phase p = .waking c k) :
    Alert { (Pipes.wakeup1 s c).at p (.holds k) with ptable := none } := by
  have hu := h.wakeup1 c
  have hpu : (Pipes.wakeup1 s c).phase p = .waking c k := by
    change wake c (s.phase p) = _
    rw [hp]
    rfl
  have howner := (hu.lock p).mp (by rw [hpu]; rfl)
  refine hu.move (.holds k) rfl ?_ (fun _ => .inl (by rw [hpu]; rfl)) ?_ (by simp [Phase.hasPtable])
    (.inl rfl) ?_ (fun _ hc => hc.elim) ?_ rfl
  · exact howner
  · rw [hpu]
    rfl
  · rintro d ⟨q,hq⟩ hatt
    rcases hatt.of_lock howner with hw | ho
    · exact .inl hw
    · rw [hpu] at ho
      cases ho
      exact absurd hq (h.woken hp q)
  · intro d hd
    refine hu.intends p d ?_
    rw [hpu]
    cases k <;> exact hd

theorem Alert.handing (h : Alert s) {k : Point} (hp : s.phase p = .handing c k) :
    Alert { s.at p (.settling c k) with lock := none } := by
  have howner := (h.lock p).mp (by rw [hp]; rfl)
  have hpt := (h.ptable p).mp (by rw [hp]; rfl)
  have henters := h.enters p
  refine h.move (.settling c k) rfl ?_ (by simp [Phase.hasLock]) ?_ (fun _ => .inl (by rw [hp]; rfl))
    (.inl rfl) ?_ ?_ (by simp [Phase.intends]) ?_
  · rw [hp]
    rfl
  · exact hpt
  · intro d _ hatt
    refine .inl ((hatt.of_lock howner).resolve_right ?_)
    rw [hp]
    exact id
  · intro d hd
    cases hd
    exact .inl (h.intends p c (by rw [hp]; rfl))
  · rw [hp] at henters
    exact henters

theorem Alert.acquire (h : Alert s) {k : Point} (hp : s.phase p = .acquire k) (hfree : s.lock = none) :
    Alert { s.at p (.holds k) with lock := some p } := by
  have henters := h.enters p
  refine h.pass (.holds k) rfl rfl rfl (fun _ => .inr hfree) ?_ (by simp [Phase.hasPtable]) (fun _ => rfl) ?_
    (fun _ hc => hc.elim) ?_ rfl
  · rw [hp]
    rfl
  · rw [hp]
    exact fun _ hc => hc.elim
  · rw [hp] at henters
    intro c hc
    cases k with
    | writeSleep rest => cases henters
    | _ => cases hc

theorem Alert.stepOf (h : Alert s) (hcare : Announced s (.step p)) (hstep : stepOf s p = some s') : Alert s' := by
  unfold Pipes.stepOf at hstep
  cases hp : s.phase p <;> simp only [hp,reduceCtorEq] at hstep
  case acquire k =>
    split at hstep <;> cases hstep
    rename_i hfree
    exact h.acquire hp hfree.1
  case holds k =>
    cases hstep
    exact h.advance hp hcare
  case wakeup c k =>
    split at hstep <;> cases hstep
    rename_i hfree
    exact h.take hp rfl rfl rfl hfree (fun _ hc => hc) (fun _ hc => by cases k <;> exact hc) fun _ => rfl
  case waking c k =>
    cases hstep
    exact h.waking hp
  case sleep c k =>
    split at hstep <;> cases hstep
    rename_i hfree
    exact h.take hp rfl rfl rfl hfree (fun _ hc => hc) (fun _ hc => hc) id
  case handing c k =>
    cases hstep
    exact h.handing hp
  case settling c k =>
    cases hstep
    exact h.aside (.asleep c k) hp rfl rfl (by simp [Phase.hasPtable]) (fun _ hc => hc) id
  case woken k =>
    split at hstep <;> cases hstep
    rename_i hfree
    exact h.aside (.resumed k) hp rfl rfl (fun _ => .inr hfree) (fun _ hc => hc.elim) id
  case resumed k =>
    cases hstep
    exact h.aside (.acquire k) hp rfl rfl (by simp [Phase.hasPtable]) (fun _ hc => hc.elim) id

theorem Alert.kill (h : Alert s) (p : Pid) : Alert (kill s p) := by
  have hkilled : ∀ {u : Sys}, Alert u → ∀ f, Alert { u with killed := f } :=
    fun hu _ => ⟨hu.lock,hu.ptable,hu.attended,hu.intends,hu.enters⟩
  cases hp : s.phase p with
  | asleep c k =>
    have hwoken := h.aside (.woken k) hp rfl rfl (by simp [Phase.hasPtable]) (fun _ hc => hc.elim) id
    have hsame : Pipes.kill s p = { s.at p (.woken k) with killed := update s.killed p true } := by
      rw [Pipes.kill,hp]
      rfl
    rw [hsame]
    exact hkilled hwoken _
  | _ =>
    have hsame : Pipes.kill s p = { s with killed := update s.killed p true } := by
      simp only [Pipes.kill,hp]
      rw [← hp,update_eq_self]
    rw [hsame]
    exact hkilled h _

theorem Alert.call (h : Alert s) {k : Point} (hk : k.entry = true) (hcall : call s p k = some s') : Alert s' := by
  unfold Pipes.call at hcall
  split at hcall <;> cases hcall
  rename_i hp
  exact h.aside (.acquire k) hp rfl rfl (by simp [Phase.hasPtable]) (fun _ hc => hc.elim) fun _ => hk

theorem Alert.next (h : Alert s) (hcare : Announced s a) (hstep : Step s a s') : Alert s' := by
  cases a with
  | write p bytes => exact h.call rfl hstep
  | read p n => exact h.call rfl hstep
  | close p writable => exact h.call rfl hstep
  | kill p =>
    simp only [Step,Pipes.next] at hstep
    split at hstep <;> cases hstep
    exact h.kill p
  | step p => exact h.stepOf hcare hstep

theorem Sys.Fresh.alert (h : s.Fresh) : Alert s := by
  refine ⟨?_,?_,?_,?_,?_⟩
  · intro p
    simp [h.phase p,h.lock,Phase.hasLock]
  · intro p
    simp [h.phase p,h.ptable,Phase.hasPtable]
  · intro p c hc
    rw [h.phase p] at hc
    exact hc.elim
  · intro p c hc
    rw [h.phase p] at hc
    cases hc
  · intro p
    rw [h.phase p]
    rfl

def CarefulStep (s : Sys) (a : Action) (s' : Sys) : Prop := Announced s a ∧ Step s a s'

def Sleeping (s : Sys) (p : Pid) (c : Chan) : Prop := ∃ k, s.phase p = .asleep c k

/-- When `p->lock` is free, readers sleep only on an empty pipe that can still be written, and
writers only on a full pipe that can still be read. -/
theorem no_lost_wakeup {s₀ : Sys} {t : List Action} (h₀ : s₀.Fresh) (h : Run CarefulStep s₀ t s)
    (hfree : s.lock = none) (p : Pid) :
    (Sleeping s p .nread → s.pipe.empty ∧ s.pipe.writeopen = true) ∧
    (Sleeping s p .nwrite → s.pipe.full ∧ s.pipe.readopen = true) := by
  have halert : Alert s := Run.invariant (I := fun _ s => Alert s) h₀.alert
    (fun _ _ _ _ _ ha hstep => ha.next hstep.1 hstep.2) h
  have hwaits : ∀ c, Sleeping s p c → Waits s.pipe c := by
    rintro c ⟨k,hk⟩
    refine (halert.attended p c (by rw [hk]; rfl)).resolve_right ?_
    rintro ⟨q,hq,-⟩
    rw [hfree] at hq
    cases hq
  exact ⟨hwaits .nread,hwaits .nwrite⟩

end Steps

section Instances

def reader : List Action := [.read 0 1,.step 0,.step 0,.step 0,.step 0,.step 0]

theorem run_reader : ∃ s, Run CarefulStep freshPipe reader s ∧ s.lock = none ∧ Sleeping s 0 .nread := by
  -- while the pipe is not full there is no error return that the condition could be about
  have hrun : ((reader.foldlM (fun s a => if ¬ s.pipe.full then next s a else none) freshPipe).map fun s =>
      decide (s.lock = none ∧ s.phase 0 = .asleep .nread (.read 1))) = some true := by
    decide +kernel
  obtain ⟨s,hs,hend⟩ := Option.map_eq_some_iff.mp hrun
  obtain ⟨hlock,hphase⟩ := of_decide_eq_true hend
  refine ⟨s,(Run.of_foldlM_guard hs).mono fun u a v hstep => ⟨?_,hstep.2⟩,hlock,_,hphase⟩
  exact fun _ _ _ _ _ hfull => absurd hfull hstep.1

/-- A reader that finds the pipe empty sleeps. -/
theorem no_lost_wakeup_reader : ∃ s, Run CarefulStep freshPipe reader s ∧ s.lock = none ∧ Sleeping s 0 .nread ∧
    s.pipe.empty ∧ s.pipe.writeopen = true := by
  obtain ⟨s,hrun,hlock,hsleep⟩ := run_reader
  exact ⟨s,hrun,hlock,hsleep,(no_lost_wakeup fresh_freshPipe hrun hlock 0).1 hsleep⟩

def killedWriter : List Action :=
  reader ++ [Action.write 1 (List.replicate 513 7),.step 1] ++
    (List.replicate 512 (Action.step 1) ++ [Action.kill 1,.step 1,.step 1])

/-- The reader sleeps on although the pipe is full. -/
theorem killedWriter_lost : ∃ s, Run Step freshPipe killedWriter s ∧ s.lock = none ∧ Sleeping s 0 .nread ∧
    ¬ s.pipe.empty := by
  have hrun : ((killedWriter.foldlM next freshPipe).map fun s => decide (s.lock = none ∧
      s.phase 0 = .asleep .nread (.read 1) ∧ ¬ s.pipe.empty)) = some true := by
    decide +kernel
  obtain ⟨s,hs,hend⟩ := Option.map_eq_some_iff.mp hrun
  obtain ⟨hlock,hphase,hempty⟩ := of_decide_eq_true hend
  exact ⟨s,Run.of_foldlM hs,hlock,⟨_,hphase⟩,hempty⟩

end Instances
end Xv6.Pipes
