import Xv6.Library.Mutex
import Xv6.Pipes.Fifo

/-! # Processes that sleep on a pipe

A process that sleeps on a pipe has a reason to, or the process that holds `p->lock` will
wake it before it gives the lock up. The one exception is the error return of
`pipewrite`, which does not announce the bytes that the call has stored.
-/
namespace Xv6.Pipes
open Runs Mutex Function
variable {s s' : Sys} {p q : Pid} {ph : Phase} {a : Action} {c : Chan}

section Invariant

def Phase.hasLock : Phase → Bool
  | .holds _ => true
  | .wakeup _ _ => true
  | .waking _ _ => true
  | .sleep _ _ => true
  | .handing _ _ => true
  | _ => false

def Phase.hasPtable : Phase → Bool
  | .waking _ _ => true
  | .handing _ _ => true
  | .settling _ _ => true
  | .resumed _ => true
  | _ => false

def Phase.sleepsOn (c : Chan) : Phase → Prop
  | .settling d _ => d = c
  | .asleep d _ => d = c
  | _ => False

def Phase.owes (c : Chan) : Phase → Prop
  | .holds (.write _) => c = .nread
  | .holds (.copy _) => c = .nwrite
  | .wakeup d _ => d = c
  | .waking d _ => d = c
  | _ => False

def Phase.intends : Phase → Option Chan
  | .holds (.writeSleep _) => some .nwrite
  | .wakeup _ (.writeSleep _) => some .nwrite
  | .waking _ (.writeSleep _) => some .nwrite
  | .sleep c _ => some c
  | .handing c _ => some c
  | _ => none

def Point.entry : Point → Bool
  | .write _ => true
  | .read _ => true
  | .close _ => true
  | _ => false

def Phase.enters : Phase → Bool
  | .acquire k => k.entry
  | .sleep _ k => k.entry
  | .handing _ k => k.entry
  | .settling _ k => k.entry
  | .asleep _ k => k.entry
  | .woken k => k.entry
  | .resumed k => k.entry
  | _ => true

def Waits (p : Pipe) : Chan → Prop
  | .nread => p.empty ∧ p.writeopen = true
  | .nwrite => p.full ∧ p.readopen = true

def Attended (s : Sys) (c : Chan) : Prop := Waits s.pipe c ∨ ∃ q, s.lock = some q ∧ (s.phase q).owes c

structure Alert (s : Sys) : Prop where
  lock : Held Phase.hasLock s.phase s.lock
  ptable : Held Phase.hasPtable s.phase s.ptable
  attended : ∀ p c, (s.phase p).sleepsOn c → Attended s c
  intends : ∀ p c, (s.phase p).intends = some c → Waits s.pipe c
  enters : ∀ p, (s.phase p).enters = true

theorem intends_hasLock (h : ph.intends = some c) : ph.hasLock = true := by
  cases ph with
  | holds k => rfl
  | wakeup d k => rfl
  | waking d k => rfl
  | sleep d k => rfl
  | handing d k => rfl
  | _ => cases h

theorem sleepsOn_hasLock (h : ph.sleepsOn c) : ph.hasLock = false := by
  cases ph with
  | settling d k => rfl
  | asleep d k => rfl
  | _ => cases h

/-- One process moves on, and the pipe changes only under its lock. -/
theorem Alert.move (h : Alert s) (ph : Phase) (hphase : s'.phase = Function.update s.phase p ph)
    (hlock : s'.lock = owner ph.hasLock (s.phase p).hasLock p s.lock)
    (hlockFree : ph.hasLock = true → (s.phase p).hasLock = true ∨ s.lock = none)
    (hptable : s'.ptable = owner ph.hasPtable (s.phase p).hasPtable p s.ptable)
    (hptableFree : ph.hasPtable = true → (s.phase p).hasPtable = true ∨ s.ptable = none)
    (hpipe : s'.pipe = s.pipe ∨ (s.phase p).hasLock = true)
    (hattended : ∀ c, (∃ q, (s.phase q).sleepsOn c) → Attended s c → Attended s' c)
    (hself : ∀ c, ph.sleepsOn c → Waits s'.pipe c ∨ (s.phase p).sleepsOn c) (hintends : ∀ c, ph.intends = some c → Waits s'.pipe c)
    (henters : ph.enters = true) : Alert s' := by
  refine ⟨?_,?_,?_,?_,?_⟩
  · rw [hphase,hlock]
    exact h.lock.move hlockFree
  · rw [hphase,hptable]
    exact h.ptable.move hptableFree
  · have hold : ∀ q c, (s.phase q).sleepsOn c → Attended s' c :=
      fun q c hsleep => hattended c ⟨q,hsleep⟩ (h.attended q c hsleep)
    intro q c hsleep
    rw [hphase] at hsleep
    by_cases hq : q = p
    · subst hq
      rw [update_self] at hsleep
      exact (hself c hsleep).elim .inl (hold q c)
    · rw [update_of_ne hq] at hsleep
      exact hold q c hsleep
  · intro q c hq
    rw [hphase] at hq
    by_cases hqp : q = p
    · subst hqp
      rw [update_self] at hq
      exact hintends c hq
    · rw [update_of_ne hqp] at hq
      rcases hpipe with hpipe | hheld
      · rw [hpipe]
        exact h.intends q c hq
      · exact absurd (h.lock.eq (intends_hasLock hq) hheld) hqp
  · intro q
    rw [hphase]
    by_cases hq : q = p
    · subst hq
      rw [update_self]
      exact henters
    · rw [update_of_ne hq]
      exact h.enters q

theorem Attended.of_lock (h : Attended s c) (hl : s.lock = some p) : Waits s.pipe c ∨ (s.phase p).owes c := by
  rcases h with h | ⟨q,hq,ho⟩
  · exact .inl h
  · rw [hl] at hq
    exact .inr (Option.some.inj hq ▸ ho)

theorem Alert.keep (h : Alert s) {k : Point} (hp : s.phase p = .holds k) (hph : ph.hasLock = true)
    (hpt : ph.hasPtable = false) (hphase : s'.phase = Function.update s.phase p ph) (hlock : s'.lock = s.lock)
    (hptable : s'.ptable = s.ptable)
    (hattended : ∀ c, (∃ q, (s.phase q).sleepsOn c) → Waits s.pipe c ∨ (Phase.holds k).owes c →
      Waits s'.pipe c ∨ ph.owes c)
    (hintends : ∀ c, ph.intends = some c → Waits s'.pipe c) (henters : ph.enters = true) : Alert s' := by
  have hheld : (s.phase p).hasLock = true := by
    rw [hp]
    rfl
  have howner := (h.lock p).mp hheld
  refine h.move ph hphase ?_ (fun _ => .inl hheld) ?_ ?_ (.inr hheld) ?_ ?_ hintends henters
  · rw [hlock,howner,owner,if_pos hph]
  · rw [hptable,hpt,hp]
    rfl
  · rw [hpt]
    exact fun he => absurd he (by decide)
  · intro c hsleeper hatt
    rcases hattended c hsleeper (hp ▸ hatt.of_lock howner) with hw | ho
    · exact .inl hw
    · refine .inr ⟨p,hlock.trans howner,?_⟩
      rw [hphase,update_self]
      exact ho
  · intro c hsleep
    rw [sleepsOn_hasLock hsleep] at hph
    cases hph

end Invariant

section Steps

/-- The error return of `pipewrite` is taken only when nobody sleeps for bytes to read. -/
def Announced (s : Sys) (a : Action) : Prop := ∀ p b rest, a = .step p →
  s.phase p = .holds (.write (b :: rest)) → s.pipe.full → (s.pipe.readopen = false ∨ s.killed p = true) →
  ∀ q, ¬ (s.phase q).sleepsOn .nread

theorem Alert.pipewrite (h : Alert s) {rest : List Byte} (hp : s.phase p = .holds (.write rest))
    (hcare : Announced s (.step p)) : Alert (pipewrite s p rest) := by
  cases rest with
  | nil => exact h.keep hp rfl rfl rfl rfl rfl (fun c _ hatt => hatt.imp id fun ho => ho.symm) (by simp [Phase.intends]) rfl
  | cons b rest =>
    rw [Pipes.pipewrite]
    split
    · rename_i hfull
      split
      · rename_i hfail
        refine h.keep hp rfl rfl rfl rfl rfl ?_ (by simp [Phase.intends]) rfl
        rintro c ⟨q,hq⟩ (hw | ho)
        · exact .inl hw
        · cases ho
          exact absurd hq (hcare p b rest rfl hp hfull hfail q)
      · rename_i hgood
        refine h.keep hp rfl rfl rfl rfl rfl (fun c _ hatt => hatt.imp id fun ho => ho.symm) ?_ rfl
        intro c hc
        cases hc
        exact ⟨hfull,by simpa [Sys.at] using (not_or.mp hgood).1⟩
    · rename_i hroom
      refine h.keep hp rfl rfl rfl rfl rfl ?_ (by simp [Phase.intends]) rfl
      rintro c - (hw | ho)
      · cases c with
        | nread => exact .inr rfl
        | nwrite => exact absurd hw.1 hroom
      · exact .inr ho

theorem Alert.piperead (h : Alert s) {n : ℕ} (hp : s.phase p = .holds (.read n)) : Alert (piperead s p n) := by
  have hkeep : ∀ c, Waits s.pipe c ∨ (Phase.holds (.read n)).owes c → Waits s.pipe c :=
    fun c hatt => hatt.resolve_right id
  unfold Pipes.piperead
  split
  · rename_i hwait
    split
    · exact h.keep hp rfl rfl rfl rfl rfl (fun c _ hatt => .inl (hkeep c hatt)) (by simp [Phase.intends]) rfl
    · refine h.keep hp rfl rfl rfl rfl rfl (fun c _ hatt => .inl (hkeep c hatt)) ?_ rfl
      intro c hc
      cases hc
      exact hwait
  · exact h.keep hp rfl rfl rfl rfl rfl (fun c _ hatt => .inl (hkeep c hatt)) (by simp [Phase.intends]) rfl

theorem Alert.pipecopy (h : Alert s) {n : ℕ} (hp : s.phase p = .holds (.copy n)) : Alert (pipecopy s p n) := by
  cases n with
  | zero =>
    exact h.keep hp rfl rfl rfl rfl rfl (fun c _ hatt => hatt.imp id fun ho => ho.symm) (by simp [Phase.intends]) rfl
  | succ n =>
    rw [Pipes.pipecopy]
    split
    · exact h.keep hp rfl rfl rfl rfl rfl (fun c _ hatt => hatt.imp id fun ho => ho.symm) (by simp [Phase.intends]) rfl
    · rename_i hsome
      refine h.keep hp rfl rfl rfl rfl rfl ?_ (by simp [Phase.intends]) rfl
      rintro c - (hw | ho)
      · cases c with
        | nread => exact absurd hw.1 hsome
        | nwrite => exact .inr rfl
      · exact .inr ho

theorem Alert.pipeclose (h : Alert s) {writable : Bool} (hp : s.phase p = .holds (.close writable)) :
    Alert (pipeclose s p writable) := by
  cases writable with
  | true =>
    refine h.keep hp rfl rfl rfl rfl rfl ?_ (by simp [Phase.intends]) rfl
    rintro c - (hw | ho)
    · cases c with
      | nread => exact .inr rfl
      | nwrite => exact .inl hw
    · cases ho
  | false =>
    refine h.keep hp rfl rfl rfl rfl rfl ?_ (by simp [Phase.intends]) rfl
    rintro c - (hw | ho)
    · cases c with
      | nread => exact .inl hw
      | nwrite => exact .inr rfl
    · cases ho

theorem Alert.release (h : Alert s) {k : Point} (hp : s.phase p = .holds k)
    (howes : ∀ c, ¬ (Phase.holds k).owes c) (freed : Bool) :
    Alert { s.at p .outside with lock := none, freed } := by
  have hheld : (s.phase p).hasLock = true := by
    rw [hp]
    rfl
  have howner := (h.lock p).mp hheld
  refine h.move .outside rfl ?_ (by simp [Phase.hasLock]) ?_ (by simp [Phase.hasPtable]) (.inl rfl) ?_
    (fun c hc => hc.elim) (by simp [Phase.intends]) rfl
  · rw [hheld]
    rfl
  · rw [hp]
    rfl
  · intro c _ hatt
    exact .inl ((hatt.of_lock howner).resolve_right (hp ▸ howes c))

theorem Alert.advance (h : Alert s) {k : Point} (hp : s.phase p = .holds k) (hcare : Announced s (.step p)) :
    Alert (advance s p k) := by
  cases k with
  | write rest => exact h.pipewrite hp hcare
  | writeSleep rest =>
    refine h.keep hp rfl rfl rfl rfl rfl (fun c _ hatt => .inl (hatt.resolve_right id)) ?_ rfl
    intro c hc
    cases hc
    exact h.intends p _ (by rw [hp]; rfl)
  | read n => exact h.piperead hp
  | copy n => exact h.pipecopy hp
  | close writable => exact h.pipeclose hp
  | closed =>
    rw [Pipes.advance]
    split
    · exact h.release hp (fun _ => id) true
    · exact h.keep hp rfl rfl rfl rfl rfl (fun c _ hatt => .inl (hatt.resolve_right id)) (by simp [Phase.intends]) rfl
  | leave => exact h.release hp (fun _ => id) s.freed

/-- A step that leaves the pipe alone and neither gives up `p->lock` nor starts to sleep. -/
theorem Alert.pass (h : Alert s) (ph : Phase) (hphase : s'.phase = Function.update s.phase p ph) (hpipe : s'.pipe = s.pipe)
    (hlock : s'.lock = owner ph.hasLock (s.phase p).hasLock p s.lock)
    (hlockFree : ph.hasLock = true → (s.phase p).hasLock = true ∨ s.lock = none)
    (hptable : s'.ptable = owner ph.hasPtable (s.phase p).hasPtable p s.ptable)
    (hptableFree : ph.hasPtable = true → (s.phase p).hasPtable = true ∨ s.ptable = none)
    (hkeep : (s.phase p).hasLock = true → ph.hasLock = true) (howes : ∀ c, (s.phase p).owes c → ph.owes c)
    (hself : ∀ c, ph.sleepsOn c → Waits s.pipe c ∨ (s.phase p).sleepsOn c)
    (hintends : ∀ c, ph.intends = some c → Waits s.pipe c) (henters : ph.enters = true) : Alert s' := by
  refine h.move ph hphase hlock hlockFree hptable hptableFree (.inl hpipe) ?_ (hpipe ▸ hself) (hpipe ▸ hintends) henters
  rintro c - (hw | ⟨q,hq,ho⟩)
  · exact .inl (hpipe ▸ hw)
  · right
    by_cases hqp : q = p
    · subst hqp
      have hnow := hkeep ((h.lock q).mpr hq)
      refine ⟨q,by rw [hlock,owner,if_pos hnow],?_⟩
      rw [hphase,update_self]
      exact howes c ho
    · have hbefore : (s.phase p).hasLock = false := by
        refine Bool.eq_false_iff.mpr fun hb => hqp ?_
        rw [(h.lock p).mp hb] at hq
        exact (Option.some.inj hq).symm
      have hnow : ph.hasLock = false := by
        refine Bool.eq_false_iff.mpr fun hn => ?_
        rcases hlockFree hn with hb | hnone
        · rw [hbefore] at hb
          cases hb
        · rw [hnone] at hq
          cases hq
      refine ⟨q,by rw [hlock,hnow,hbefore]; exact hq,?_⟩
      rw [hphase,update_of_ne hqp]
      exact ho

/-- What does not tell a sleeping process from a runnable one is kept by `wakeup1`. -/
theorem wake_invariant {β : Type*} (f : Phase → β) (hf : ∀ d k, f (.asleep d k) = f (.woken k)) (c : Chan)
    (ph : Phase) : f (wake c ph) = f ph := by
  cases ph with
  | asleep d k =>
    rw [wake]
    split
    · exact (hf d k).symm
    · rfl
  | _ => rfl

theorem wake_sleepsOn {c d : Chan} (h : (wake c ph).sleepsOn d) : ph.sleepsOn d := by
  cases ph with
  | asleep e k =>
    rw [wake] at h
    split at h
    · cases h
    · exact h
  | _ => exact h

theorem Alert.wakeup1 (h : Alert s) (c : Chan) : Alert (wakeup1 s c) := by
  refine ⟨?_,?_,?_,?_,?_⟩
  · intro q
    have hw := wake_invariant Phase.hasLock (fun _ _ => rfl) c (s.phase q)
    exact (Bool.eq_iff_iff.mp hw).trans (h.lock q)
  · intro q
    have hw := wake_invariant Phase.hasPtable (fun _ _ => rfl) c (s.phase q)
    exact (Bool.eq_iff_iff.mp hw).trans (h.ptable q)
  · intro q d hsleep
    rcases h.attended q d (wake_sleepsOn hsleep) with hw | ⟨r,hr,ho⟩
    · exact .inl hw
    · exact .inr ⟨r,hr,(wake_invariant (Phase.owes d) (fun _ _ => rfl) c _).mpr ho⟩
  · intro q d hq
    exact h.intends q d ((wake_invariant Phase.intends (fun _ _ => rfl) c _).symm.trans hq)
  · exact fun q => (wake_invariant Phase.enters (fun _ _ => rfl) c _).trans (h.enters q)

/-- After `wakeup1` nobody sleeps on the address: a process on its way to sleep would hold
`ptable.lock`. -/
theorem Alert.woken (h : Alert s) {k : Point} (hp : s.phase p = .waking c k) (q : Pid) :
    ¬ ((Pipes.wakeup1 s c).phase q).sleepsOn c := by
  intro hsleep
  change (wake c (s.phase q)).sleepsOn c at hsleep
  cases hq : s.phase q with
  | asleep d k =>
    rw [hq,wake] at hsleep
    split at hsleep
    · cases hsleep
    · rename_i hne
      exact hne hsleep
  | settling d k =>
    have hqp : q = p := h.ptable.eq (by rw [hq]; rfl) (by rw [hp]; rfl)
    rw [hqp,hp] at hq
    cases hq
  | _ =>
    rw [hq] at hsleep
    cases hsleep

end Steps
end Xv6.Pipes
