import Xv6.Library.Mutex
import Xv6.Library.Runs

/-! # Spin locks and interrupts

The CPUs execute `acquire` and `release` statement by statement. An interrupt may come whenever
the interrupt flag is set, and its handler takes locks as well. `pushcli` and `popcli` count how
many locks a CPU has or waits for, so that no handler runs on a CPU with a lock, and the flag comes
back as it was.
-/
namespace Xv6.Spinlock
open Mutex Runs Function

/-- The calls of `panic`, with the lock as history. -/
inductive Panic (L : Type)
  | acquire (l : L)
  | release (l : L)
  | interruptible
  | popcli
  deriving DecidableEq

/-- The next statement: of `acquire`, of `release`, or none of theirs. -/
inductive Phase (L : Type)
  | running
  | spinning (l : L)
  | noting (l : L)
  | clearing (l : L)
  | freeing (l : L)
  | popping
  | panicked (why : Panic L)
  deriving DecidableEq

/-- `eflags` is the interrupt flag and `stack` the interrupted code. As history, the locks that the CPU
has, its own calls of `pushcli` outside of locks, and the flag at the first of the open calls. -/
structure Cpu (L : Type) where
  ncli : ℕ
  intena : Bool
  eflags : Bool
  phase : Phase L
  stack : List (Phase L)
  held : List L
  nested : ℕ
  was : Bool

/-- `owner` is the field `cpu` of a lock; `holder` records, as history, who has set `locked`. -/
structure Sys (C L : Type) where
  cpu : C → Cpu L
  locked : L → Bool
  owner : L → Option C
  holder : L → Option C

section Steps
variable {C L : Type}

/-- The first of the nested calls of `pushcli` keeps the flag. -/
def Cpu.note (x : Cpu L) : Cpu L :=
  { x with intena := if x.ncli = 0 then x.eflags else x.intena, was := if x.ncli = 0 then x.eflags else x.was }

def pushcli (x : Cpu L) : Cpu L := { x.note with eflags := false, ncli := x.ncli+1 }

def panic (why : Panic L) (x : Cpu L) : Cpu L := { x with eflags := false, phase := .panicked why }

def popcli (x : Cpu L) : Cpu L :=
  if x.eflags then panic .interruptible x
  else if x.ncli = 0 then panic .popcli x
  else { x with ncli := x.ncli-1, eflags := x.ncli = 1 && x.intena }

variable [DecidableEq C] [DecidableEq L] (s : Sys C L) (c : C)

def Sys.set (x : Cpu L) : Sys C L := { s with cpu := update s.cpu c x }

/-- What `holding` returns, and the CPU after it. -/
def holding (l : L) (x : Cpu L) : Bool × Cpu L := (s.locked l && decide (s.owner l = some c),popcli (pushcli x))

/-- `acquire` up to the loop. -/
def acquire (l : L) : Cpu L :=
  let (r,x) := holding s c l (pushcli (s.cpu c))
  if r then panic (.acquire l) x else { x with phase := .spinning l }

def release (l : L) : Cpu L :=
  let (r,x) := holding s c l (s.cpu c)
  if r then { x with phase := .clearing l } else panic (.release l) x

/-- The CPU goes on in `acquire` or `release`. -/
def stepOf : Option (Sys C L) :=
  let x := s.cpu c
  match x.phase with
  | .spinning l =>
    if s.locked l then some s
    else some { s.set c { x with phase := .noting l } with
      locked := update s.locked l true, holder := update s.holder l (some c) }
  | .noting l => some { s.set c { x with phase := .running, held := l :: x.held } with owner := update s.owner l (some c) }
  | .clearing l => some { s.set c { x with phase := .freeing l } with owner := update s.owner l none }
  | .freeing l => some { s.set c { x with phase := .popping, held := x.held.erase l } with
      locked := update s.locked l false, holder := update s.holder l none }
  | .popping => some (s.set c (popcli { x with phase := .running }))
  | _ => none

inductive Action (L : Type)
  | acquire (l : L)
  | release (l : L)
  | pushcli
  | popcli
  | sti
  | sched (intena : Bool) (frames : ℕ)
  | interrupt
  | iret
  | step

/-- The CPU has no lock and no call of `pushcli` to undo. -/
def Cpu.Idle (x : Cpu L) : Prop := x.phase = .running ∧ x.held = [] ∧ x.nested = 0

instance (x : Cpu L) : Decidable x.Idle := inferInstanceAs (Decidable (_ ∧ _ ∧ _))

/-- Code undoes only its own `pushcli`, and it is idle when it returns from an interrupt or sets the
flag itself, as the scheduler does. Under its last lock, `sched` goes on with other code, which has its
own `intena` and its own interrupted code. -/
def next (a : Action L) : Option (Sys C L) :=
  let x := s.cpu c
  match a with
  | .acquire l => if x.phase = .running then some (s.set c (acquire s c l)) else none
  | .release l => if x.phase = .running then some (s.set c (release s c l)) else none
  | .pushcli =>
    if x.phase = .running then some (s.set c { pushcli x with nested := x.nested+1 }) else none
  | .popcli =>
    if x.phase = .running ∧ 0 < x.nested then
      some (s.set c (popcli { x with nested := x.nested-1 }))
    else none
  | .sti => if x.Idle then some (s.set c { x with eflags := true }) else none
  | .sched intena frames =>
    if x.phase = .running ∧ x.ncli = 1 then
      some (s.set c { x with intena := intena, was := intena, stack := .replicate frames .running })
    else none
  | .interrupt =>
    if x.eflags then
      some (s.set c { x with eflags := false, phase := .running, stack := x.phase :: x.stack })
    else none
  | .iret =>
    match x.stack with
    | [] => none
    | ph :: rest =>
      if x.Idle then some (s.set c { x with eflags := true, phase := ph, stack := rest }) else none
  | .step => stepOf s c

end Steps

def Step {C L : Type} [DecidableEq C] [DecidableEq L] (s : Sys C L) (a : C × Action L) (s' : Sys C L) : Prop :=
  next s a.1 a.2 = some s'

def boot (C L : Type) : Sys C L := ⟨fun _ => ⟨0,false,false,.running,[],[],0,false⟩,fun _ => false,fun _ => none,fun _ => none⟩

section Cpus
variable {L : Type} {x : Cpu L}

/-- The calls of `pushcli` in `acquire` whose lock is not recorded as held. -/
def Phase.pending : Phase L → ℕ
  | .spinning _ => 1
  | .noting _ => 1
  | .popping => 1
  | .panicked (.acquire _) => 1
  | _ => 0

def Phase.Fits (held : List L) : Phase L → Prop
  | .spinning l => l ∉ held
  | .noting l => l ∉ held
  | .clearing l => l ∈ held
  | .freeing l => l ∈ held
  | .panicked (.acquire l) => l ∈ held
  | .panicked (.release l) => l ∉ held
  | .panicked _ => False
  | _ => True

structure Cpu.Ok (x : Cpu L) : Prop where
  count : x.ncli = x.held.length+x.nested+x.phase.pending
  off : 0 < x.ncli → x.eflags = false ∧ x.intena = x.was
  fits : x.phase.Fits x.held
  nodup : x.held.Nodup
  stack : ∀ ph ∈ x.stack, ph = .running
  halted : ∀ why, x.phase = .panicked why → x.eflags = false

theorem Cpu.Ok.note_was (h : x.Ok) : x.note.intena = x.note.was := by
  by_cases hn : x.ncli = 0
  · simp [note,hn]
  · simpa [note,hn] using (h.off (Nat.pos_of_ne_zero hn)).2

theorem popcli_pushcli (h : 0 < x.ncli → x.eflags = false) : popcli (pushcli x) = x.note := by
  by_cases hn : x.ncli = 0
  · simp [popcli,pushcli,Cpu.note,hn]
  · simp [popcli,pushcli,Cpu.note,hn,h (Nat.pos_of_ne_zero hn)]

/-- The outermost `popcli` sets the flag as it was. -/
theorem Cpu.Ok.popcli_eq (h : x.Ok) (hn : 0 < x.ncli) (ph : Phase L) (n : ℕ) : popcli { x with phase := ph, nested := n } =
    { x with phase := ph, nested := n, ncli := x.ncli-1, eflags := x.ncli = 1 && x.was } := by
  obtain ⟨hflag,hwas⟩ := h.off hn
  simp [popcli,hflag,hwas,Nat.ne_of_gt hn]

/-- After `pushcli`, in a phase that counts the call. -/
theorem Cpu.Ok.push (h : x.Ok) (hx : x.phase = .running) {ph : Phase L} {n : ℕ}
    (hcount : n+ph.pending = x.nested+1) (hfits : ph.Fits x.held) :
    Cpu.Ok { pushcli x with phase := ph, nested := n } := by
  have hc := h.count
  rw [hx] at hc
  change x.ncli = x.held.length+x.nested+0 at hc
  refine ⟨?_,fun _ => ⟨rfl,h.note_was⟩,hfits,h.nodup,h.stack,fun _ _ => rfl⟩
  change x.ncli+1 = x.held.length+n+ph.pending
  omega

/-- After the `popcli` that a phase or a call outside of locks was counted for. -/
theorem Cpu.Ok.pop (h : x.Ok) {n : ℕ} (hcount : x.nested+x.phase.pending = n+1) :
    Cpu.Ok { x with phase := .running, nested := n, ncli := x.ncli-1, eflags := x.ncli = 1 && x.was } := by
  obtain ⟨hc,hoff,-,hnd,hstack,-⟩ := h
  refine ⟨?_,fun hpos => ?_,trivial,hnd,hstack,by simp⟩
  · change x.ncli-1 = x.held.length+n+0
    omega
  · dsimp only at hpos ⊢
    have hne : x.ncli ≠ 1 := by omega
    exact ⟨by simp [hne],(hoff (by omega)).2⟩

/-- A CPU that can be interrupted has no lock and waits for none. -/
theorem Cpu.Ok.free (h : x.Ok) (hflag : x.eflags = true) : x.Idle := by
  have hzero : x.ncli = 0 := by
    by_contra hn
    simpa [hflag] using (h.off (Nat.pos_of_ne_zero hn)).1
  obtain ⟨hcount,-,hfits,-,-,hhalted⟩ := h
  have hnil : x.held = [] := List.eq_nil_of_length_eq_zero (by omega)
  have hpending : x.phase.pending = 0 := by omega
  refine ⟨?_,hnil,by omega⟩
  rw [hnil] at hfits
  cases hp : x.phase with
  | running => rfl
  | panicked why => simp [hhalted why hp] at hflag
  | _ => simp [hp,Phase.Fits,Phase.pending] at hfits hpending

theorem Cpu.Ok.idle (h : x.Ok) (hidle : x.Idle) : x.ncli = 0 := by
  obtain ⟨hrun,hheld,hnested⟩ := hidle
  simpa [hrun,hheld,hnested,Phase.pending] using h.count

end Cpus

section Invariant
variable {C L : Type} [DecidableEq C] [DecidableEq L] {s s' : Sys C L} {c : C} {x : Cpu L} {l : L}

def Cpu.has (l : L) (x : Cpu L) : Bool := decide (l ∈ x.held) || decide (x.phase = .noting l)

/-- The lock's field `cpu` names the CPU. -/
def Cpu.noted (l : L) (x : Cpu L) : Bool := decide (l ∈ x.held) && decide (x.phase ≠ .freeing l)

structure Sound (s : Sys C L) : Prop where
  ok : ∀ c, (s.cpu c).Ok
  locked : s.locked = fun l => (s.holder l).isSome
  has : ∀ l, Held (Cpu.has l) s.cpu (s.holder l)
  noted : ∀ l, Held (Cpu.noted l) s.cpu (s.owner l)

theorem ok_set (h : Sound s) (hx : x.Ok) (d : C) : (update s.cpu c x d).Ok := by
  by_cases hd : d = c
  · rw [hd,update_self]
    exact hx
  · rw [update_of_ne hd]
    exact h.ok d

/-- Away from `freeing` and `noting`, the same locks are held. -/
theorem Sound.move (h : Sound s) (hx : x.Ok) (hheld : x.held = (s.cpu c).held)
    (hnew : ∀ l, x.phase ≠ .noting l ∧ x.phase ≠ .freeing l)
    (hold : ∀ l, (s.cpu c).phase ≠ .noting l ∧ (s.cpu c).phase ≠ .freeing l) :
    Sound (s.set c x) := by
  refine ⟨ok_set h hx,h.locked,fun l => (h.has l).stay ?_,fun l => (h.noted l).stay ?_⟩
  · simp [Cpu.has,hheld,hnew l,hold l]
  · simp [Cpu.noted,hheld,hnew l,hold l]

theorem Sound.holding_eq (h : Sound s) (hp : (s.cpu c).phase ≠ .freeing l) (hx : 0 < x.ncli → x.eflags = false) :
    holding s c l x = (decide (l ∈ (s.cpu c).held),x.note) := by
  have hnoted := h.noted l c
  have hhas := h.has l c
  simp only [Cpu.noted,Cpu.has] at hnoted hhas
  unfold holding
  rw [popcli_pushcli hx]
  grind [h.locked]

theorem Sound.acquire (h : Sound s) (hrun : (s.cpu c).phase = .running) :
    Sound (s.set c (acquire s c l)) := by
  rw [Spinlock.acquire,h.holding_eq (by simp [hrun]) fun _ => rfl]
  simp only [decide_eq_true_eq]
  split
  all_goals
    rename_i hl
    exact h.move ((h.ok c).push hrun rfl hl) rfl (by simp [panic]) (by simp [hrun])

theorem Sound.release (h : Sound s) (hrun : (s.cpu c).phase = .running) :
    Sound (s.set c (release s c l)) := by
  obtain ⟨hcount,hoff,-,hnd,hstack,-⟩ := h.ok c
  rw [hrun] at hcount
  rw [Spinlock.release,h.holding_eq (by simp [hrun]) fun hn => (hoff hn).1]
  simp only [decide_eq_true_eq]
  split
  all_goals
    rename_i hl
    refine h.move ⟨hcount,fun hpos => ⟨?_,(h.ok c).note_was⟩,hl,hnd,hstack,by simp [panic]⟩ rfl (by simp [panic])
      (by simp [hrun])
  · exact (hoff hpos).1
  · rfl

theorem Sound.stepOf (h : Sound s) (hstep : stepOf s c = some s') : Sound s' := by
  obtain ⟨hcount,hoff,hfits,hnd,hstack,hhalted⟩ := h.ok c
  unfold Spinlock.stepOf at hstep
  cases hp : (s.cpu c).phase <;> simp only [hp,reduceCtorEq] at hstep
  all_goals rw [hp] at hfits hcount
  case spinning l =>
    split at hstep <;> cases hstep
    · exact h
    · rename_i hfree
      refine ⟨ok_set h ⟨hcount,hoff,hfits,hnd,hstack,by simp⟩,?_,?_,fun m => ?_⟩
      · rw [h.locked]
        grind [update_apply]
      · have hnone : s.holder l = none := by simpa [h.locked] using hfree
        exact held_update h.has (Held.acquire (hnone ▸ h.has l) (by simp [Cpu.has]))
          fun m hm => by simp [Cpu.has,hp,Ne.symm hm]
      · exact (h.noted m).stay (by simp [Cpu.noted,hp])
  case noting l =>
    cases hstep
    have hnone : s.owner l = none := by
      refine Option.eq_none_iff_forall_ne_some.mpr fun d hd => ?_
      have hmem : l ∈ (s.cpu d).held := by simpa [Cpu.noted] using (Bool.and_eq_true_iff.mp ((h.noted l d).mpr hd)).1
      have hcd : d = c := (h.has l).eq (by simp [Cpu.has,hmem]) (by simp [Cpu.has,hp])
      exact hfits (hcd ▸ hmem)
    refine ⟨ok_set h ⟨?_,hoff,trivial,List.nodup_cons.mpr ⟨hfits,hnd⟩,hstack,by simp⟩,h.locked,fun m => ?_,?_⟩
    · simp only [Phase.pending,List.length_cons] at hcount ⊢
      omega
    · exact (h.has m).stay (by grind [Cpu.has])
    · exact held_update h.noted (Held.acquire (hnone ▸ h.noted l) (by simp [Cpu.noted]))
        fun m hm => by simp [Cpu.noted,hp,hm]
  case clearing l =>
    cases hstep
    refine ⟨ok_set h ⟨hcount,hoff,hfits,hnd,hstack,by simp⟩,h.locked,fun m => ?_,?_⟩
    · exact (h.has m).stay (by simp [Cpu.has,hp])
    · have hhad : (s.cpu c).noted l = true := by simpa [Cpu.noted,hp] using show l ∈ _ from hfits
      exact held_update h.noted ((h.noted l).release hhad (by simp [Cpu.noted]))
        fun m hm => by simp [Cpu.noted,hp,Ne.symm hm]
  case freeing l =>
    cases hstep
    have hpos := List.length_pos_of_mem hfits
    have hgone := hnd.not_mem_erase (a := l)
    refine ⟨ok_set h ⟨?_,hoff,trivial,hnd.erase l,hstack,by simp⟩,?_,?_,fun m => ?_⟩
    · simp only [Phase.pending,List.length_erase_of_mem hfits] at hcount ⊢
      omega
    · rw [h.locked]
      grind [update_apply]
    · have hhad : (s.cpu c).has l = true := by simpa [Cpu.has] using .inl hfits
      exact held_update h.has ((h.has l).release hhad (by simpa [Cpu.has] using hgone))
        fun m hm => by simp [Cpu.has,hp,List.mem_erase_of_ne hm]
    · refine (h.noted m).stay ?_
      by_cases hm : m = l
      · simp [Cpu.noted,hp,hm,hgone]
      · simp [Cpu.noted,hp,List.mem_erase_of_ne hm,Ne.symm hm]
  case popping =>
    cases hstep
    rw [(h.ok c).popcli_eq (by rw [hcount]; exact Nat.succ_pos _) .running (s.cpu c).nested]
    exact h.move ((h.ok c).pop (by rw [hp]; rfl)) rfl (by simp) (by simp [hp])

theorem Sound.next (h : Sound s) {a : Action L} (hstep : next s c a = some s') : Sound s' := by
  have hok := h.ok c
  obtain ⟨hcount,hoff,hfits,hnd,hstack,-⟩ := h.ok c
  cases a
  case step => exact h.stepOf hstep
  case iret =>
    simp only [Spinlock.next] at hstep
    split at hstep
    · cases hstep
    · rename_i ph rest hst
      split at hstep <;> cases hstep
      rename_i hidle
      rw [hst] at hstack
      obtain ⟨rfl,hrest⟩ := List.forall_mem_cons.mp hstack
      rw [hidle.1] at hcount
      exact h.move ⟨hcount,by simp [hok.idle hidle],trivial,hnd,hrest,by simp⟩ rfl (by simp) (by simp [hidle.1])
  all_goals
    simp only [Spinlock.next] at hstep
    split at hstep <;> cases hstep
    rename_i hif
  case acquire l => exact h.acquire hif
  case release l => exact h.release hif
  case pushcli =>
    exact h.move (hok.push hif (by simp [Spinlock.pushcli,Cpu.note,hif,Phase.pending]) hfits) rfl
      (by simp [Spinlock.pushcli,Cpu.note,hif]) (by simp [hif])
  case popcli =>
    obtain ⟨hrun,hnested⟩ := hif
    rw [hok.popcli_eq (by omega) (s.cpu c).phase,hrun]
    refine h.move (hok.pop ?_) rfl (by simp) (by simp [hrun])
    rw [hrun]
    exact (Nat.sub_add_cancel hnested).symm
  case sti =>
    exact h.move ⟨hcount,by simp [hok.idle hif],hfits,hnd,hstack,by simp [hif.1]⟩ rfl (by simp [hif.1]) (by simp [hif.1])
  case sched intena frames =>
    refine h.move ⟨hcount,fun hpos => ⟨(hoff hpos).1,rfl⟩,hfits,hnd,?_,by simp [hif.1]⟩ rfl (by simp [hif.1]) (by simp [hif.1])
    exact fun ph => List.eq_of_mem_replicate
  case interrupt =>
    obtain ⟨hrun,-⟩ := hok.free hif
    rw [hrun] at hcount
    refine h.move ⟨hcount,fun hpos => ⟨rfl,(hoff hpos).2⟩,trivial,hnd,?_,by simp⟩ rfl (by simp) (by simp [hrun])
    exact List.forall_mem_cons.mpr ⟨hrun,hstack⟩

theorem sound_run {t : List (C × Action L)} (h : Run Step (boot C L) t s) : Sound s := by
  refine Run.invariant (I := fun _ s => Sound s) ?_ ?_ h
  · refine ⟨fun c => ⟨rfl,?_,trivial,List.nodup_nil,?_,?_⟩,rfl,fun l c => ?_,fun l c => ?_⟩ <;>
      simp [boot,Cpu.has,Cpu.noted]
  · intro t u a v _ hu hstep
    exact hu.next hstep

/-- A lock is with one CPU at a time, and `holding` names it. A CPU is interrupted only where it has
no lock and waits for none. `popcli` never panics, and the outermost leaves the interrupt flag as it
was. Code that panics took a lock it had or released one it had not. -/
theorem locks_exclusive {t : List (C × Action L)} (h : Run Step (boot C L) t s) :
    (∀ c d l, l ∈ (s.cpu c).held → l ∈ (s.cpu d).held → c = d) ∧
    (∀ c l, (s.cpu c).phase ≠ .freeing l → ((holding s c l (s.cpu c)).1 = true ↔ l ∈ (s.cpu c).held)) ∧
    (∀ c, (s.cpu c).eflags = true → (s.cpu c).Idle) ∧
    (∀ c, 0 < (s.cpu c).ncli → popcli (s.cpu c) =
      { s.cpu c with ncli := (s.cpu c).ncli-1, eflags := (s.cpu c).ncli = 1 && (s.cpu c).was }) ∧
    ∀ c why, (s.cpu c).phase = .panicked why →
      (∃ l ∈ (s.cpu c).held, why = .acquire l) ∨ ∃ l, l ∉ (s.cpu c).held ∧ why = .release l := by
  have hs := sound_run h
  refine ⟨fun c d l hc hd => ?_,fun c l hp => ?_,fun c => (hs.ok c).free,fun c hn => ?_,fun c why hp => ?_⟩
  · exact (hs.has l).eq (by simp [Cpu.has,hc]) (by simp [Cpu.has,hd])
  · simp [hs.holding_eq hp fun hn => ((hs.ok c).off hn).1]
  · exact (hs.ok c).popcli_eq hn _ _
  · have hfits := (hs.ok c).fits
    rw [hp] at hfits
    cases why with
    | acquire l => exact .inl ⟨l,hfits,rfl⟩
    | release l => exact .inr ⟨l,hfits,rfl⟩
    | _ => exact hfits.elim

end Invariant

/-- One CPU gets the lock, and an interrupt handler on the other waits for it. -/
def contend : List (Bool × Action Unit) :=
  [(false,.acquire ()),(false,.step),(false,.step),(true,.sti),(true,.interrupt),(true,.acquire ()),(true,.step)]

theorem locks_exclusive_contend : ∃ s, Run Step (boot Bool Unit) contend s ∧ (s.cpu true).phase = .spinning () ∧
    (holding s false () (s.cpu false)).1 = true ∧ ∀ d, () ∈ (s.cpu d).held → d = false := by
  obtain ⟨s,hs,hphase,hrun,hheld⟩ : ∃ s, contend.foldlM (fun s a => next s a.1 a.2) (boot Bool Unit) = some s ∧
      (s.cpu true).phase = .spinning () ∧ (s.cpu false).phase = .running ∧ (s.cpu false).held = [()] := ⟨_,rfl,rfl,rfl,rfl⟩
  have hruns : Run Step (boot Bool Unit) contend s := Run.of_foldlM hs
  obtain ⟨honly,hholding,-⟩ := locks_exclusive hruns
  refine ⟨s,hruns,hphase,(hholding false () (by simp [hrun])).mpr (by simp [hheld]),fun d hd => ?_⟩
  exact honly d false () hd (by simp [hheld])

end Xv6.Spinlock
