import Xv6.Ide.Disk

/-! # The queue of disk requests

The links of the buffers spell out a list without repetitions; its head is the buffer that
the disk is working on. A process in `iderw` waits for its own buffer, which is in the list
until the one command for it has completed.
-/
namespace Xv6.Ide
open NodePool Runs Function
variable {s t : Sys} {l : List BufNo} {p : Pid} {b : BufNo}

/-- What a process in `iderw` can rely on: its buffer is queued, or the command for it is done. -/
def Awaits (s : Sys) (l : List BufNo) (b : BufNo) (dirty : Bool) (before : ℕ) : Prop :=
  (b ∈ l ∧ (s.buf b).dirty = dirty ∧ (s.buf b).clean = false ∧ (s.commands b).length = before) ∨
    (b ∉ l ∧ (s.buf b).clean = true ∧ ∃ cs, s.commands b = cs ++ [cmdOf dirty] ∧ cs.length = before)

def Working (s : Sys) : List BufNo → Prop
  | [] => s.disk = none
  | b :: _ => ∃ finished, s.disk = some ⟨b,cmdOf (s.buf b).dirty,finished⟩

structure Queued (s : Sys) (l : List BufNo) : Prop where
  linked : Linked s.qnext s.idequeue l
  nodup : l.Nodup
  working : Working s l
  overrun : s.overrun = false
  queued : ∀ b ∈ l, ∃ p dirty before, s.phase p = .waiting b dirty before
  waiting : ∀ p b dirty before, s.phase p = .waiting b dirty before →
    s.holder b = some p ∧ Awaits s l b dirty before
  order : s.enqueued = s.completed.map Prod.fst ++ l

theorem queued_boot (buf : BufNo → Buf) : Queued (boot buf) [] where
  linked := rfl
  nodup := List.nodup_nil
  working := rfl
  overrun := rfl
  queued := nofun
  waiting := nofun
  order := rfl

theorem Queued.notMem (h : Queued s l) (ho : s.owns p b = true) : b ∉ l := by
  intro hb
  obtain ⟨q,dirty,before,hq⟩ := h.queued b hb
  have hheld := (h.waiting q b dirty before hq).1
  simp only [Sys.owns,Bool.and_eq_true,decide_eq_true_eq] at ho
  rw [ho.1] at hheld
  cases hheld
  rw [ho.2] at hq
  cases hq

theorem Queued.ne (h : Queued s l) (ho : s.owns p b = true) {q : Pid} {c : BufNo} {dirty : Bool} {before : ℕ}
    (hq : s.phase q = .waiting c dirty before) : c ≠ b := by
  rintro rfl
  have hheld := (h.waiting q c dirty before hq).1
  simp only [Sys.owns,Bool.and_eq_true,decide_eq_true_eq] at ho
  rw [ho.1] at hheld
  cases hheld
  rw [ho.2] at hq
  cases hq

theorem Awaits.congr {dirty : Bool} {before : ℕ} (h : Awaits s l b dirty before)
    (hvalid : (t.buf b).valid = (s.buf b).valid) (hdirty : (t.buf b).dirty = (s.buf b).dirty)
    (hcompleted : t.completed = s.completed) : Awaits t l b dirty before := by
  have hclean : (t.buf b).clean = (s.buf b).clean := by rw [Buf.clean,Buf.clean,hvalid,hdirty]
  have hcommands : t.commands b = s.commands b := by rw [Sys.commands,Sys.commands,hcompleted]
  rw [Awaits,hdirty,hclean,hcommands]
  exact h

theorem Queued.lock (h : Queued s l) (hb : s.holder b = none) (p : Pid) :
    Queued { s with holder := Function.update s.holder b (some p) } l where
  linked := h.linked
  nodup := h.nodup
  working := h.working
  overrun := h.overrun
  queued := h.queued
  waiting q c dirty before hq := by
    obtain ⟨hheld,haw⟩ := h.waiting q c dirty before hq
    have hcb : c ≠ b := by
      rintro rfl
      rw [hb] at hheld
      cases hheld
    exact ⟨(update_of_ne hcb _ _).trans hheld,haw⟩
  order := h.order

theorem Queued.unlock (h : Queued s l) (ho : s.owns p b = true) :
    Queued { s with holder := Function.update s.holder b none } l where
  linked := h.linked
  nodup := h.nodup
  working := h.working
  overrun := h.overrun
  queued := h.queued
  waiting q c dirty before hq := by
    obtain ⟨hheld,haw⟩ := h.waiting q c dirty before hq
    exact ⟨(update_of_ne (h.ne ho hq) _ _).trans hheld,haw⟩
  order := h.order

theorem working_congr (h : Working s l) (hdisk : t.disk = s.disk)
    (hdirty : ∀ b ∈ l, (t.buf b).dirty = (s.buf b).dirty) : Working t l := by
  cases l with
  | nil => exact hdisk.trans h
  | cons b l =>
    obtain ⟨finished,hf⟩ := h
    refine ⟨finished,?_⟩
    rw [hdisk,hf,hdirty b (by simp)]

theorem Queued.assign (h : Queued s l) (ho : s.owns p b = true) (blockno : ℕ) (valid dirty : Bool) :
    Queued { s with buf := Function.update s.buf b { s.buf b with blockno, valid, dirty } } l := by
  have hother : ∀ c, c ≠ b → update s.buf b { s.buf b with blockno, valid, dirty } c = s.buf c :=
    fun c hc => update_of_ne hc _ _
  have hne : ∀ c ∈ l, c ≠ b := fun c hc he => h.notMem ho (he ▸ hc)
  refine ⟨h.linked.congr fun c hc => ?_,h.nodup,working_congr h.working rfl fun c hc => ?_,h.overrun,h.queued,?_,h.order⟩
  · exact congrArg Buf.qnext (hother c (hne c hc))
  · exact congrArg Buf.dirty (hother c (hne c hc))
  · intro q c d before hq
    obtain ⟨hheld,haw⟩ := h.waiting q c d before hq
    have hc := hother c (h.ne ho hq)
    exact ⟨hheld,haw.congr (congrArg Buf.valid hc) (congrArg Buf.dirty hc) rfl⟩

theorem Queued.finish (h : Queued s l) {c : Command} (hc : s.disk = some c) :
    Queued { s with disk := some { c with finished := true } } l := by
  refine ⟨h.linked,h.nodup,?_,h.overrun,h.queued,h.waiting,h.order⟩
  have hw := h.working
  cases l with
  | nil =>
    rw [Working,hc] at hw
    cases hw
  | cons b l =>
    obtain ⟨finished,hf⟩ := hw
    rw [hc] at hf
    cases hf
    exact ⟨true,rfl⟩

theorem Queued.recheck (h : Queued s l) (hr : recheck s p = some t) : Queued t l := by
  unfold Ide.recheck at hr
  split at hr
  · cases hr
  · rename_i b dirty before hp
    cases hr
    split
    · rename_i hclean
      have hother : ∀ q, q ≠ p → update s.phase p .idle q = s.phase q :=
        fun q hq => update_of_ne hq _ _
      refine ⟨h.linked,h.nodup,h.working,h.overrun,?_,?_,h.order⟩
      · intro c hc
        obtain ⟨q,d,k,hq⟩ := h.queued c hc
        -- The process that returns waits for a buffer that has left the queue.
        have hqp : q ≠ p := by
          rintro rfl
          rw [hp] at hq
          cases hq
          rcases (h.waiting q b dirty before hp).2 with hin | hout
          · rw [hin.2.2.1] at hclean
            cases hclean
          · exact hout.1 hc
        exact ⟨q,d,k,(hother q hqp).trans hq⟩
      · intro q c d k hq
        have hqp : q ≠ p := by
          rintro rfl
          exact Phase.noConfusion ((update_self q Phase.idle s.phase).symm.trans hq)
        exact h.waiting q c d k ((hother q hqp).symm.trans hq)
    · exact h

section Enqueue

theorem setQnext_qnext (s : Sys) (b : BufNo) (q : Option BufNo) :
    (s.setQnext b q).qnext = Function.update s.qnext b q := by
  funext c
  by_cases hc : c = b
  · subst hc
    simp [Sys.setQnext,Sys.qnext]
  · simp [Sys.setQnext,Sys.qnext,update_of_ne hc]

theorem setQnext_flags (s : Sys) (b c : BufNo) (q : Option BufNo) :
    ((s.setQnext b q).buf c).valid = (s.buf c).valid ∧ ((s.setQnext b q).buf c).dirty = (s.buf c).dirty := by
  by_cases hc : c = b
  · subst hc
    simp [Sys.setQnext]
  · simp [Sys.setQnext,update_of_ne hc]

theorem append_none (h : s.idequeue = none) (b : BufNo) :
    append s b = { s.setQnext b none with idequeue := some b } := by
  simp only [append,show (s.setQnext b none).idequeue = none from h]

theorem append_some {j : BufNo} (h : s.idequeue = some j) (b : BufNo) : append s b =
    (s.setQnext b none).setQnext (last (s.setQnext b none).qnext NBUF j) (some b) := by
  simp only [append,show (s.setQnext b none).idequeue = some j from h]

structure Relinked (s t : Sys) : Prop where
  valid : ∀ c, (t.buf c).valid = (s.buf c).valid
  dirty : ∀ c, (t.buf c).dirty = (s.buf c).dirty
  disk : t.disk = s.disk
  overrun : t.overrun = s.overrun
  holder : t.holder = s.holder
  phase : t.phase = s.phase
  enqueued : t.enqueued = s.enqueued
  completed : t.completed = s.completed

theorem append_relinked (s : Sys) (b : BufNo) : Relinked s (append s b) := by
  have h := fun c => setQnext_flags s b c none
  cases hq : s.idequeue with
  | none =>
    rw [append_none hq]
    exact ⟨fun c => (h c).1,fun c => (h c).2,rfl,rfl,rfl,rfl,rfl,rfl⟩
  | some j =>
    rw [append_some hq]
    have h' := fun c => setQnext_flags (s.setQnext b none) (last (s.setQnext b none).qnext NBUF j) c (some b)
    exact ⟨fun c => (h' c).1.trans (h c).1,fun c => (h' c).2.trans (h c).2,rfl,rfl,rfl,rfl,rfl,rfl⟩

theorem append_linked (h : Linked s.qnext s.idequeue l) (hnd : l.Nodup) (hb : b ∉ l) :
    Linked (append s b).qnext (append s b).idequeue (l ++ [b]) := by
  have hclear : Linked (s.setQnext b none).qnext s.idequeue l := by
    rw [setQnext_qnext]
    exact h.update_of_notMem hb none
  have hnone : (s.setQnext b none).qnext b = none := by rw [setQnext_qnext,update_self]
  cases hq : s.idequeue with
  | none =>
    rw [hq] at hclear
    cases l with
    | cons j l => simp at hclear
    | nil =>
      rw [append_none hq]
      exact ⟨rfl,hnone⟩
  | some j =>
    rw [hq] at hclear
    obtain ⟨front,k,rfl⟩ := (List.eq_nil_or_concat' l).resolve_left (by rintro rfl; simp at hclear)
    have hlen := Linked.length_le hnd
    rw [List.length_append,Fintype.card_fin] at hlen
    have hlast := hclear.last (show front.length ≤ NBUF by omega)
    have hsnoc := hclear.snoc hnd hb hnone
    rw [append_some hq,setQnext_qnext,hlast]
    change Linked _ s.idequeue _
    rw [hq,List.append_assoc]
    exact hsnoc

theorem append_idequeue (h : Linked s.qnext s.idequeue l) (hnd : l.Nodup) (hb : b ∉ l) :
    (append s b).idequeue = some b ↔ l = [] := by
  have happ := append_linked h hnd hb
  cases l with
  | nil => simpa using happ.1
  | cons j l =>
    have hjb : j ≠ b := fun he => hb (by simp [he])
    simp [happ.1,hjb]

def joined (s : Sys) (p : Pid) (b : BufNo) : Sys :=
  { append s b with
    enqueued := (append s b).enqueued ++ [b]
    phase := Function.update (append s b).phase p (.waiting b (s.buf b).dirty (s.commands b).length) }

theorem iderw_eq (s : Sys) (p : Pid) (b : BufNo) :
    iderw s p b = if (append s b).idequeue = some b then idestart (joined s p b) b else some (joined s p b) := rfl

/-- The caller and its buffer join the queue, whatever the disk does. -/
theorem Queued.join (h : Queued s l) (ho : s.owns p b = true) (hneed : (s.buf b).clean = false)
    {d : Option Command} (hworking : Working { joined s p b with disk := d, overrun := false } (l ++ [b])) :
    Queued { joined s p b with disk := d, overrun := false } (l ++ [b]) := by
  have hb := h.notMem ho
  have hr := append_relinked s b
  have hidle : s.phase p = .idle := by
    simp only [Sys.owns,Bool.and_eq_true,decide_eq_true_eq] at ho
    exact ho.2
  have hheld : s.holder b = some p := by
    simp only [Sys.owns,Bool.and_eq_true,decide_eq_true_eq] at ho
    exact ho.1
  have hself : (joined s p b).phase p = .waiting b (s.buf b).dirty (s.commands b).length := update_self _ _ _
  have hother : ∀ q, q ≠ p → (joined s p b).phase q = s.phase q := by
    intro q hq
    exact (update_of_ne hq _ _).trans (congrFun hr.phase q)
  have hcommands : ∀ c, (joined s p b).commands c = s.commands c := by
    intro c
    rw [Sys.commands,Sys.commands,show (joined s p b).completed = s.completed from hr.completed]
  refine ⟨append_linked h.linked h.nodup hb,?_,hworking,rfl,?_,?_,?_⟩
  · rw [List.nodup_append]
    exact ⟨h.nodup,List.nodup_singleton b,fun c hc c' hc' he => hb (by simp_all)⟩
  · intro c hc
    rcases List.mem_append.mp hc with hold | hnew
    · obtain ⟨q,d',k,hq⟩ := h.queued c hold
      have hqp : q ≠ p := by
        rintro rfl
        rw [hidle] at hq
        cases hq
      exact ⟨q,d',k,(hother q hqp).trans hq⟩
    · obtain rfl := List.mem_singleton.mp hnew
      exact ⟨p,_,_,hself⟩
  · intro q c d' k hq
    by_cases hqp : q = p
    · subst hqp
      cases hself.symm.trans hq
      refine ⟨(congrFun hr.holder b).trans hheld,.inl ⟨by simp,hr.dirty b,?_,?_⟩⟩
      · change ((append s b).buf b).clean = false
        rw [Buf.clean,hr.valid,hr.dirty]
        exact hneed
      · exact congrArg List.length (hcommands b)
    · have hq' := (hother q hqp).symm.trans hq
      obtain ⟨hheld',haw⟩ := h.waiting q c d' k hq'
      have hcb : c ≠ b := h.ne ho hq'
      refine ⟨(congrFun hr.holder c).trans hheld',?_⟩
      have hmem : c ∈ l ++ [b] ↔ c ∈ l := by simp [hcb]
      have hc := haw.congr (t := { joined s p b with disk := d, overrun := false }) (hr.valid c) (hr.dirty c)
        hr.completed
      rw [Awaits,hmem]
      exact hc
  · change (append s b).enqueued ++ [b] = (append s b).completed.map Prod.fst ++ (l ++ [b])
    rw [hr.enqueued,hr.completed,h.order,List.append_assoc]

theorem Queued.iderw (h : Queued s l) (ho : s.owns p b = true) (hneed : (s.buf b).clean = false)
    (hi : iderw s p b = some t) : Queued t (l ++ [b]) := by
  have hr := append_relinked s b
  have hhead := append_idequeue h.linked h.nodup (h.notMem ho)
  rw [iderw_eq] at hi
  split at hi
  · rename_i hempty
    obtain rfl := hhead.mp hempty
    unfold idestart at hi
    split at hi
    · cases hi
    · cases hi
      have hidle : (append s b).disk = none := hr.disk.trans h.working
      have hrun : (append s b).overrun = false := hr.overrun.trans h.overrun
      change Queued { joined s p b with
        disk := some ⟨b,cmdOf ((append s b).buf b).dirty,false⟩
        overrun := (append s b).overrun || (append s b).disk.isSome } _
      rw [hrun,hidle]
      exact h.join ho hneed ⟨false,rfl⟩
  · rename_i hne
    cases hi
    have hl : l ≠ [] := fun he => hne (hhead.mpr he)
    have hsame : joined s p b = { joined s p b with disk := s.disk, overrun := false } := by
      have hd : (joined s p b).disk = s.disk := hr.disk
      have ho' : (joined s p b).overrun = false := hr.overrun.trans h.overrun
      rw [← hd,← ho']
    rw [hsame]
    refine h.join ho hneed ?_
    obtain ⟨j,l',rfl⟩ := List.exists_cons_of_ne_nil hl
    obtain ⟨finished,hf⟩ := h.working
    refine ⟨finished,?_⟩
    change s.disk = some ⟨j,cmdOf ((append s b).buf j).dirty,finished⟩
    rw [hr.dirty j]
    exact hf

end Enqueue

section Interrupt

def served (s : Sys) (b : BufNo) (c : Command) : Sys :=
  { s with
    disk := none
    idequeue := (s.buf b).qnext
    buf := Function.update s.buf b { s.buf b with valid := true, dirty := false }
    completed := s.completed ++ [(c.buf,c.cmd)] }

theorem served_qnext (s : Sys) (b : BufNo) (c : Command) : (served s b c).qnext = s.qnext := by
  funext j
  by_cases hj : j = b
  · subst hj
    simp [served,Sys.qnext]
  · simp [served,Sys.qnext,update_of_ne hj]

theorem served_commands (s : Sys) (b : BufNo) (c : Command) (j : BufNo) :
    (served s b c).commands j = s.commands j ++ if c.buf = j then [c.cmd] else [] := by
  simp only [Sys.commands,served,List.filter_append,List.map_append]
  congr 1
  split <;> simp_all

theorem Queued.serve (h : Queued s (b :: l)) {c : Command} (hc : s.disk = some c) {d : Option Command}
    (hworking : Working { served s b c with disk := d, overrun := false } l) :
    Queued { served s b c with disk := d, overrun := false } l := by
  obtain ⟨finished,hf⟩ := h.working
  rw [hc] at hf
  cases hf
  obtain ⟨hhead,hlinked⟩ := h.linked
  obtain ⟨hbl,hnd⟩ := List.nodup_cons.mp h.nodup
  have hflags : ∀ j, j ≠ b → (served s b ⟨b,cmdOf (s.buf b).dirty,finished⟩).buf j = s.buf j :=
    fun j hj => update_of_ne hj _ _
  refine ⟨?_,hnd,hworking,rfl,fun j hj => h.queued j (by simp [hj]),?_,?_⟩
  · change Linked (served s b ⟨b,cmdOf (s.buf b).dirty,finished⟩).qnext (s.buf b).qnext l
    rw [served_qnext]
    exact hlinked
  · intro q j d' k hq
    obtain ⟨hheld,haw⟩ := h.waiting q j d' k hq
    refine ⟨hheld,?_⟩
    have hcommands := served_commands s b ⟨b,cmdOf (s.buf b).dirty,finished⟩ j
    by_cases hj : j = b
    · subst hj
      rw [if_pos rfl] at hcommands
      rcases haw with hin | hout
      · refine .inr ⟨hbl,?_,s.commands j,?_,hin.2.2.2⟩
        · simp [served,Buf.clean]
        · rw [← hin.2.1]
          exact hcommands
      · exact absurd (List.mem_cons_self ..) hout.1
    · rw [if_neg (Ne.symm hj),List.append_nil] at hcommands
      have hbuf := hflags j hj
      have hmem : j ∈ b :: l ↔ j ∈ l := by simp [hj]
      have hclean := congrArg Buf.clean hbuf
      have hdirty := congrArg Buf.dirty hbuf
      rw [Awaits,hmem,← hdirty,← hclean,← hcommands] at haw
      exact haw
  · change s.enqueued = (s.completed ++ [(b,cmdOf (s.buf b).dirty)]).map Prod.fst ++ l
    rw [h.order]
    simp

theorem ideintr_eq (h : s.idequeue = some b) (c : Command) : ideintr s c =
    match (s.buf b).qnext with
    | none => some (served s b c)
    | some j => idestart (served s b c) j := by
  simp only [ideintr,h]
  rfl

theorem Queued.ideintr (h : Queued s l) {c : Command} (hc : s.disk = some c) (hi : ideintr s c = some t) :
    ∃ l', Queued t l' := by
  cases l with
  | nil =>
    have hw := h.working
    rw [Working,hc] at hw
    cases hw
  | cons b l =>
    have hrun : (served s b c).overrun = false := h.overrun
    have hnext : Linked s.qnext (s.buf b).qnext l := h.linked.2
    rw [ideintr_eq h.linked.1] at hi
    refine ⟨l,?_⟩
    cases l with
    | nil =>
      rw [linked_nil.mp hnext] at hi
      cases hi
      have hdone := h.serve hc (d := none) rfl
      rw [← hrun] at hdone
      exact hdone
    | cons j l =>
      rw [hnext.1] at hi
      simp only [idestart] at hi
      split at hi
      · cases hi
      · cases hi
        have hdone := h.serve hc (d := some ⟨j,cmdOf ((served s b c).buf j).dirty,false⟩) ⟨false,rfl⟩
        rw [hrun]
        exact hdone

end Interrupt

theorem Queued.step {a : Action} (h : Queued s l) (hstep : Step s a t) : ∃ l', Queued t l' := by
  cases a with
  | lock p b =>
    simp only [Step,next] at hstep
    split at hstep
    · cases hstep
      exact ⟨l,h.lock ‹_› p⟩
    · cases hstep
  | unlock p b =>
    simp only [Step,next] at hstep
    split at hstep
    · cases hstep
      exact ⟨l,h.unlock ‹_›⟩
    · cases hstep
  | assign p b blockno valid dirty =>
    simp only [Step,next] at hstep
    split at hstep
    · cases hstep
      exact ⟨l,h.assign ‹_› blockno valid dirty⟩
    · cases hstep
  | iderw p b =>
    simp only [Step,next] at hstep
    split at hstep
    · rename_i hc
      exact ⟨_,h.iderw hc.1 hc.2 hstep⟩
    · cases hstep
  | recheck p => exact ⟨l,h.recheck hstep⟩
  | finish =>
    simp only [Step,next] at hstep
    split at hstep
    · rename_i c hc
      split at hstep
      · cases hstep
      · cases hstep
        exact ⟨l,h.finish hc⟩
    · cases hstep
  | ideintr =>
    simp only [Step,next] at hstep
    split at hstep
    · rename_i c hc
      split at hstep
      · exact h.ideintr hc hstep
      · cases hstep
    · cases hstep

theorem queued_run {buf : BufNo → Buf} {acts : List Action} (h : Run Step (boot buf) acts s) : ∃ l, Queued s l :=
  h.invariant (I := fun _ u => ∃ l, Queued u l) ⟨[],queued_boot buf⟩
    fun _ _ _ _ _ ⟨_,hu⟩ hstep => hu.step hstep

/-- A process returns from `iderw` only when its buffer has left the queue. -/
theorem Queued.returns (h : Queued s l) {dirty : Bool} {before : ℕ} (hp : s.phase p = .waiting b dirty before)
    (hstep : Step s (.recheck p) t) (hidle : t.phase p = .idle) :
    (∃ cs, t.commands b = cs ++ [cmdOf dirty] ∧ cs.length = before) ∧ (t.buf b).valid = true ∧
      (t.buf b).dirty = false := by
  simp only [Step,next,Ide.recheck,hp,Option.some.injEq] at hstep
  split at hstep
  · rename_i hclean
    subst hstep
    rcases (h.waiting p b dirty before hp).2 with hin | hout
    · rw [hin.2.2.1] at hclean
      cases hclean
    · simp only [Buf.clean,Bool.and_eq_true,Bool.not_eq_true'] at hclean
      exact ⟨hout.2.2,hclean⟩
  · subst hstep
    rw [hp] at hidle
    cases hidle

/-- However processes, disk and interrupts interleave: the links of the queue list each buffer at
most once; the disk works on the head and is idle exactly when the queue is empty; requests
complete in the order in which they were queued; and a process returns from `iderw` after exactly
one command for its buffer, a write if it was dirty and a read otherwise. -/
theorem requests_in_order {buf : BufNo → Buf} {acts : List Action} (h : Run Step (boot buf) acts s) :
    ∃ l, Linked s.qnext s.idequeue l ∧ l.Nodup ∧ s.overrun = false ∧
      (s.disk = none ↔ s.idequeue = none) ∧
      (∀ c, s.disk = some c → s.idequeue = some c.buf ∧ c.cmd = cmdOf (s.buf c.buf).dirty) ∧
      s.enqueued = s.completed.map Prod.fst ++ l ∧
      ∀ p b dirty before t, s.phase p = .waiting b dirty before → Step s (.recheck p) t → t.phase p = .idle →
        (∃ cs, t.commands b = cs ++ [cmdOf dirty] ∧ cs.length = before) ∧ (t.buf b).valid = true ∧
          (t.buf b).dirty = false := by
  obtain ⟨l,hq⟩ := queued_run h
  refine ⟨l,hq.linked,hq.nodup,hq.overrun,?_,?_,hq.order,fun p b dirty before t hp => hq.returns hp⟩
  · have hw := hq.working
    have hl := hq.linked
    cases l with
    | nil => exact iff_of_true hw hl
    | cons j l =>
      obtain ⟨finished,hf⟩ := hw
      rw [hf,hl.1]
      simp
  · intro c hc
    have hw := hq.working
    cases l with
    | nil =>
      rw [Working,hc] at hw
      cases hw
    | cons j l =>
      obtain ⟨finished,hf⟩ := hw
      rw [hc] at hf
      cases hf
      exact ⟨hq.linked.1,rfl⟩

def twoReads : List Action :=
  [Action.lock 1 0,Action.lock 2 1,Action.iderw 1 0,Action.iderw 2 1,Action.finish,Action.ideintr,Action.recheck 1]

theorem requests_in_order_twoReads : ∃ s, Run Step (boot fun _ => ⟨0,false,false,none⟩) twoReads s ∧
    s.completed = [(0,.read)] ∧ s.phase 1 = .idle ∧ (s.disk = none ↔ s.idequeue = none) := by
  obtain ⟨s,hs⟩ : ∃ s, twoReads.foldlM next (boot fun _ => ⟨0,false,false,none⟩) = some s := ⟨_,rfl⟩
  have hrun := Run.of_foldlM hs
  obtain ⟨l,_,_,_,hidle,_⟩ := requests_in_order hrun
  refine ⟨s,hrun,?_,?_,hidle⟩
  · cases hs
    rfl
  · cases hs
    rfl

end Xv6.Ide
