import Xv6.Pipes.System

/-! # Pipes are FIFOs

The buffer of a pipe holds the bytes that have been stored and not yet delivered, in
order, however often the two counters have wrapped.
-/
namespace Xv6.Pipes
open RingBuffer Runs
variable {s s' : Sys} {p : Pid} {a : Action}

inductive Moved (s s' : Sys) : Prop
  | same (ring : s'.pipe.data = s.pipe.data ∧ s'.pipe.nread = s.pipe.nread ∧ s'.pipe.nwrite = s.pipe.nwrite)
    (bytes : s'.stored = s.stored ∧ s'.delivered = s.delivered)
  | store (b : Byte) (room : ¬ s.pipe.full) (pipe : s'.pipe = { s.pipe with
      data := Function.update s.pipe.data (place PIPESIZE s.pipe.nwrite) b
      nwrite := s.pipe.nwrite+1 }) (bytes : s'.stored = s.stored ++ [b] ∧ s'.delivered = s.delivered)
  | deliver (some : ¬ s.pipe.empty) (pipe : s'.pipe = { s.pipe with nread := s.pipe.nread+1 })
    (bytes : s'.stored = s.stored ∧ s'.delivered = s.delivered ++ [s.pipe.data (place PIPESIZE s.pipe.nread)])

theorem Moved.of_eq (hp : s'.pipe = s.pipe) (hs : s'.stored = s.stored) (hd : s'.delivered = s.delivered) :
    Moved s s' := .same ⟨by rw [hp],by rw [hp],by rw [hp]⟩ ⟨hs,hd⟩

theorem moved_pipewrite (s : Sys) (p : Pid) (rest : List Byte) : Moved s (pipewrite s p rest) := by
  cases rest with
  | nil => exact .of_eq rfl rfl rfl
  | cons b rest =>
    rw [pipewrite]
    split
    · split
      · exact .of_eq rfl rfl rfl
      · exact .of_eq rfl rfl rfl
    · rename_i hfull
      exact .store b hfull rfl ⟨rfl,rfl⟩

theorem moved_piperead (s : Sys) (p : Pid) (n : ℕ) : Moved s (piperead s p n) := by
  unfold piperead
  split
  · split
    · exact .of_eq rfl rfl rfl
    · exact .of_eq rfl rfl rfl
  · exact .of_eq rfl rfl rfl

theorem moved_pipecopy (s : Sys) (p : Pid) (n : ℕ) : Moved s (pipecopy s p n) := by
  cases n with
  | zero => exact .of_eq rfl rfl rfl
  | succ n =>
    rw [pipecopy]
    split
    · exact .of_eq rfl rfl rfl
    · rename_i hempty
      exact .deliver hempty rfl ⟨rfl,rfl⟩

theorem moved_advance (s : Sys) (p : Pid) (k : Point) : Moved s (advance s p k) := by
  cases k with
  | write rest => exact moved_pipewrite s p rest
  | writeSleep rest => exact .of_eq rfl rfl rfl
  | read n => exact moved_piperead s p n
  | copy n => exact moved_pipecopy s p n
  | close writable => cases writable <;> exact .same ⟨rfl,rfl,rfl⟩ ⟨rfl,rfl⟩
  | closed =>
    rw [advance]
    split
    · exact .of_eq rfl rfl rfl
    · exact .of_eq rfl rfl rfl
  | leave => exact .of_eq rfl rfl rfl

theorem moved_stepOf (h : stepOf s p = some s') : Moved s s' := by
  unfold stepOf at h
  cases hp : s.phase p with
  | holds k =>
    simp only [hp] at h
    cases h
    exact moved_advance s p k
  | _ =>
    simp only [hp] at h
    first
      | cases h; exact .of_eq rfl rfl rfl
      | cases h
      | split at h <;> cases h
        exact .of_eq rfl rfl rfl

theorem moved_next (h : Step s a s') : Moved s s' := by
  have hcall : ∀ p k, call s p k = some s' → Moved s s' := by
    intro p k h
    unfold call at h
    split at h <;> cases h
    exact .of_eq rfl rfl rfl
  cases a with
  | write p bytes => exact hcall p _ h
  | read p n => exact hcall p _ h
  | close p writable => exact hcall p _ h
  | kill p =>
    simp only [Step,next] at h
    split at h <;> cases h
    exact .of_eq rfl rfl rfl
  | step p => exact moved_stepOf h

def Fifo (s : Sys) : Prop := ∃ pending, Holds s.pipe.data s.pipe.nread s.pipe.nwrite pending ∧
  s.stored = s.delivered ++ pending

theorem Fifo.moved (h : Fifo s) (hm : Moved s s') : Fifo s' := by
  obtain ⟨pending,hh,hbytes⟩ := h
  have hdvd : PIPESIZE ∣ 2^32 := by decide
  have hlt : PIPESIZE < 2^32 := by decide
  cases hm with
  | same ring bytes =>
    refine ⟨pending,?_,by rw [bytes.1,bytes.2,hbytes]⟩
    rw [ring.1,ring.2.1,ring.2.2]
    exact hh
  | store b room pipe bytes =>
    have hroom : pending.length < PIPESIZE :=
      lt_of_le_of_ne hh.length fun he => room ((hh.full_iff hlt).mpr he)
    refine ⟨pending ++ [b],?_,by rw [bytes.1,bytes.2,hbytes,List.append_assoc]⟩
    rw [pipe]
    exact hh.push hdvd hroom b
  | deliver some pipe bytes =>
    cases pending with
    | nil => exact absurd ((hh.empty_iff hlt).mpr rfl) some
    | cons x pending =>
      obtain ⟨hx,hrest⟩ := hh.pop
      refine ⟨pending,?_,?_⟩
      · rw [pipe]
        exact hrest
      · rw [bytes.1,bytes.2,hbytes,hx,List.append_assoc]
        rfl

theorem Sys.Fresh.fifo (h : s.Fresh) : Fifo s := by
  refine ⟨[],?_,by rw [h.stored,h.delivered]; rfl⟩
  rw [h.nread,h.nwrite]
  exact holds_nil _ _

/-- In every run the reads deliver a prefix of what the writes have stored, and the rest is in the
buffer: no byte is lost, duplicated or overwritten. -/
theorem pipe_fifo {s₀ : Sys} {t : List Action} (h₀ : s₀.Fresh) (h : Run Step s₀ t s) :
    (s.pipe.nwrite-s.pipe.nread).toNat ≤ PIPESIZE ∧ s.delivered <+: s.stored ∧
    s.stored.length = s.delivered.length+(s.pipe.nwrite-s.pipe.nread).toNat ∧
    ∀ k, k < (s.pipe.nwrite-s.pipe.nread).toNat →
      s.stored[s.delivered.length+k]? = some (s.pipe.data (place PIPESIZE (s.pipe.nread+BitVec.ofNat 32 k))) := by
  have hfifo : Fifo s := Run.invariant (I := fun _ s => Fifo s) h₀.fifo
    (fun _ _ _ _ _ hf hstep => hf.moved (moved_next hstep)) h
  obtain ⟨pending,hh,hbytes⟩ := hfifo
  rw [hh.difference (by decide),hbytes]
  refine ⟨hh.length,List.prefix_append _ _,List.length_append,?_⟩
  intro k hk
  rw [List.getElem?_append_right (Nat.le_add_right _ _),Nat.add_sub_cancel_left,hh.item k hk]
  simp [hk]

def freshPipe : Sys := ⟨⟨fun _ => 0,0,0,true,true⟩,false,none,none,fun _ => .outside,fun _ => false,[],[]⟩

theorem fresh_freshPipe : freshPipe.Fresh := ⟨rfl,rfl,rfl,rfl,fun _ => rfl,rfl,rfl⟩

theorem pipe_fifo_two_bytes : ∃ s, Run Step freshPipe [.write 0 [5,6],.step 0,.step 0,.step 0,.step 0,.step 0,.step 0,
    .step 0,.read 1 1,.step 1,.step 1,.step 1] s ∧ s.delivered = [5] ∧ s.stored = [5,6] ∧
    s.delivered <+: s.stored := by
  obtain ⟨s,hs,h1,h2⟩ : ∃ s, List.foldlM next freshPipe [.write 0 [5,6],.step 0,.step 0,.step 0,.step 0,.step 0,.step 0,
      .step 0,.read 1 1,.step 1,.step 1,.step 1] = some s ∧ s.delivered = [5] ∧ s.stored = [5,6] := ⟨_,rfl,rfl,rfl⟩
  have hrun := Run.of_foldlM hs
  exact ⟨s,hrun,h1,h2,(pipe_fifo fresh_freshPipe hrun).2.1⟩

end Xv6.Pipes
