import Xv6.Console.Input

/-! # The line discipline of the console

The ring holds the committed characters that nobody has taken yet, and behind them the
line that is being edited. Whatever arrives and whoever reads, the characters that the
readers take are the committed ones, in order and once each.
-/
namespace Xv6.Console
open RingBuffer Runs Function
variable {s : Input} {queue pending got taken : List UInt8} {c : UInt8} {killed : Bool} {target n : ℕ}

structure Ring (s : Input) (queue pending : List UInt8) : Prop where
  holds : Holds s.buf s.r s.e (queue ++ pending)
  commit : s.w = s.r+BitVec.ofNat 32 queue.length

theorem INPUT_BUF_dvd : INPUT_BUF ∣ 2^32 := ⟨2^25,rfl⟩

theorem INPUT_BUF_lt : INPUT_BUF < 2^32 := by decide

namespace Ring

theorem lengths (h : Ring s queue pending) : queue.length+pending.length ≤ INPUT_BUF := by
  have := h.holds.length
  rwa [List.length_append] at this

theorem e_sub_r (h : Ring s queue pending) : (s.e-s.r).toNat = queue.length+pending.length := by
  rw [h.holds.difference INPUT_BUF_lt,List.length_append]

theorem w_sub_r (h : Ring s queue pending) : (s.w-s.r).toNat = queue.length := by
  have := h.lengths
  have := INPUT_BUF_lt
  rw [h.commit,BitVec.add_comm,BitVec.add_sub_cancel,BitVec.toNat_ofNat,Nat.mod_eq_of_lt (by omega)]

theorem e_eq (h : Ring s queue pending) : s.e = s.w+BitVec.ofNat 32 pending.length := by
  rw [h.holds.count,h.commit,List.length_append,BitVec.ofNat_add,BitVec.add_assoc]

theorem e_sub_w (h : Ring s queue pending) : (s.e-s.w).toNat = pending.length := by
  have := h.lengths
  have := INPUT_BUF_lt
  rw [h.e_eq,BitVec.add_comm,BitVec.add_sub_cancel,BitVec.toNat_ofNat,Nat.mod_eq_of_lt (by omega)]

theorem editing (h : Ring s queue pending) : s.e ≠ s.w ↔ pending ≠ [] := by
  rw [not_iff_not,← List.length_eq_zero_iff,← h.e_sub_w]
  constructor
  · intro he
    simp [he]
  · intro hz
    have hd : s.e-s.w = 0#32 := BitVec.eq_of_toNat_eq (by simpa using hz)
    rw [← BitVec.sub_add_cancel s.e s.w,hd,BitVec.zero_add]

theorem waiting (h : Ring s queue pending) : s.r = s.w ↔ queue = [] := by
  rw [← List.length_eq_zero_iff,← h.w_sub_r]
  constructor
  · rintro hr
    simp [hr]
  · intro hz
    have hd : s.w-s.r = 0#32 := BitVec.eq_of_toNat_eq (by simpa using hz)
    rw [← BitVec.sub_add_cancel s.w s.r,hd,BitVec.zero_add]

theorem between_r_w (h : Ring s queue pending) : s.between s.r s.w = queue := by
  have hw := h.holds.window (Nat.zero_le queue.length) (by simp)
  rw [Input.between,h.w_sub_r]
  simpa [Input.at] using hw

/-- The characters between the write and the edit index are the line being edited. -/
theorem between_w_e (h : Ring s queue pending) : s.between s.w s.e = pending := by
  have hw := h.holds.window (i := queue.length) (j := queue.length+pending.length) (by omega) (by simp)
  rw [Nat.add_sub_cancel_left,← h.commit,List.drop_left,List.take_length] at hw
  rw [Input.between,h.e_sub_w]
  exact hw

theorem erase {x : UInt8} (h : Ring s queue (pending ++ [x])) :
    s.at (s.e-1) = x ∧ Ring { s with e := s.e-1 } queue pending := by
  have hh := h.holds
  rw [← List.append_assoc] at hh
  exact ⟨hh.pop_last.1,hh.pop_last.2,h.commit⟩

theorem take {x : UInt8} (h : Ring s (x :: queue) pending) :
    s.at s.r = x ∧ Ring { s with r := s.r+1 } queue pending := by
  have hpop := h.holds.pop
  refine ⟨hpop.1,hpop.2,?_⟩
  change s.w = s.r+1+_
  rw [h.commit,List.length_cons,Nat.add_comm,BitVec.ofNat_add,BitVec.add_assoc]
  rfl

end Ring

section Interrupt

structure Erased (s t : Input) : Prop where
  buf : t.buf = s.buf
  r : t.r = s.r
  w : t.w = s.w

theorem killLine_erased (fuel : ℕ) (s : Input) : Erased s (killLine fuel s) := by
  induction fuel generalizing s with
  | zero => exact ⟨rfl,rfl,rfl⟩
  | succ fuel ih =>
    rw [killLine]
    split
    · exact ⟨(ih _).buf,(ih _).r,(ih _).w⟩
    · exact ⟨rfl,rfl,rfl⟩

theorem killLine_ring (fuel : ℕ) (h : Ring s queue pending) : ∃ rest, Ring (killLine fuel s) queue rest := by
  induction fuel generalizing s pending with
  | zero => exact ⟨pending,h⟩
  | succ fuel ih =>
    rw [killLine]
    split
    · rename_i hc
      obtain ⟨rest,x,rfl⟩ := (List.eq_nil_or_concat' pending).resolve_left (h.editing.mp hc.1)
      exact ih h.erase.2
    · exact ⟨pending,h⟩

theorem backspace_erased (s : Input) : Erased s (backspace s) := by
  unfold backspace
  split <;> exact ⟨rfl,rfl,rfl⟩

theorem backspace_ring (h : Ring s queue pending) : ∃ rest, Ring (backspace s) queue rest := by
  unfold backspace
  split
  · rename_i hc
    obtain ⟨rest,x,rfl⟩ := (List.eq_nil_or_concat' pending).resolve_left (h.editing.mp hc)
    exact ⟨rest,h.erase.2⟩
  · exact ⟨pending,h⟩

def Erases (c : UInt8) : Prop := c = ctrl 'U' ∨ c = ctrl 'H' ∨ c = delete

theorem key_erased (hc : Erases c) (s : Input) : Erased s (key s c) := by
  rcases hc with rfl | rfl | rfl
  · exact killLine_erased _ _
  · exact backspace_erased _
  · exact backspace_erased _

theorem key_erases_ring (hc : Erases c) (h : Ring s queue pending) : ∃ rest, Ring (key s c) queue rest := by
  rcases hc with rfl | rfl | rfl
  · exact killLine_ring _ h
  · exact backspace_ring h
  · exact backspace_ring h

theorem Erased.between (h : Erased s (key s c)) : (key s c).between s.w (key s c).w = [] := by
  rw [h.w]
  simp [Input.between]

/-- A character that is stored stays in the line, or commits the whole line. -/
theorem insert_ring (h : Ring s queue pending) (c : UInt8) :
    ∃ new rest, Ring (insert c s) (queue ++ new) rest ∧ (insert c s).between s.w (insert c s).w = new := by
  have hkeep : ∀ t : Input, t.w = s.w → t.between s.w t.w = [] := by
    intro t ht
    rw [ht]
    simp [Input.between]
  unfold insert
  split
  · rename_i hroom
    have hlen : (queue ++ pending).length < INPUT_BUF := by
      rw [List.length_append,← h.e_sub_r]
      exact hroom.2
    dsimp only
    generalize (if c = carriageReturn then newline else c) = x
    have hpush := h.holds.push INPUT_BUF_dvd hlen x
    rw [List.append_assoc] at hpush
    have hedit : Ring { s with buf := update s.buf (place INPUT_BUF s.e) x, e := s.e+1 } queue
        (pending ++ [x]) := ⟨hpush,h.commit⟩
    split
    · refine ⟨pending ++ [x],[],⟨?_,?_⟩,hedit.between_w_e⟩
      · simpa using hpush
      · exact hpush.count
    · exact ⟨[],pending ++ [x],by simpa using hedit,hkeep _ rfl⟩
  · exact ⟨[],pending,by simpa using h,hkeep _ rfl⟩

theorem key_ring (h : Ring s queue pending) (c : UInt8) :
    ∃ new rest, Ring (key s c) (queue ++ new) rest ∧ (key s c).between s.w (key s c).w = new := by
  by_cases hc : Erases c
  · obtain ⟨rest,hr⟩ := key_erases_ring hc h
    exact ⟨[],rest,by simpa using hr,(key_erased hc s).between⟩
  · rw [Erases,not_or] at hc
    unfold key
    split
    · exact ⟨[],pending,by simpa using h,by simp [Input.between]⟩
    · rw [if_neg hc.1,if_neg hc.2]
      exact insert_ring h c

end Interrupt

section Reading

structure Waiting (v : Reader) : Prop where
  count : v.got.length+v.n = v.target
  newline : newline ∉ v.got
  eof : EOF ∉ v.got

def Ended (target : ℕ) (got : List UInt8) : Stop → Prop
  | .newline => ∃ init, got = init ++ [newline] ∧ newline ∉ init ∧ got.length ≤ target
  | .limit => got.length = target ∧ newline ∉ got
  | .eof => got = [] ∧ 0 < target
  | .held => got ≠ [] ∧ newline ∉ got ∧ got.length < target
  | .killed => newline ∉ got ∧ got.length < target

structure Reads (sec : Section) (queue pending : List UInt8) (target : ℕ) (got taken : List UInt8) : Prop where
  split : ∃ xs rest, queue = xs ++ rest ∧ Ring sec.input rest pending ∧ sec.taken = taken ++ xs ∧
    sec.reader.got = got ++ xs.filter (· ≠ EOF) ∧
    xs.count EOF = (if sec.stop = some .eof then 1 else 0)
  asked : sec.reader.target = target
  eof : EOF ∉ sec.reader.got
  sleeping : sec.stop = none → Waiting sec.reader
  ended : ∀ stop, sec.stop = some stop → Ended target sec.reader.got stop

theorem consoleread_reads (h : Ring s queue pending) (hcount : got.length+n = target) (hnew : newline ∉ got)
    (heof : EOF ∉ got) : Reads (consoleread killed target n s got taken) queue pending target got taken := by
  induction n generalizing s queue got taken with
  | zero =>
    refine ⟨⟨[],queue,rfl,h,by simp [consoleread],by simp [consoleread],rfl⟩,rfl,heof,nofun,?_⟩
    rintro stop ⟨⟩
    exact ⟨hcount,hnew⟩
  | succ n ih =>
    have hlt : got.length < target := by omega
    rw [consoleread]
    split
    · have hwait : Waiting ⟨target,n+1,got⟩ := ⟨hcount,hnew,heof⟩
      refine ⟨⟨[],queue,rfl,h,by simp,by simp,?_⟩,rfl,heof,fun _ => hwait,?_⟩
      · cases killed <;> rfl
      · intro stop hstop
        cases killed with
        | false => cases hstop
        | true =>
          cases hstop
          exact ⟨hnew,hlt⟩
    · rename_i hne
      obtain ⟨x,rest,rfl⟩ := List.exists_cons_of_ne_nil (fun hq => hne (h.waiting.mpr hq))
      obtain ⟨hx,hring⟩ := h.take
      rw [hx]
      dsimp only
      split
      · rename_i heq
        split
        · rename_i hpart
          refine ⟨⟨[],x :: rest,rfl,?_,by simp,by simp,rfl⟩,rfl,heof,nofun,?_⟩
          · rw [BitVec.add_sub_cancel]
            exact h
          · rintro stop ⟨⟩
            refine ⟨?_,hnew,hlt⟩
            rintro rfl
            simp only [List.length_nil] at hcount
            omega
        · rename_i hfull
          refine ⟨⟨[x],rest,rfl,hring,rfl,by simp [heq],by simp [heq]⟩,rfl,heof,nofun,?_⟩
          rintro stop ⟨⟩
          have hzero : got.length = 0 := by omega
          exact ⟨List.length_eq_zero_iff.mp hzero,by omega⟩
      · rename_i hne
        split
        · rename_i heq
          refine ⟨⟨[x],rest,rfl,hring,rfl,by simp [hne],by simp [hne]⟩,rfl,?_,nofun,?_⟩
          · simpa [heof] using Ne.symm hne
          · rintro stop ⟨⟩
            refine ⟨got,by rw [heq],hnew,?_⟩
            simpa using hlt
        · rename_i hnl
          have hcount' : (got ++ [x]).length+n = target := by
            simp only [List.length_append,List.length_singleton]
            omega
          have hnew' : newline ∉ got ++ [x] := by simpa [hnew] using Ne.symm hnl
          have heof' : EOF ∉ got ++ [x] := by simpa [heof] using Ne.symm hne
          have hrec : Reads (consoleread killed target n { s with r := s.r+1 } (got ++ [x]) (taken ++ [x])) rest
              pending target (got ++ [x]) (taken ++ [x]) := ih hring hcount' hnew' heof'
          obtain ⟨⟨xs,rest',hsplit,hring',htaken,hgot,hcnt⟩,h2,h3,h4,h5⟩ := hrec
          refine ⟨⟨x :: xs,rest',by rw [hsplit]; rfl,hring',?_,?_,?_⟩,h2,h3,h4,h5⟩
          · rw [htaken]
            simp
          · rw [hgot]
            simp [hne]
          · rw [← hcnt,List.count_cons_of_ne hne]

end Reading

section System
variable {s t : Sys} {p : Pid} {v : Reader} {c : UInt8}

def delivered (taken : List (Pid × UInt8)) (p : Pid) : List UInt8 :=
  (taken.filter fun x => x.1 = p ∧ x.2 ≠ EOF).map Prod.snd

def received (s : Sys) (p : Pid) : List UInt8 :=
  (s.reads.filter fun rd => rd.pid = p).flatMap Read.got ++ ((s.reader p).map Reader.got).getD []

structure Orderly (s : Sys) : Prop where
  ring : ∃ queue pending, Ring s.input queue pending ∧ s.committed = s.taken.map Prod.snd ++ queue
  waiting : ∀ p v, s.reader p = some v → Waiting v
  ended : ∀ rd ∈ s.reads, EOF ∉ rd.got ∧ Ended rd.target rd.got rd.stop
  eofs : (s.taken.map Prod.snd).count EOF = s.reads.countP fun rd => rd.stop = .eof
  data : ∀ p, delivered s.taken p = received s p

theorem orderly_boot (buf : Fin INPUT_BUF → UInt8) : Orderly (boot buf) where
  ring := ⟨[],[],⟨holds_nil _ _,rfl⟩,rfl⟩
  waiting := nofun
  ended := nofun
  eofs := rfl
  data _ := rfl

theorem Orderly.key (h : Orderly s) (c : UInt8) : Orderly (s.key c) := by
  obtain ⟨queue,pending,hring,hcommitted⟩ := h.ring
  obtain ⟨new,rest,hring',hnew⟩ := key_ring hring c
  refine ⟨⟨queue ++ new,rest,hring',?_⟩,h.waiting,h.ended,h.eofs,h.data⟩
  change s.committed ++ (Console.key s.input c).between s.input.w (Console.key s.input c).w = _
  rw [hnew,hcommitted,List.append_assoc]
  rfl

theorem delivered_append (taken : List (Pid × UInt8)) (xs : List UInt8) (p q : Pid) :
    delivered (taken ++ xs.map fun c => (p,c)) q =
      delivered taken q ++ if p = q then xs.filter (· ≠ EOF) else [] := by
  simp only [delivered,List.filter_append,List.map_append,List.filter_map,List.map_map]
  congr 1
  split
  · rename_i heq
    simp [Function.comp_def,heq]
  · rename_i hne
    simp [Function.comp_def,hne]

theorem received_settle {sec : Section} {xs : List UInt8} (hgot : sec.reader.got = v.got ++ xs)
    (hv : v.got = ((s.reader p).map Reader.got).getD []) (q : Pid) :
    received (s.settle p sec) q = received s q ++ if p = q then xs else [] := by
  by_cases hq : p = q
  · subst hq
    rw [if_pos rfl,received,received,← hv,List.append_assoc,← hgot]
    cases hstop : sec.stop with
    | none => simp [Sys.settle,hstop]
    | some stop => simp [Sys.settle,hstop]
  · rw [if_neg hq,List.append_nil,received,received]
    cases hstop : sec.stop with
    | none => simp [Sys.settle,hstop,update_of_ne (Ne.symm hq)]
    | some stop => simp [Sys.settle,hstop,update_of_ne (Ne.symm hq),hq]

theorem Orderly.settle {sec : Section} {queue pending : List UInt8} (h : Orderly s)
    (hcommitted : s.committed = s.taken.map Prod.snd ++ queue)
    (hgot : v.got = ((s.reader p).map Reader.got).getD []) (hreads : Reads sec queue pending v.target v.got []) :
    Orderly (s.settle p sec) := by
  obtain ⟨xs,rest,hsplit,hring,htaken,hsec,hcount⟩ := hreads.split
  rw [List.nil_append] at htaken
  have hall : (s.settle p sec).taken.map Prod.snd = s.taken.map Prod.snd ++ xs := by
    simp [Sys.settle,htaken]
  refine ⟨⟨rest,pending,hring,?_⟩,?_,?_,?_,?_⟩
  · change s.committed = _
    rw [hall,hcommitted,hsplit,List.append_assoc]
  · intro q u hu
    by_cases hq : q = p
    · subst hq
      cases hstop : sec.stop with
      | none =>
        simp only [Sys.settle,hstop,update_self,Option.isSome_none,Bool.false_eq_true,if_false,
          Option.some.injEq] at hu
        rw [← hu]
        exact hreads.sleeping hstop
      | some stop => simp [Sys.settle,hstop] at hu
    · simp only [Sys.settle,update_of_ne hq] at hu
      exact h.waiting q u hu
  · intro rd hrd
    rcases List.mem_append.mp hrd with hold | hnew
    · exact h.ended rd hold
    · obtain ⟨stop,hstop,rfl⟩ := Option.map_eq_some_iff.mp (Option.mem_toList.mp hnew)
      refine ⟨hreads.eof,?_⟩
      change Ended sec.reader.target _ _
      rw [hreads.asked]
      exact hreads.ended stop hstop
  · rw [hall,List.count_append,h.eofs,hcount]
    change _ = (s.reads ++ _).countP _
    rw [List.countP_append]
    cases sec.stop with
    | none => rfl
    | some stop => cases stop <;> rfl
  · intro q
    rw [received_settle hsec hgot q,← h.data q]
    change delivered (s.taken ++ sec.taken.map _) q = _
    rw [delivered_append,htaken]

theorem Orderly.advance (h : Orderly s) (hv : Waiting v) (hgot : v.got = ((s.reader p).map Reader.got).getD [])
    (killed : Bool) : Orderly (s.advance p v killed) := by
  obtain ⟨queue,pending,hring,hcommitted⟩ := h.ring
  exact h.settle hcommitted hgot (consoleread_reads hring hv.count hv.newline hv.eof)

theorem Orderly.step {a : Action} (h : Orderly s) (hstep : Step s a t) : Orderly t := by
  cases a with
  | intr cs =>
    cases hstep
    induction cs generalizing s with
    | nil => exact h
    | cons c cs ih => exact ih (h.key c)
  | read p n killed =>
    cases hp : s.reader p with
    | some v => simp [Step,next,hp] at hstep
    | none =>
      simp only [Step,next,hp,Option.some.injEq] at hstep
      rw [← hstep]
      exact h.advance ⟨by simp,by simp,by simp⟩ (by rw [hp]; rfl) killed
  | wake p killed =>
    cases hp : s.reader p with
    | none => simp [Step,next,hp] at hstep
    | some v =>
      simp only [Step,next,hp,Option.some.injEq] at hstep
      rw [← hstep]
      exact h.advance (h.waiting p v hp) (by rw [hp]; rfl) killed

theorem orderly_run {buf : Fin INPUT_BUF → UInt8} {acts : List Action} (h : Run Step (boot buf) acts s) : Orderly s :=
  h.invariant (I := fun _ u => Orderly u) (orderly_boot buf) fun _ _ _ _ _ hu hstep => hu.step hstep

/-- However characters and reads interleave, the indices keep their order; editing leaves the
ring below the write index alone; what the readers take is what was committed, in order and
once each; every read ends as it should; and an end of file is one read of no bytes. -/
theorem line_discipline {buf : Fin INPUT_BUF → UInt8} {acts : List Action} (h : Run Step (boot buf) acts s) :
    ((s.input.w-s.input.r).toNat ≤ (s.input.e-s.input.r).toNat ∧ (s.input.e-s.input.r).toNat ≤ INPUT_BUF) ∧
    (∀ c, Erases c → Erased s.input (key s.input c) ∧
      (s.input.w-s.input.r).toNat ≤ ((key s.input c).e-s.input.r).toNat) ∧
    s.committed = s.taken.map Prod.snd ++ s.input.between s.input.r s.input.w ∧
    (∀ p, delivered s.taken p = received s p) ∧
    (∀ rd ∈ s.reads, EOF ∉ rd.got ∧ Ended rd.target rd.got rd.stop) ∧
    (s.taken.map Prod.snd).count EOF = s.reads.countP fun rd => rd.stop = .eof := by
  have ho := orderly_run h
  obtain ⟨queue,pending,hring,hcommitted⟩ := ho.ring
  have hlen := hring.lengths
  have hw := hring.w_sub_r
  have he := hring.e_sub_r
  refine ⟨⟨by omega,by omega⟩,?_,?_,ho.data,ho.ended,ho.eofs⟩
  · intro c hc
    have herased := key_erased hc s.input
    obtain ⟨rest,hrest⟩ := key_erases_ring hc hring
    have he' := hrest.e_sub_r
    rw [herased.r] at he'
    exact ⟨herased,by omega⟩
  · rw [hring.between_r_w]
    exact hcommitted

def letterAndEnd : List Action := [.intr [97,EOF],.read 1 5 false,.read 1 5 false]

theorem line_discipline_letterAndEnd : ∃ s, Run Step (boot fun _ => 0) letterAndEnd s ∧
    s.reads = [⟨1,5,[97],.held⟩,⟨1,5,[],.eof⟩] ∧
    s.committed = s.taken.map Prod.snd ++ s.input.between s.input.r s.input.w := by
  have hrun : Run Step (boot fun _ => 0) letterAndEnd (((letterAndEnd.foldlM next (boot fun _ => 0))).getD (boot fun _ => 0)) :=
    Run.of_foldlM rfl
  exact ⟨_,hrun,by decide,(line_discipline hrun).2.2.1⟩

end System

end Xv6.Console
