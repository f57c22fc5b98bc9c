import Xv6.Vm.Loading

/-! # The argument stack

The top page of a new image takes the argument strings, one below the other, and the words that
tell where they are. The page below it is the guard: a copy that does not fit touches it, starts
further down in the image, or wraps around to an address of the kernel's half.
-/
namespace Xv6.Vm
open Wmap Kernel Program
variable {s₀ s s' s₁ : Ctx} {pd pd' : PageDir} {sz sp va x y : Word} {bytes : List Byte} {a : Arg} {argv : List Arg}
  {look : PageDir → Word → KernelM (Option Frame)} {T : Word → Prop} {u argc : ℕ} {ustack : List Word}

section Pages

structure Stacked (pd : PageDir) (sz : Word) : Prop where
  room : 8192 ≤ sz.toNat
  limit : sz.toNat < 2^31
  align : sz.toNat % 4096 = 0
  present : ∀ x : Word, x.toNat < sz.toNat → (entry pd x).p = true
  user : ∀ x : Word, x.toNat < sz.toNat → ((entry pd x).u = true ↔ ¬ (sz.toNat-8192 ≤ x.toNat ∧ x.toNat < sz.toNat-4096))
  tables : ∀ x : Word, x.toNat < 2^31 → ((pd.pde (PDX x)).isSome ↔ x.toNat/2^22*2^22 < sz.toNat)
  kernel : KernelHalf pd

theorem Stacked.top (h : Stacked pd sz) (hlo : sz.toNat-4096 ≤ x.toNat) (hhi : x.toNat < sz.toNat) : (target pd x).isSome := by
  have hu := (h.user x hhi).mpr (by omega)
  rw [target,if_pos ⟨h.present x hhi,hu⟩]
  rfl

theorem Stacked.guard (h : Stacked pd sz) (hlo : sz.toNat-8192 ≤ x.toNat) (hhi : x.toNat < sz.toNat-4096) :
    target pd x = none := by
  have hu : ¬ (entry pd x).u = true := fun hu => (h.user x (by omega)).mp hu ⟨hlo,hhi⟩
  rw [target,if_neg fun h => hu h.2]

theorem Stacked.upper (h : Stacked pd sz) (hx : 2^31 ≤ x.toNat) : target pd x = none := by
  rw [target,if_neg]
  rintro ⟨-,hu⟩
  rw [h.kernel.user x hx] at hu
  cases hu

theorem Stacked.table (h : Stacked pd sz) (hx : x.toNat < sz.toNat) : (pd.pde (PDX x)).isSome :=
  table_of_present (h.present x hx)

theorem Imaged.stacked (h : Imaged pd sz) (halign : sz.toNat % 4096 = 0) (hroom : 8192 ≤ sz.toNat)
    (hclear : ∀ x, entry pd' x = if x.toNat/4096 = (sz.toNat-8192)/4096 then { entry pd x with u := false } else entry pd x)
    (htables : ∀ d, (pd'.pde d).isSome ↔ (pd.pde d).isSome) : Stacked pd' sz := by
  have hlimit := h.limit
  refine ⟨hroom,hlimit,halign,fun x hx => ?_,fun x hx => ?_,fun x hx => ?_,?_⟩
  · have hp := (h.pages x (by omega)).1
    rw [hclear]
    split
    · exact hp
    · exact hp
  · have hu := (h.pages x (by omega)).2
    rw [hclear]
    by_cases hguard : x.toNat/4096 = (sz.toNat-8192)/4096
    · rw [if_pos hguard]
      refine iff_of_false Bool.false_ne_true fun hout => hout ?_
      omega
    · rw [if_neg hguard]
      refine iff_of_true hu fun hin => hguard ?_
      omega
  · rw [htables,h.tables x hx]
  · refine h.kernel.keep (fun x hx => ?_) fun x _ => htables _
    rw [hclear,if_neg]
    omega

end Pages

section Writes

structure Writes (pd : PageDir) (s s' : Ctx) : Prop where
  pages : ∀ f, (∀ x, target pd x ≠ some f) → s'.mem.page f = s.mem.page f
  free : s'.mem.freelist = s.mem.freelist
  mem : MemOnly s s'

theorem Writes.refl (pd : PageDir) (s : Ctx) : Writes pd s s := ⟨fun _ _ => rfl,rfl,.refl s⟩

theorem Writes.trans (h : Writes pd s s₁) (h' : Writes pd s₁ s') : Writes pd s s' :=
  ⟨fun f hf => (h'.pages f hf).trans (h.pages f hf),h'.free.trans h.free,h.mem.trans h'.mem⟩

theorem Puts.writes (h : Puts s s' pd va bytes) : Writes pd s s' := ⟨fun f hf => h.pages f fun x _ => hf x,h.free,h.mem⟩

def Reads (s : Ctx) (pd : PageDir) (va : Word) (bytes : List Byte) : Prop :=
  ∀ x, InBytes va bytes.length x → userByte s pd x = bytes[x.toNat-va.toNat]?

theorem Puts.reads (h : Puts s s' pd va bytes) : Reads s' pd va bytes := by
  intro x hx
  rw [h.user,if_pos hx]

def SameFrom (s s' : Ctx) (pd : PageDir) (n : ℕ) : Prop := ∀ x : Word, n ≤ x.toNat → userByte s' pd x = userByte s pd x

theorem Puts.sameFrom {n : ℕ} (h : Puts s s' pd va bytes) (hn : va.toNat+bytes.length ≤ n) : SameFrom s s' pd n := by
  intro x hx
  rw [h.user,if_neg]
  omega

theorem Reads.sameFrom {n : ℕ} (h : Reads s pd va bytes) (hsame : SameFrom s s' pd n) (hn : n ≤ va.toNat) :
    Reads s' pd va bytes := by
  intro x hx
  rw [hsame x (by omega)]
  exact h x hx

theorem Stacked.building (h : Stacked pd sz) (hbuild : Building s₀ s [] pd) (hwrites : Writes pd s s') : Building s₀ s' [] pd where
  mem := hbuild.mem.trans hwrites.mem
  frames := by
    rw [hwrites.free]
    exact hbuild.frames
  pages f hf := by
    refine (hwrites.pages f fun x hx => hf ?_).trans (hbuild.pages f hf)
    by_cases hlow : x.toNat < 2^31
    · unfold target at hx
      split at hx
      · rename_i haccess
        rw [← Option.some.inj hx]
        exact hbuild.mem_owned (entry_owned hlow haccess.1)
      · cases hx
    · rw [h.upper (by omega)] at hx
      cases hx

end Writes

section Placement

def Arg.room (a : Arg) : ℕ := (a.bytes.length+4)/4*4

def roomOf (argv : List Arg) : ℕ := (argv.map Arg.room).sum

theorem Arg.length_terminated (a : Arg) : a.terminated.length = a.bytes.length+1 := by
  unfold Arg.terminated
  rw [List.length_append]
  rfl

theorem mask_toNat (w : Word) : (w &&& ~~~3).toNat = w.toNat/4*4 := by
  have hmask : ∀ i, i < 32 → (~~~(3 : Word)).getLsbD i = decide (2 ≤ i) := by decide
  have h : w &&& ~~~(3 : Word) = (w >>> 2) <<< 2 := by
    apply BitVec.eq_of_getLsbD_eq
    intro i hi
    rw [BitVec.getLsbD_and,hmask i hi,BitVec.getLsbD_shiftLeft,BitVec.getLsbD_ushiftRight]
    by_cases h2 : i < 2
    · simp [h2]
    · have hsub : 2+(i-2) = i := by omega
      rw [hsub]
      simp [h2,hi,Nat.le_of_not_lt h2]
  rw [h,BitVec.toNat_shiftLeft,BitVec.toNat_ushiftRight,Nat.shiftRight_eq_div_pow,Nat.shiftLeft_eq]
  have := w.isLt
  omega

/-- The place of a string below an address; it wraps around when the string is too long. -/
theorem place_toNat (sp : Word) (hsp : sp.toNat % 4 = 0) (a : Arg) :
    ((sp-BitVec.ofNat 32 (a.bytes.length+1)) &&& ~~~3).toNat =
      if a.room ≤ sp.toNat then sp.toNat-a.room else 2^32+sp.toNat-a.room := by
  have := a.short
  have := sp.isLt
  unfold Arg.room
  rw [mask_toNat,BitVec.toNat_sub,BitVec.toNat_ofNat]
  split
  · omega
  · omega

theorem copyout_fits (va : Word) (bytes : List Byte) (h : Stacked pd sz) (hlook : LooksUp look pd T) (hunshared : Unshared pd)
    (hlo : sz.toNat-4096 ≤ va.toNat) (hhi : va.toNat+bytes.length ≤ sz.toNat) :
    ∃ s', copyoutLoop look pd (bytes.length+1) va bytes s = .ok 0 s' ∧ Puts s s' pd va bytes := by
  have hlimit := h.limit
  have hend : va.toNat+bytes.length ≤ 2^32 := by omega
  rcases copyoutLoop_cases (s := s) hlook hunshared hend (Nat.lt_succ_self _) with
    ⟨s',hrun,hput,-⟩ | ⟨x,s',hstop,-,-⟩
  · exact ⟨s',hrun,hput⟩
  · have hinside := hstop.inside
    have htop := h.top (x := x) (by omega) (by omega)
    rw [hstop.here] at htop
    cases htop

/-- A copy from below the top page into it or into the guard page is refused. -/
theorem copyout_guard (va : Word) (bytes : List Byte) (h : Stacked pd sz) (hlook : LooksUp look pd T)
    (htables : ∀ x, (pd.pde (PDX x)).isSome → T x) (hunshared : Unshared pd) (hlo : va.toNat < sz.toNat-4096) 
    (hhi : va.toNat+bytes.length ≤ sz.toNat) (hguard : sz.toNat-8192 < va.toNat+bytes.length) (hpos : 0 < bytes.length) :
    ∃ s', copyoutLoop look pd (bytes.length+1) va bytes s = .ok (-1) s' ∧ Writes pd s s' := by
  have hlimit := h.limit
  have hroom := h.room
  have hend : va.toNat+bytes.length ≤ 2^32 := by omega
  rcases copyoutLoop_cases (s := s) hlook hunshared hend (Nat.lt_succ_self _) with
    ⟨s',-,-,hall⟩ | ⟨x,s',hstop,hput,⟨-,hrun⟩ | ⟨hT,-⟩⟩
  · obtain ⟨y,hy⟩ : ∃ y : Word, y.toNat = max va.toNat (sz.toNat-8192) :=
      ⟨BitVec.ofNat 32 (max va.toNat (sz.toNat-8192)),by rw [BitVec.toNat_ofNat]; omega⟩
    have hsome := hall y (by omega)
    rw [h.guard (by omega) (by omega)] at hsome
    cases hsome
  · exact ⟨s',hrun,hput.writes⟩
  · have hinside := hstop.inside
    exact absurd (htables x (h.table (by omega))) hT

/-- A copy to an address of the kernel's half is refused, or it has no page table to look at. -/
theorem copyout_upper (va : Word) (bytes : List Byte) (h : Stacked pd sz) (hlook : LooksUp look pd T)
    (hva : 2^31 ≤ va.toNat) (hpos : 0 < bytes.length) :
    (T va → copyoutLoop look pd (bytes.length+1) va bytes s = .ok (-1) s) ∧
    (¬ T va → copyoutLoop look pd (bytes.length+1) va bytes s = .error .undefined s) := by
  unfold copyoutLoop
  rw [if_neg (by omega)]
  dsimp only
  constructor
  · intro hT
    rw [bind_of_ok (hlook.found va s hT),h.upper hva]
    rfl
  · intro hT
    rw [bind_of_error (hlook.missing va s hT).2]

end Placement

section Strings

theorem roomOf_cons (a : Arg) (argv : List Arg) : roomOf (a :: argv) = a.room+roomOf argv := by
  unfold roomOf
  rw [List.map_cons,List.sum_cons]

theorem room_mod (a : Arg) : a.room % 4 = 0 := by
  unfold Arg.room
  omega

def Placed (s : Ctx) (pd : PageDir) : ℕ → List Arg → List Word → Prop
  | _, [], ptrs => ptrs = []
  | top, a :: argv, ptrs => ∃ p rest, ptrs = p :: rest ∧ p.toNat+a.room = top ∧ Reads s pd p a.terminated ∧
    Placed s pd p.toNat argv rest

theorem Placed.sameFrom {n top : ℕ} {ptrs : List Word} (h : Placed s pd top argv ptrs) (hsame : SameFrom s s' pd n)
    (hn : n+roomOf argv ≤ top) : Placed s' pd top argv ptrs := by
  induction argv generalizing top ptrs with
  | nil => exact h
  | cons a argv ih =>
    obtain ⟨p,rest,hptrs,hp,hreads,hrest⟩ := h
    rw [roomOf_cons] at hn
    exact ⟨p,rest,hptrs,hp,hreads.sameFrom hsame (by omega),ih hrest (by omega)⟩

def Missing (T : Word → Prop) (sz : Word) (u argc : ℕ) (argv : List Arg) : Prop :=
  ∃ pre a post x, argv = pre ++ a :: post ∧ argc+pre.length < MAXARG ∧ u+roomOf pre ≤ 4096 ∧
    4096 < u+roomOf pre+a.room ∧ x.toNat+(u+roomOf pre+a.room) = 2^32+sz.toNat ∧ ¬ T x

theorem Missing.cons (h : Missing T sz (u+a.room) (argc+1) argv) : Missing T sz u argc (a :: argv) := by
  obtain ⟨pre,b,post,x,rfl,hlen,hfit,hmiss,hx,hT⟩ := h
  refine ⟨a :: pre,b,post,x,rfl,?_,?_,?_,?_,hT⟩
  · rw [List.length_cons]
    omega
  all_goals
    rw [roomOf_cons]
    omega

section Push
variable (h : Stacked pd sz) (hlook : LooksUp look pd T) (htables : ∀ x, (pd.pde (PDX x)).isSome → T x)
  (hunshared : Unshared pd)
include h hlook hunshared

theorem push_fits (hsp : sp.toNat+u = sz.toNat) (hu : u % 4 = 0) (hfit : u+a.room ≤ 4096) (s : Ctx) : ∃ p s₁,
    p = ((sp-BitVec.ofNat 32 (a.bytes.length+1)) &&& ~~~3) ∧ p.toNat+(u+a.room) = sz.toNat ∧
    copyoutLoop look pd (a.terminated.length+1) p a.terminated s = .ok 0 s₁ ∧ Puts s s₁ pd p a.terminated := by
  have hroom := h.room
  have halign := h.align
  have hplace := place_toNat sp (by omega) a
  rw [if_pos (by omega)] at hplace
  have hlen := a.length_terminated
  have hcover : a.bytes.length+1 ≤ a.room := by
    unfold Arg.room
    omega
  obtain ⟨s₁,hrun,hput⟩ := copyout_fits (s := s) ((sp-BitVec.ofNat 32 (a.bytes.length+1)) &&& ~~~3)
    a.terminated h hlook hunshared (by omega) (by omega)
  exact ⟨_,s₁,rfl,by omega,hrun,hput⟩

include htables in
/-- A string that does not fit is refused, unless it wraps around to an address without a page table. -/
theorem push_misses (hsp : sp.toNat+u = sz.toNat) (hu : u % 4 = 0) (hle : u ≤ 4096) (hmiss : 4096 < u+a.room) (s : Ctx) :
    (∃ s₁, copyoutLoop look pd (a.terminated.length+1) ((sp-BitVec.ofNat 32 (a.bytes.length+1)) &&& ~~~3) a.terminated s =
      .ok (-1) s₁ ∧ Writes pd s s₁) ∨
    ∃ x, x.toNat+(u+a.room) = 2^32+sz.toNat ∧ ¬ T x ∧ copyoutLoop look pd (a.terminated.length+1)
      ((sp-BitVec.ofNat 32 (a.bytes.length+1)) &&& ~~~3) a.terminated s = .error .undefined s := by
  have hroom := h.room
  have hlimit := h.limit
  have halign := h.align
  have hshort := a.short
  have hplace := place_toNat sp (by omega) a
  have hlen := a.length_terminated
  have hcover : a.bytes.length+1 ≤ a.room ∧ a.room ≤ a.bytes.length+4 := by
    unfold Arg.room
    omega
  obtain ⟨p,hp⟩ : ∃ p, p = ((sp-BitVec.ofNat 32 (a.bytes.length+1)) &&& ~~~3) := ⟨_,rfl⟩
  rw [← hp] at hplace ⊢
  by_cases hwrap : a.room ≤ sp.toNat
  · rw [if_pos hwrap] at hplace
    exact .inl (copyout_guard _ _ h hlook htables hunshared (by omega) (by omega) (by omega) (by omega))
  · rw [if_neg hwrap] at hplace
    obtain ⟨hrefused,hmissing⟩ := copyout_upper (s := s) p a.terminated h hlook (by omega) (by omega)
    by_cases hT : T p
    · exact .inl ⟨s,hrefused hT,.refl pd s⟩
    · exact .inr ⟨p,by omega,hT,hmissing hT⟩

include htables in
/-- The strings are all placed in the top page, or the loop gives up because they are too long or too many, or it
meets an address without a page table. -/
theorem pushArgs_cases (hsp : sp.toNat+u = sz.toNat) (hu : u % 4 = 0) (hle : u ≤ 4096) (argv : List Arg) (argc : ℕ)
    (ustack : List Word) (s : Ctx) :
    (∃ sp' ptrs s', pushArgs look pd argv argc sp ustack s = .ok (some (sp',ustack ++ ptrs)) s' ∧
      sp'.toNat+(u+roomOf argv) = sz.toNat ∧ u+roomOf argv ≤ 4096 ∧ argc+argv.length ≤ max argc MAXARG ∧
      Placed s' pd sp.toNat argv ptrs ∧ SameFrom s s' pd sp.toNat ∧ Writes pd s s') ∨
    (∃ s', pushArgs look pd argv argc sp ustack s = .ok none s' ∧ Writes pd s s' ∧
      (u+roomOf argv ≤ 4096 → MAXARG < argc+argv.length)) ∨
    ∃ s', pushArgs look pd argv argc sp ustack s = .error .undefined s' ∧ Missing T sz u argc argv := by
  induction argv generalizing sp u argc ustack s with
  | nil =>
    refine .inl ⟨sp,[],s,?_,?_,?_,?_,rfl,fun _ _ => rfl,.refl pd s⟩
    · rw [List.append_nil]
      rfl
    · exact hsp
    · exact hle
    · rw [List.length_nil]
      omega
  | cons a argv ih =>
    unfold pushArgs
    by_cases hargc : MAXARG ≤ argc
    · rw [if_pos hargc]
      refine .inr (.inl ⟨s,rfl,.refl pd s,fun _ => ?_⟩)
      rw [List.length_cons]
      omega
    · rw [if_neg hargc]
      have hmod := room_mod a
      by_cases hfit : u+a.room ≤ 4096
      · obtain ⟨p,s₁,hp,hnum,hrun,hput⟩ := push_fits h hlook hunshared hsp hu hfit s
        have hcover : a.terminated.length ≤ a.room := by
          rw [a.length_terminated]
          unfold Arg.room
          omega
        rw [← hp,bind_of_ok hrun,if_neg (by decide)]
        rcases ih hnum (by omega) hfit (argc+1) (ustack ++ [p]) s₁ with
          ⟨sp',ptrs,s',hrest,hsp',hall,hlen,hplaced,hsame,hwrites⟩ | ⟨s',hrest,hwrites,hmany⟩ | ⟨s',hrest,hmissing⟩
        · refine .inl ⟨sp',p :: ptrs,s',?_,?_,?_,?_,⟨p,ptrs,rfl,by omega,?_,hplaced⟩,fun x hx => ?_,hput.writes.trans hwrites⟩
          · rw [hrest,List.append_assoc]
            rfl
          · rw [roomOf_cons]
            omega
          · rw [roomOf_cons]
            omega
          · rw [List.length_cons]
            omega
          · exact hput.reads.sameFrom hsame (Nat.le_refl _)
          · rw [hsame x (by omega)]
            exact hput.sameFrom (n := sp.toNat) (by omega) x hx
        · refine .inr (.inl ⟨s',hrest,hput.writes.trans hwrites,fun hall => ?_⟩)
          rw [roomOf_cons] at hall
          rw [List.length_cons]
          omega
        · exact .inr (.inr ⟨s',hrest,hmissing.cons⟩)
      · rcases push_misses (a := a) h hlook htables hunshared hsp hu hle (by omega) s with ⟨s₁,hrun,hwrites⟩ | ⟨x,hx,hT,hrun⟩
        · rw [bind_of_ok hrun,if_pos (by decide)]
          refine .inr (.inl ⟨s₁,rfl,hwrites,fun hall => ?_⟩)
          rw [roomOf_cons] at hall
          omega
        · rw [bind_of_error hrun]
          refine .inr (.inr ⟨s,rfl,[],a,argv,x,rfl,?_,hle,?_,hx,hT⟩)
          · rw [List.length_nil]
            omega
          · change 4096 < u+0+a.room
            omega

/-- A first string that does not fit, at an address without a page table, ends the loop there. -/
theorem pushArgs_missing (hsp : sp.toNat+u = sz.toNat) (hu : u % 4 = 0) (hmissing : Missing T sz u argc argv) (s : Ctx) :
    ∃ s', pushArgs look pd argv argc sp ustack s = .error .undefined s' := by
  obtain ⟨pre,a,post,x,rfl,hargc,hfit,hmiss,hx,hT⟩ := hmissing
  have hroom := h.room
  have hlimit := h.limit
  have halign := h.align
  induction pre generalizing sp u argc ustack s with
  | nil =>
    have hnil : roomOf [] = 0 := rfl
    rw [hnil] at hfit hmiss hx
    rw [List.length_nil] at hargc
    have hlen := a.length_terminated
    have hshort := a.short
    have hcover : a.room ≤ a.bytes.length+4 := by
      unfold Arg.room
      omega
    have := x.isLt
    have hplace := place_toNat sp (by omega) a
    rw [if_neg (by omega)] at hplace
    have hp : ((sp-BitVec.ofNat 32 (a.bytes.length+1)) &&& ~~~3) = x := BitVec.eq_of_toNat_eq (by omega)
    rw [List.nil_append]
    unfold pushArgs
    rw [if_neg (by omega),hp]
    have hrun := (copyout_upper (s := s) x a.terminated h hlook (by omega) (by omega)).2 hT
    rw [bind_of_error hrun]
    exact ⟨s,rfl⟩
  | cons b pre ih =>
    rw [roomOf_cons] at hfit hmiss hx
    rw [List.length_cons] at hargc
    have hmod := room_mod b
    obtain ⟨p,s₁,hp,hnum,hrun,-⟩ := push_fits (a := b) h hlook hunshared hsp hu (by omega) s
    rw [List.cons_append]
    unfold pushArgs
    rw [if_neg (by omega),← hp,bind_of_ok hrun,if_neg (by decide)]
    have hargc' : argc+1+pre.length < MAXARG := by omega
    exact ih hnum (by omega) s₁ hargc' (by omega) (by omega) (by omega)

end Push
end Strings
end Xv6.Vm
