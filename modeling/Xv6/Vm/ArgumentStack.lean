import Xv6.Vm.Stack

/-! # What `main` finds on its stack

Three words, the array of pointers and the strings, each of them where `exec` has put it, in the
top page of the image and apart from each other.
-/
namespace Xv6.Vm
open Wmap Kernel Program
variable {s₀ s s' : Ctx} {pd pd' : PageDir} {sz size sp esp va y : Word} {bytes b₁ b₂ : List Byte} {a : Arg}
  {argv : List Arg} {ptrs ws : List Word} {w : Word} {used : List Frame} {i top : ℕ}

section Words

def ReadsWord (s : Ctx) (pd : PageDir) (va w : Word) : Prop := Reads s pd va (wordBytes w)

theorem Reads.left (h : Reads s pd va (b₁ ++ b₂)) : Reads s pd va b₁ := by
  intro x hx
  rw [h x (by rw [List.length_append]; omega),List.getElem?_append_left (by omega)]

theorem Reads.right (h : Reads s pd va (b₁ ++ b₂)) (hy : y.toNat = va.toNat+b₁.length) : Reads s pd y b₂ := by
  intro x hx
  rw [h x (by rw [List.length_append]; omega),List.getElem?_append_right (by omega)]
  congr 1
  omega

theorem length_words (ws : List Word) : (ws.flatMap wordBytes).length = 4*ws.length := by
  induction ws with
  | nil => rfl
  | cons w ws ih =>
    rw [List.flatMap_cons,List.length_append,ih,List.length_cons]
    change 4+4*ws.length = _
    omega

theorem Reads.word (h : Reads s pd va (ws.flatMap wordBytes)) (hi : ws[i]? = some w) (hy : y.toNat = va.toNat+4*i) :
    ReadsWord s pd y w := by
  induction ws generalizing va i with
  | nil => cases hi
  | cons v ws ih =>
    rw [List.flatMap_cons] at h
    cases i with
    | zero =>
      have hva : y = va := BitVec.eq_of_toNat_eq (by omega)
      rw [List.getElem?_cons_zero] at hi
      rw [hva,← Option.some.inj hi]
      exact h.left
    | succ i =>
      rw [List.getElem?_cons_succ] at hi
      have hnext : (va+4).toNat = va.toNat+4 := by
        have hfour : (4 : Word).toNat = 4 := rfl
        have := y.isLt
        rw [BitVec.toNat_add,hfour]
        omega
      exact ih (h.right (y := va+4) hnext) hi (by omega)

end Words

section Layout

def stringRegion (a : Arg) (p : Word) : Set ℕ := Set.Ico p.toNat (p.toNat+(a.bytes.length+1))

theorem Placed.length (h : Placed s pd top argv ptrs) : ptrs.length = argv.length := by
  induction argv generalizing top ptrs with
  | nil =>
    change ptrs = [] at h
    rw [h]
    rfl
  | cons a argv ih =>
    obtain ⟨p,rest,rfl,-,-,hrest⟩ := h
    rw [List.length_cons,List.length_cons,ih hrest]

theorem stringRegion_subset (hp : va.toNat+a.room = top) : stringRegion a va ⊆ Set.Ico va.toNat top := by
  intro n hn
  obtain ⟨hlo,hhi⟩ := hn
  unfold Arg.room at hp
  exact ⟨hlo,by omega⟩

theorem Placed.regions (h : Placed s pd top argv ptrs) :
    (List.zipWith stringRegion argv ptrs).Pairwise Disjoint ∧
    (∀ r ∈ List.zipWith stringRegion argv ptrs, r ⊆ Set.Ico (top-roomOf argv) top) := by
  induction argv generalizing top ptrs with
  | nil => exact ⟨.nil,fun r hr => by cases hr⟩
  | cons a argv ih =>
    obtain ⟨p,rest,rfl,hp,-,hrest⟩ := h
    obtain ⟨hpair,hin⟩ := ih hrest
    have hfirst := stringRegion_subset hp
    rw [List.zipWith_cons_cons,roomOf_cons]
    refine ⟨.cons (fun r hr => ?_) hpair,fun r hr => ?_⟩
    · refine Set.disjoint_left.mpr fun n hn hn' => ?_
      have h1 := (hfirst hn).1
      have h2 := (hin r hr hn').2
      omega
    · rcases List.mem_cons.mp hr with rfl | hr
      · exact fun n hn => ⟨by have := (hfirst hn).1; omega,(hfirst hn).2⟩
      · intro n hn
        obtain ⟨h1,h2⟩ := hin r hr hn
        exact ⟨by omega,by omega⟩

theorem Placed.strings (h : Placed s pd top argv ptrs) (htop : top % 4 = 0) {p : Word} (ha : argv[i]? = some a)
    (hp : ptrs[i]? = some p) : p.toNat % 4 = 0 ∧ Reads s pd p a.terminated := by
  induction argv generalizing top ptrs i with
  | nil => cases ha
  | cons b argv ih =>
    obtain ⟨q,rest,rfl,hq,hreads,hrest⟩ := h
    have hmod := room_mod b
    cases i with
    | zero =>
      rw [List.getElem?_cons_zero] at ha hp
      rw [← Option.some.inj ha,← Option.some.inj hp]
      exact ⟨by omega,hreads⟩
    | succ i =>
      rw [List.getElem?_cons_succ] at ha hp
      exact ih hrest (by omega) ha hp

/-- The stack of a new program: from the stack pointer on a return address, the number of arguments and
the address of the array of pointers to them. -/
structure ArgStack (s : Ctx) (pd : PageDir) (sz esp : Word) (argv : List Arg) (arr : Word) (ptrs : List Word) : Prop where
  returnPc : ReadsWord s pd esp 0xffffffff
  argc : ReadsWord s pd (esp+4) (BitVec.ofNat 32 argv.length)
  array : ReadsWord s pd (esp+8) arr
  length : ptrs.length = argv.length
  pointers : ∀ (i : ℕ) (p : Word), ptrs[i]? = some p → ReadsWord s pd (arr+BitVec.ofNat 32 (4*i)) p
  last : ReadsWord s pd (arr+BitVec.ofNat 32 (4*argv.length)) 0
  strings : ∀ (i : ℕ) (a : Arg) (p : Word), argv[i]? = some a → ptrs[i]? = some p → p.toNat % 4 = 0 ∧ Reads s pd p a.terminated
  disjoint : (Set.Ico esp.toNat (esp.toNat+12) :: Set.Ico arr.toNat (arr.toNat+4*(argv.length+1)) ::
    List.zipWith stringRegion argv ptrs).Pairwise Disjoint
  inside : ∀ r ∈ Set.Ico esp.toNat (esp.toNat+12) :: Set.Ico arr.toNat (arr.toNat+4*(argv.length+1)) ::
    List.zipWith stringRegion argv ptrs, r ⊆ Set.Ico (sz.toNat-4096) sz.toNat

def StackFits (argv : List Arg) : Prop := roomOf argv+4*(argv.length+4) ≤ 4096

theorem Missing.not_fits {T : Word → Prop} (h : Missing T sz 0 0 argv) : ¬ StackFits argv := by
  obtain ⟨pre,a,post,x,rfl,-,-,hmiss,-⟩ := h
  have hroom : roomOf (pre ++ a :: post) = roomOf pre+(a.room+roomOf post) := by
    unfold roomOf
    rw [List.map_append,List.sum_append,List.map_cons,List.sum_cons]
  unfold StackFits
  omega

theorem argStack_of_placed (hplaced : Placed s pd sz.toNat argv ptrs) (hsz : sz.toNat % 4096 = 0)
    (hesp : esp.toNat+4*(argv.length+4)+roomOf argv = sz.toNat) (hfits : StackFits argv)
    (hwords : Reads s pd esp (([0xffffffff,BitVec.ofNat 32 argv.length,esp+12] ++ ptrs ++ [0]).flatMap wordBytes)) :
    ArgStack s pd sz esp argv (esp+12) ptrs := by
  have hlen := hplaced.length
  obtain ⟨hpair,hin⟩ := hplaced.regions
  have hlimit := sz.isLt
  have hsmall : StackFits argv := hfits
  unfold StackFits at hsmall
  have h4 : (4 : Word).toNat = 4 := rfl
  have h8 : (8 : Word).toNat = 8 := rfl
  have h12 : (12 : Word).toNat = 12 := rfl
  have hfour : (esp+4).toNat = esp.toNat+4*1 := by
    rw [BitVec.toNat_add,h4]
    omega
  have height : (esp+8).toNat = esp.toNat+4*2 := by
    rw [BitVec.toNat_add,h8]
    omega
  have harr : (esp+12).toNat = esp.toNat+12 := by
    rw [BitVec.toNat_add,h12]
    omega
  have hslot : ∀ i ≤ argv.length, (esp+12+BitVec.ofNat 32 (4*i)).toNat = esp.toNat+4*(i+3) := by
    intro i hi
    rw [BitVec.toNat_add,harr,BitVec.toNat_ofNat]
    omega
  have hstrings : ∀ r ∈ List.zipWith stringRegion argv ptrs, r ⊆ Set.Ico (esp.toNat+4*(argv.length+4)) sz.toNat := by
    intro r hr n hn
    obtain ⟨h1,h2⟩ := hin r hr hn
    exact ⟨by omega,h2⟩
  refine ⟨hwords.word (i := 0) rfl rfl,hwords.word (i := 1) rfl hfour,hwords.word (i := 2) rfl height,hlen,
    fun i p hp => ?_,?_,fun i a p => hplaced.strings (by omega),.cons (fun r hr => ?_) (.cons (fun r hr => ?_) hpair),
    fun r hr => ?_⟩
  · have hi := (List.getElem?_eq_some_iff.mp hp).1
    refine hwords.word (i := i+3) ?_ (hslot i (by omega))
    rw [List.append_assoc,List.getElem?_append_right (by simp),List.getElem?_append_left]
    · exact hp
    · exact hi
  · refine hwords.word (i := argv.length+3) ?_ (hslot _ (Nat.le_refl _))
    rw [List.getElem?_append_right (by simp [hlen])]
    simp [hlen]
  · refine Set.disjoint_left.mpr fun n hn hn' => ?_
    have h1 := hn.2
    rcases List.mem_cons.mp hr with rfl | hr
    · have h2 := hn'.1
      rw [harr] at h2
      omega
    · have h2 := (hstrings r hr hn').1
      omega
  · refine Set.disjoint_left.mpr fun n hn hn' => ?_
    have h1 := hn.2
    have h2 := (hstrings r hr hn').1
    rw [harr] at h1
    omega
  · rcases List.mem_cons.mp hr with rfl | hr
    · intro n hn
      obtain ⟨h1,h2⟩ := hn
      exact ⟨by omega,by omega⟩
    · rcases List.mem_cons.mp hr with rfl | hr
      · intro n hn
        obtain ⟨h1,h2⟩ := hn
        rw [harr] at h1 h2
        exact ⟨by omega,by omega⟩
      · intro n hn
        obtain ⟨h1,h2⟩ := hstrings r hr hn
        exact ⟨by omega,h2⟩

end Layout

section Build
variable {look : PageDir → Word → KernelM (Option Frame)} {T : PageDir → Word → Prop} {U : Word → Prop}

/-- A lookup of pages that handles every address with a page table, and of the kernel's half those in `U`. -/
structure PageLookup (look : PageDir → Word → KernelM (Option Frame)) (T : PageDir → Word → Prop) (U : Word → Prop) :
    Prop where
  looks : ∀ pd, LooksUp look pd (T pd)
  tables : ∀ pd x, (pd.pde (PDX x)).isSome → T pd x
  upper : ∀ pd x, KernelHalf pd → 2^31 ≤ x.toNat → (T pd x ↔ U x)

theorem Imaged.roundUp (h : Imaged pd size) (hlt : (PGROUNDUP size).toNat < 2^31) : Imaged pd (PGROUNDUP size) := by
  have hlimit := h.limit
  have hup := PGROUNDUP_toNat (a := size) (by omega)
  refine ⟨hlt,fun x hx => h.pages x (by omega),fun x hx hge => h.rest x hx (by omega),fun x hx => ?_,h.kernel⟩
  rw [h.tables x hx,hup]
  omega

theorem Building.unshared (h : Building s₀ s [] pd) (hsound : SoundFree s₀ used) (hkernel : KernelHalf pd) : Unshared pd :=
  unshared_of_owned (List.nodup_append.mp (List.nodup_append.mp (h.nodup hsound.nodup)).2.1).1 hkernel.user

theorem Missing.iff {T U : Word → Prop} {u argc : ℕ} (h : ∀ x : Word, 2^31 ≤ x.toNat → (T x ↔ U x))
    (hsz : 8192 ≤ sz.toNat) : Missing T sz u argc argv ↔ Missing U sz u argc argv := by
  have hplace : ∀ {a : Arg} {n : ℕ} {x : Word}, n ≤ 4096 → x.toNat+(n+a.room) = 2^32+sz.toNat → 2^31 ≤ x.toNat := by
    intro a n x hn hx
    have := a.short
    unfold Arg.room at hx
    omega
  constructor
  · rintro ⟨pre,a,post,x,hargv,hargc,hfit,hmiss,hx,hT⟩
    exact ⟨pre,a,post,x,hargv,hargc,hfit,hmiss,hx,fun hU => hT ((h x (hplace hfit hx)).mpr hU)⟩
  · rintro ⟨pre,a,post,x,hargv,hargc,hfit,hmiss,hx,hU⟩
    exact ⟨pre,a,post,x,hargv,hargc,hfit,hmiss,hx,fun hT => hU ((h x (hplace hfit hx)).mp hT)⟩

def stackTop (size : Word) : Word := PGROUNDUP size+2*4096

/-- There is place for an image of this size with its stack, both in the address space and in memory. -/
def Roomy (s : Ctx) (size : Word) : Prop := stackTop size < KERNBASE ∧ framesFor (stackTop size) ≤ s.mem.freelist.length

theorem stackTop_toNat (h : size.toNat < 2^31) : (stackTop size).toNat = (PGROUNDUP size).toNat+8192 := by
  have hup := PGROUNDUP_toNat (a := size) (by omega)
  have htwo : (2*4096 : Word).toNat = 8192 := rfl
  rw [stackTop,BitVec.toNat_add,htwo]
  omega

theorem Roomy.frames (h : Roomy s size) (hsize : size.toNat < 2^31) : framesFor size ≤ s.mem.freelist.length := by
  refine (framesFor_mono ?_).trans h.2
  have hup := PGROUNDUP_toNat (a := size) (by omega)
  rw [BitVec.le_def,stackTop_toNat hsize]
  omega

/-- The state in which the strings are pushed: the image has two more pages, the first of them the guard. -/
theorem stackPages (himage : Imaged pd size) (hbuild : Building s₀ s [] pd) (hsound : SoundFree s₀ used) :
    (∃ pd' s', allocuvm pd (PGROUNDUP size) (stackTop size) s = .ok (0,pd') s' ∧ Building s₀ s' [] pd' ∧ ¬ Roomy s₀ size) ∨
    ∃ pd' s' pd'', allocuvm pd (PGROUNDUP size) (stackTop size) s = .ok (stackTop size,pd') s' ∧ stackTop size ≠ 0 ∧
      clearpteu pd' (stackTop size-2*4096) s' = .ok pd'' s' ∧ Building s₀ s' [] pd'' ∧ Stacked pd'' (stackTop size) ∧
      Roomy s₀ size := by
  have hlimit := himage.limit
  have hup := PGROUNDUP_toNat (a := size) (by omega)
  have hsum := stackTop_toNat hlimit
  by_cases hlt : stackTop size < KERNBASE
  · have hlow : (stackTop size).toNat < 2^31 := BitVec.lt_def.mp hlt
    have hne : stackTop size ≠ 0 := by
      intro hzero
      rw [hzero] at hsum
      exact absurd hsum (by change ¬ 0 = _; omega)
    have hgrow : grownSize (PGROUNDUP size) (stackTop size) = stackTop size :=
      if_neg (by rw [BitVec.lt_def]; omega)
    obtain ⟨r,pd',s',hrun,hbuild',hgrown,hroom⟩ := (himage.roundUp (by omega)).allocuvm hbuild hsound (stackTop size)
    rw [hgrow] at hgrown hroom
    by_cases hzero : r = 0
    · subst hzero
      exact .inl ⟨pd',s',hrun,hbuild',fun h => hne (hroom h.1 h.2).symm⟩
    · obtain ⟨himage',-,rfl⟩ := hgrown hzero
      have hguard : (stackTop size-2*4096).toNat = (stackTop size).toNat-8192 := by
        have htwo : (2*4096 : Word).toNat = 8192 := rfl
        rw [BitVec.toNat_sub,htwo]
        omega
      have hp := (himage'.pages (stackTop size-2*4096) (by omega)).1
      have hw := walkpgdir_of_table (table_of_present hp)
      have hframes := himage'.frames hbuild'
      refine .inr ⟨pd',s',_,hrun,hzero,?_,hbuild'.step_empty (conserves_clear hw),?_,hlt,by omega⟩
      · unfold clearpteu
        rw [hw]
        rfl
      · refine himage'.stacked (by omega) (by omega) (fun x => ?_) fun d => by rw [pde_setPte_isSome]
        rw [entry_setPte (table_of_present hp),hguard]
        split
        · rename_i hpage
          have hsame : x.toNat/4096 = (stackTop size-2*4096).toNat/4096 := by omega
          rw [entry_page hsame]
        · rfl
  · refine .inl ⟨pd,s,?_,hbuild,fun h => hlt h.1⟩
    unfold Vm.allocuvm
    rw [if_pos (BitVec.not_lt.mp hlt)]
    rfl

/-- The address of the words below the strings, and of the array behind the first three of them. -/
theorem words_toNat {n : ℕ} (sp : Word) (hn : n ≤ 32) (hsp : 4096 ≤ sp.toNat) :
    (sp-(3+BitVec.ofNat 32 n+1)*4).toNat = sp.toNat-4*(n+4) ∧
    sp-(BitVec.ofNat 32 n+1)*4 = sp-(3+BitVec.ofNat 32 n+1)*4+12 := by
  have h1 : (1 : Word).toNat = 1 := rfl
  have h3 : (3 : Word).toNat = 3 := rfl
  have h4 : (4 : Word).toNat = 4 := rfl
  have h12 : (12 : Word).toNat = 12 := rfl
  have hlimit := sp.isLt
  have hall : ((3+BitVec.ofNat 32 n+1)*4 : Word).toNat = 4*(n+4) := by
    rw [BitVec.toNat_mul,BitVec.toNat_add,BitVec.toNat_add,BitVec.toNat_ofNat,h1,h3,h4]
    omega
  have hsome : ((BitVec.ofNat 32 n+1)*4 : Word).toNat = 4*(n+1) := by
    rw [BitVec.toNat_mul,BitVec.toNat_add,BitVec.toNat_ofNat,h1,h4]
    omega
  have hesp : (sp-(3+BitVec.ofNat 32 n+1)*4).toNat = sp.toNat-4*(n+4) := by
    rw [BitVec.toNat_sub,hall]
    omega
  refine ⟨hesp,BitVec.eq_of_toNat_eq ?_⟩
  rw [BitVec.toNat_add,hesp,h12,BitVec.toNat_sub,hsome]
  omega

/-- `buildStack` makes the stack in the top page, or gives up, or meets an address that its lookup cannot handle.
With room for the image it gives up only if the arguments are too long or too many. -/
theorem buildStack_cases (hlookup : PageLookup look T U) (himage : Imaged pd size) (hbuild : Building s₀ s [] pd)
    (hsound : SoundFree s₀ used) (argv : List Arg) :
    (∃ sp pd' s' ptrs, buildStack look pd size argv s = .ok (some (stackTop size,sp),pd') s' ∧ Building s₀ s' [] pd' ∧
      Stacked pd' (stackTop size) ∧ StackFits argv ∧ ArgStack s' pd' (stackTop size) sp argv (sp+12) ptrs) ∨
    (∃ pd' s', buildStack look pd size argv s = .ok (none,pd') s' ∧ Building s₀ s' [] pd' ∧ (Roomy s₀ size →
      (StackFits argv → MAXARG < argv.length) ∧ ¬ Missing U (stackTop size) 0 0 argv)) ∨
    ∃ s', buildStack look pd size argv s = .error .undefined s' ∧ Roomy s₀ size ∧ Missing U (stackTop size) 0 0 argv := by
  unfold buildStack
  dsimp only
  change (∃ sp pd' s' ptrs, (allocuvm pd (PGROUNDUP size) (stackTop size) >>= _) s = _ ∧ _) ∨
    (∃ pd' s', (allocuvm pd (PGROUNDUP size) (stackTop size) >>= _) s = _ ∧ _) ∨
    ∃ s', (allocuvm pd (PGROUNDUP size) (stackTop size) >>= _) s = _ ∧ _
  rcases stackPages himage hbuild hsound with ⟨pd',s',hrun,hbuild',hnot⟩ | ⟨pd',s',pd'',hrun,hzero,hclear,hbuild',hstack,hroomy⟩
  · rw [bind_of_ok hrun]
    exact .inr (.inl ⟨pd',s',rfl,hbuild',fun h => absurd h hnot⟩)
  · rw [bind_of_ok hrun]
    dsimp only
    rw [if_neg hzero,bind_of_ok hclear]
    clear hrun hzero hclear
    have hlook := hlookup.looks pd''
    have htables := hlookup.tables pd''
    have hunshared := hbuild'.unshared hsound hstack.kernel
    have hroom := hstack.room
    have halign := hstack.align
    have hlimit := hstack.limit
    have hiff := @Missing.iff _ argv _ _ 0 0 (fun x hx => hlookup.upper pd'' x hstack.kernel hx) hroom
    have hplaceable : ∀ {r s₁}, pushArgs look pd'' argv 0 (stackTop size) [] s' = .ok r s₁ →
        ¬ Missing U (stackTop size) 0 0 argv := by
      intro r s₁ hpush hmissing
      obtain ⟨s₂,herror⟩ : ∃ s₂, pushArgs look pd'' argv 0 (stackTop size) [] s' = .error .undefined s₂ :=
        pushArgs_missing hstack hlook hunshared (Nat.add_zero _) rfl (hiff.mpr hmissing) s'
      rw [hpush] at herror
      cases herror
    generalize stackTop size = sz at *
    rcases pushArgs_cases hstack hlook htables hunshared (Nat.add_zero sz.toNat) rfl (by omega) argv 0
      [] s' with ⟨sp,ptrs,s₁,hpush,hsp,hfit,hargc,hplaced,-,hwrites⟩ | ⟨s₁,hpush,hwrites,hmany⟩ | ⟨s₁,hpush,hmissing⟩
    · rw [bind_of_ok hpush]
      dsimp only
      rw [List.nil_append]
      have hn : argv.length ≤ 32 := by
        have hmax : MAXARG = 32 := rfl
        omega
      obtain ⟨hesp,harr⟩ := words_toNat sp hn (by omega)
      rw [harr]
      obtain ⟨esp,hespdef⟩ : ∃ esp, esp = sp-(3+BitVec.ofNat 32 argv.length+1)*4 := ⟨_,rfl⟩
      rw [← hespdef] at hesp ⊢
      obtain ⟨buf,hbuf⟩ : ∃ buf, buf =
          ([0xffffffff,BitVec.ofNat 32 argv.length,esp+12] ++ ptrs ++ [0]).flatMap wordBytes := ⟨_,rfl⟩
      have hlen : buf.length = 4*(argv.length+4) := by
        rw [hbuf,length_words]
        simp [hplaced.length]
      rw [← hbuf]
      by_cases hfits : StackFits argv
      · have hroom' : roomOf argv+4*(argv.length+4) ≤ 4096 := hfits
        obtain ⟨s₂,hcopy,hput⟩ := copyout_fits (s := s₁) _ buf hstack hlook hunshared
          (by omega : sz.toNat-4096 ≤ esp.toNat) (by omega)
        rw [bind_of_ok hcopy,if_neg (by decide)]
        refine .inl ⟨esp,pd'',s₂,ptrs,rfl,hstack.building hbuild' (hwrites.trans hput.writes),hstack,hfits,?_⟩
        have hplaced' := hplaced.sameFrom (hput.sameFrom (n := sp.toNat) (by omega)) (by omega)
        refine argStack_of_placed hplaced' halign (by omega) hfits ?_
        rw [← hbuf]
        exact hput.reads
      · have hroom' : ¬ roomOf argv+4*(argv.length+4) ≤ 4096 := hfits
        obtain ⟨s₂,hcopy,hwrites₂⟩ := copyout_guard (s := s₁) _ buf hstack hlook htables hunshared
          (by omega : esp.toNat < sz.toNat-4096) (by omega) (by omega) (by omega)
        rw [bind_of_ok hcopy,if_pos (by decide)]
        exact .inr (.inl ⟨pd'',s₂,rfl,hstack.building hbuild' (hwrites.trans hwrites₂),fun _ =>
          ⟨fun h => absurd h hfits,hplaceable hpush⟩⟩)
    · rw [bind_of_ok hpush]
      refine .inr (.inl ⟨pd'',s₁,rfl,hstack.building hbuild' hwrites,fun _ => ⟨fun hfits => ?_,hplaceable hpush⟩⟩)
      unfold StackFits at hfits
      omega
    · rw [bind_of_error hpush]
      exact .inr (.inr ⟨s₁,rfl,hroomy,hiff.mp hmissing⟩)

end Build
end Xv6.Vm
