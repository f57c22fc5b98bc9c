import Xv6.Vm.Allocation
import Xv6.Kernel.Trap

/-! # Writing to user memory

`copyout` looks up the pages of a range one after the other and copies up to the first one
that is not present or not the user's. The lookup itself does not check that there is a page
table.
-/
namespace Xv6.Vm
open Wmap Kernel Program Function
variable {s s' s₁ : Ctx} {pd : PageDir} {va x y : Word} {bytes : List Byte} {f : Frame} {n fuel : ℕ}

section Model

def clearpteu (pd : PageDir) (uva : Word) : KernelM PageDir :=
  match walkpgdir pd uva with
  | none => throw .panic
  | some pte => pure (pd.setPte uva { pte with u := false })

def uva2ka (pd : PageDir) (uva : Word) : KernelM (Option Frame) :=
  match walkpgdir pd uva with
  | none => throw .undefined
  | some pte =>
    if pte.p = false then pure none
    else if pte.u = false then pure none
    else pure (some pte.frame)

def blit (pg : Page) (off : ℕ) (bytes : List Byte) : Page := fun o =>
  if off ≤ o.val ∧ o.val < off+bytes.length then bytes.getD (o.val-off) 0 else pg o

def copyoutLoop (look : PageDir → Word → KernelM (Option Frame)) (pd : PageDir) : ℕ → Word → List Byte → KernelM Word
  | 0, _, _ => throw .hang
  | fuel+1, va, buf => do
    if buf.length = 0 then pure 0
    else
      let va0 := PGROUNDDOWN va
      match ← look pd va0 with
      | none => pure (-1)
      | some f =>
        let off := (va-va0).toNat
        let n := min (PGSIZE-off) buf.length
        setPage f (blit ((← get).mem.page f) off (buf.take n))
        copyoutLoop look pd fuel (va0+4096) (buf.drop n)

def copyout (pd : PageDir) (va : Word) (buf : List Byte) : KernelM Word :=
  copyoutLoop uva2ka pd (buf.length+1) va buf

end Model

theorem conserves_clear {pte : Pte} {hand : List Frame} (hw : walkpgdir pd x = some pte) : Conserves ∅ hand pd s hand (pd.setPte x { pte with u := false }) s where
  mem := .refl s
  frames := by
    have howned : owned (pd.setPte x { pte with u := false }) = owned pd := by
      by_cases hlow : x.toNat < 2^31
      · have hsame : frameOf (some { pte with u := false }) = holds pd (pageOf x hlow) := by
          rw [holds_pageOf,hw]
          rfl
        rw [owned,holds_setPte hlow (table_of_walk hw),hsame,update_eq_self,owned]
      · exact owned_upper (by omega) _
    rw [howned]
  pages _ _ := rfl
  free _ hf := .inl hf
  root := frame_setPte _ _ _
  tables d g hd := by rw [tables_setPte]; exact hd

section UserMemory

def target (pd : PageDir) (x : Word) : Option Frame :=
  if (entry pd x).p = true ∧ (entry pd x).u = true then some (entry pd x).frame else none

def userByte (s : Ctx) (pd : PageDir) (x : Word) : Option Byte := (target pd x).map fun f => s.mem.page f (offsetIn x)

def Unshared (pd : PageDir) : Prop := ∀ x y f, target pd x = some f → target pd y = some f → x.toNat/4096 = y.toNat/4096

abbrev InBytes (va : Word) (n : ℕ) (x : Word) : Prop := va.toNat ≤ x.toNat ∧ x.toNat < va.toNat+n

structure Puts (s s' : Ctx) (pd : PageDir) (va : Word) (bytes : List Byte) : Prop where
  user : ∀ x, userByte s' pd x = if InBytes va bytes.length x then bytes[x.toNat-va.toNat]? else userByte s pd x
  pages : ∀ f, (∀ x, InBytes va bytes.length x → target pd x ≠ some f) → s'.mem.page f = s.mem.page f
  free : s'.mem.freelist = s.mem.freelist
  mem : MemOnly s s'

theorem target_page (h : x.toNat/4096 = y.toNat/4096) (pd : PageDir) : target pd x = target pd y := by
  rw [target,entry_page h,target]

/-- Where the frames are distinct and the kernel's half is not the user's, no frame is shared. -/
theorem unshared_of_owned (hnodup : (owned pd).Nodup) (hupper : ∀ x : Word, 2^31 ≤ x.toNat → (entry pd x).u = false) :
    Unshared pd := by
  have hlow : ∀ x f, target pd x = some f → x.toNat < 2^31 ∧ (entry pd x).p = true ∧ (entry pd x).frame = f := by
    intro x f hx
    unfold target at hx
    split at hx
    · rename_i haccess
      refine ⟨?_,haccess.1,Option.some.inj hx⟩
      by_contra hhigh
      have hnot := hupper x (by omega)
      rw [haccess.2] at hnot
      cases hnot
    · cases hx
  intro x y f hx hy
  obtain ⟨hxlow,hxp,hxf⟩ := hlow x f hx
  obtain ⟨hylow,hyp,hyf⟩ := hlow y f hy
  exact entry_inj hnodup hylow hxlow hyp hxp (hxf.trans hyf.symm)

theorem Puts.nil (s : Ctx) (pd : PageDir) (va : Word) : Puts s s pd va [] := by
  refine ⟨fun x => ?_,fun _ _ => rfl,rfl,.refl s⟩
  rw [if_neg]
  unfold InBytes
  rw [List.length_nil]
  omega

theorem Puts.append (h : Puts s s₁ pd va (bytes.take n)) (hn : n ≤ bytes.length) (hy : y.toNat = va.toNat+n)
    (h' : Puts s₁ s' pd y (bytes.drop n)) : Puts s s' pd va bytes := by
  have hlen : (bytes.take n).length = n := by rw [List.length_take,Nat.min_eq_left hn]
  have hdrop : (bytes.drop n).length = bytes.length-n := List.length_drop
  refine ⟨fun x => ?_,fun f hf => ?_,h'.free.trans h.free,h.mem.trans h'.mem⟩
  · rw [h'.user,h.user,hlen,hdrop]
    unfold InBytes
    by_cases hlate : y.toNat ≤ x.toNat ∧ x.toNat < y.toNat+(bytes.length-n)
    · rw [if_pos hlate,if_pos (by omega),List.getElem?_drop]
      congr 1
      omega
    · rw [if_neg hlate]
      by_cases hearly : va.toNat ≤ x.toNat ∧ x.toNat < va.toNat+n
      · rw [if_pos hearly,if_pos (by omega),List.getElem?_take,if_pos (by omega)]
      · rw [if_neg hearly,if_neg (by omega)]
  · rw [h'.pages f fun x hx => hf x ?_,h.pages f fun x hx => hf x ?_]
    · unfold InBytes at *
      rw [hlen] at hx
      omega
    · unfold InBytes at *
      rw [hdrop] at hx
      omega

theorem Puts.blit (hunshared : Unshared pd) (hf : target pd va = some f) (hfit : va.toNat % 4096+bytes.length ≤ 4096) :
    Puts s { s with mem := { s.mem with
      page := Function.update s.mem.page f (blit (s.mem.page f) (va.toNat % 4096) bytes) } } pd va bytes := by
  refine ⟨fun x => ?_,fun g hg => ?_,rfl,rfl,rfl⟩
  · unfold userByte
    by_cases hpage : x.toNat/4096 = va.toNat/4096
    · have htarget : target pd x = some f := (target_page hpage pd).trans hf
      have hoff : (offsetIn x).val = x.toNat % 4096 := rfl
      rw [htarget,Option.map_some,Option.map_some]
      dsimp only
      rw [update_self]
      unfold Vm.blit InBytes
      rw [hoff]
      by_cases hin : va.toNat ≤ x.toNat ∧ x.toNat < va.toNat+bytes.length
      · have hidx : x.toNat % 4096-va.toNat % 4096 = x.toNat-va.toNat := by omega
        rw [if_pos (by omega),if_pos hin,hidx,List.getD_eq_getElem?_getD]
        have hlt : x.toNat-va.toNat < bytes.length := by omega
        rw [List.getElem?_eq_getElem hlt]
        rfl
      · rw [if_neg (by omega),if_neg hin]
    · have hout : ¬ InBytes va bytes.length x := by
        unfold InBytes
        omega
      rw [if_neg hout]
      cases ht : target pd x with
      | none => rfl
      | some g =>
        have hne : g ≠ f := by
          rintro rfl
          exact hpage (hunshared x va g ht hf)
        rw [Option.map_some,Option.map_some]
        dsimp only
        rw [update_of_ne hne]
  · by_cases hempty : bytes = []
    · subst hempty
      by_cases hgf : g = f
      · subst hgf
        refine (update_self _ _ _).trans ?_
        funext o
        unfold Vm.blit
        rw [if_neg]
        rw [List.length_nil]
        omega
      · exact update_of_ne hgf _ _
    · have hself : InBytes va bytes.length va := ⟨Nat.le_refl _,by have := List.length_pos_iff.mpr hempty; omega⟩
      exact update_of_ne (fun he : g = f => hg va hself (he ▸ hf)) _ _

end UserMemory

section Loop
variable {look : PageDir → Word → KernelM (Option Frame)} {T : Word → Prop}

structure LooksUp (look : PageDir → Word → KernelM (Option Frame)) (pd : PageDir) (T : Word → Prop) : Prop where
  found : ∀ x s, T x → look pd (PGROUNDDOWN x) s = .ok (target pd x) s
  missing : ∀ x s, ¬ T x → target pd x = none ∧ look pd (PGROUNDDOWN x) s = .error .undefined s

structure Stops (pd : PageDir) (va : Word) (n : ℕ) (x : Word) : Prop where
  inside : InBytes va n x
  start : x = va ∨ x.toNat % 4096 = 0
  before : ∀ y, InBytes va (x.toNat-va.toNat) y → (target pd y).isSome
  here : target pd x = none

theorem Stops.first (hn : 0 < n) (h : target pd va = none) : Stops pd va n va :=
  ⟨⟨Nat.le_refl _,by omega⟩,.inl rfl,fun y hy => by omega,h⟩

theorem offset_toNat (va : Word) : (va-PGROUNDDOWN va).toNat = va.toNat % 4096 := by
  have := va.isLt
  rw [BitVec.toNat_sub,PGROUNDDOWN_toNat]
  omega

theorem copyoutLoop_nil (hfuel : 0 < fuel) (s : Ctx) : copyoutLoop look pd fuel va [] s = .ok 0 s := by
  obtain ⟨fuel,rfl⟩ : ∃ k, fuel = k+1 := ⟨fuel-1,by omega⟩
  rfl

theorem Stops.later (h : Stops pd y (bytes.length-n) x) (hn : n ≤ bytes.length) (hy : y.toNat = va.toNat+n)
    (halign : y.toNat % 4096 = 0) (hfirst : ∀ x, InBytes va n x → (target pd x).isSome) :
    Stops pd va bytes.length x := by
  have hinside := h.inside
  refine ⟨by omega,.inr ?_,fun z hz => ?_,h.here⟩
  · rcases h.start with rfl | hx
    · exact halign
    · exact hx
  · by_cases hearly : z.toNat < y.toNat
    · exact hfirst z (by omega)
    · exact h.before z (by omega)

/-- The loop copies the whole range, or up to the first page that the user does not reach. -/
theorem copyoutLoop_cases (hlook : LooksUp look pd T) (hunshared : Unshared pd) (hend : va.toNat+bytes.length ≤ 2^32)
    (hfuel : bytes.length < fuel) :
    (∃ s', copyoutLoop look pd fuel va bytes s = .ok 0 s' ∧ Puts s s' pd va bytes ∧
      ∀ x, InBytes va bytes.length x → (target pd x).isSome) ∨
    ∃ x s', Stops pd va bytes.length x ∧ Puts s s' pd va (bytes.take (x.toNat-va.toNat)) ∧
      (T x ∧ copyoutLoop look pd fuel va bytes s = .ok (-1) s' ∨
        ¬ T x ∧ copyoutLoop look pd fuel va bytes s = .error .undefined s') := by
  induction fuel generalizing va bytes s with
  | zero => omega
  | succ fuel ih =>
    unfold copyoutLoop
    by_cases hempty : bytes.length = 0
    · rw [if_pos hempty]
      obtain rfl := List.length_eq_zero_iff.mp hempty
      exact .inl ⟨s,rfl,.nil s pd va,fun x hx => by rw [List.length_nil] at hx; omega⟩
    · rw [if_neg hempty]
      have hpos : 0 < bytes.length := Nat.pos_of_ne_zero hempty
      have htake : bytes.take (va.toNat-va.toNat) = [] := by rw [Nat.sub_self,List.take_zero]
      by_cases hT : T va
      · dsimp only
        rw [bind_of_ok (hlook.found va s hT)]
        cases htarget : target pd va with
        | none =>
          refine .inr ⟨va,s,.first hpos htarget,?_,.inl ⟨hT,rfl⟩⟩
          rw [htake]
          exact .nil s pd va
        | some f =>
          dsimp only
          rw [bind_apply,get_apply,offset_toNat]
          dsimp only
          have hoff : va.toNat % 4096 < 4096 := Nat.mod_lt _ (by decide)
          have hpage : ∀ x : Word, x.toNat/4096 = va.toNat/4096 → (target pd x).isSome := by
            intro x hx
            rw [target_page hx,htarget]
            rfl
          by_cases hlast : bytes.length ≤ PGSIZE-va.toNat % 4096
          · rw [Nat.min_eq_right hlast,List.take_length,List.drop_length]
            have hfit : va.toNat % 4096+bytes.length ≤ 4096 := by
              have : PGSIZE = 4096 := rfl
              omega
            refine .inl ⟨_,copyoutLoop_nil (by omega) _,.blit hunshared htarget hfit,fun x hx => hpage x ?_⟩
            omega
          · rw [Nat.min_eq_left (by omega)]
            obtain ⟨n,hn⟩ : ∃ n, n = PGSIZE-va.toNat % 4096 := ⟨_,rfl⟩
            have hsum : va.toNat % 4096+n = 4096 := by
              have : PGSIZE = 4096 := rfl
              omega
            rw [← hn] at hlast ⊢
            have hlen : (bytes.take n).length = n := by rw [List.length_take,Nat.min_eq_left (by omega)]
            have hnext : (PGROUNDDOWN va+4096).toNat = va.toNat+n := by
              rw [BitVec.toNat_add,PGROUNDDOWN_toNat,page_toNat]
              omega
            have halign : (PGROUNDDOWN va+4096).toNat % 4096 = 0 := by omega
            have hfirst : ∀ x, InBytes va n x → (target pd x).isSome := fun x hx => hpage x (by omega)
            have hput : Puts s _ pd va (bytes.take n) := .blit hunshared htarget (by omega)
            change (∃ s', copyoutLoop look pd fuel (PGROUNDDOWN va+4096) (bytes.drop n) _ = _ ∧ _) ∨ _
            have hend' : (PGROUNDDOWN va+4096).toNat+(bytes.drop n).length ≤ 2^32 := by
              rw [List.length_drop]
              omega
            rcases ih (s := { s with mem := { s.mem with
                page := update s.mem.page f (blit (s.mem.page f) (va.toNat % 4096) (bytes.take n)) } })
              hend' (by rw [List.length_drop]; omega) with
              ⟨s',hrun,hrest,hall⟩ | ⟨x,s',hstop,hrest,hrun⟩
            · refine .inl ⟨s',hrun,hput.append (by omega) hnext hrest,fun x hx => ?_⟩
              by_cases hearly : x.toNat < va.toNat+n
              · exact hfirst x (by omega)
              · exact hall x (by rw [List.length_drop]; omega)
            · rw [List.length_drop] at hstop
              have hinside := hstop.inside
              refine .inr ⟨x,s',hstop.later (by omega) hnext halign hfirst,?_,hrun⟩
              have htaken : (bytes.take (x.toNat-va.toNat)).take n = bytes.take n := by
                rw [List.take_take,Nat.min_eq_left (by omega)]
              have hdropped : (bytes.take (x.toNat-va.toNat)).drop n =
                  (bytes.drop n).take (x.toNat-(PGROUNDDOWN va+4096).toNat) := by
                rw [List.drop_take,hnext,Nat.sub_add_eq]
              refine Puts.append (n := n) (by rw [htaken]; exact hput) ?_ hnext (by rw [hdropped]; exact hrest)
              rw [List.length_take]
              omega
      · obtain ⟨htarget,hrun⟩ := hlook.missing va s hT
        dsimp only
        rw [bind_of_error hrun]
        refine .inr ⟨va,s,.first hpos htarget,?_,.inr ⟨hT,rfl⟩⟩
        rw [htake]
        exact .nil s pd va

end Loop

end Xv6.Vm
