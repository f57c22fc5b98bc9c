import Xv6.Strings.Strncpy
import Xv6.Syscall.Fetch

/-! # The name of an open file

`sys_open` keeps the pointer to the path, not the path. `sys_getfilename` copies what the memory of
the caller holds there by now, over as many bytes as it is told to.
-/
namespace Xv6.Syscall
open Strings

abbrev NOFILE : ℕ := 16

section Functions

/-- An open file: the pointer `name`, and the path that the call of `open` was given; a pipe was not opened. -/
structure File where
  name : Addr
  path : Option (List UInt8)
  name_lt : name.toNat < KERNBASE

variable (p : Proc) (ofile : ℕ → Option File)

def argfd (n : ℕ) : Option File := do
  let fd ← argint p n
  if fd.toInt < 0 ∨ (NOFILE : ℤ) ≤ fd.toInt then none else ofile fd.toNat

def getfilename (f : File) (buf : Addr) (n : Word) : Option Memory := strncpy p.mapped n.toInt.toNat buf f.name p.mem

def sysGetfilename (junk : Word) : Option (ℤ × Memory) :=
  match argfd p ofile 0 with
  | none => some (-1,p.mem)
  | some f =>
    match argstr p 1 with
    | none => some (-1,p.mem)
    | some (buf,len) =>
      if len ≠ 0 then some (-1,p.mem)
      else (getfilename p f buf ((argint p 2).getD junk)).map fun m => (0,m)

end Functions

section Opening

def stringAt (m : Memory) (a : Addr) (len : ℕ) : List UInt8 := (List.range len).map fun i => m (shift a i)

theorem fetchstr_lt {p : Proc} {a : Addr} {len : ℕ} (h : fetchstr p a = some len) : a.toNat < KERNBASE := by
  unfold fetchstr at h
  by_cases hle : p.sz ≤ a
  · rw [if_pos hle] at h
    cases h
  · exact Nat.lt_of_lt_of_le (BitVec.not_le.mp hle) p.sz_le

def openedFile (p : Proc) : Option File :=
  match argint p 0 with
  | none => none
  | some addr => match h : fetchstr p addr with
    | none => none
    | some len => some ⟨addr,some (stringAt p.mem addr len),fetchstr_lt h⟩

end Opening

section Naming
variable (p : Proc) (ofile : ℕ → Option File) (junk : Word)

structure Named (buf : Addr) (n : ℕ) (path : Option (List UInt8)) (m' : Memory) : Prop where
  inside : ∀ i < n, buf.toNat+i < p.sz.toNat
  others : ∀ a, (∀ i < n, a ≠ shift buf i) → m' a = p.mem a
  name : 0 < n → ∃ w, path = some w ∧ ∀ i < n, m' (shift buf i) = w.getD i 0

def length : ℕ := ((argint p 2).getD junk).toInt.toNat

def Reports : Prop := sysGetfilename p ofile junk = some (-1,p.mem) ∨
  ∃ f buf m', argfd p ofile 0 = some f ∧ argstr p 1 = some (buf,0) ∧ sysGetfilename p ofile junk = some (0,m') ∧
    Named p buf (length p junk) f.path m'

def Kept (f : File) (buf : Addr) (n : ℕ) : Prop :=
  0 < n → buf.toNat+n ≤ p.sz.toNat ∧ (∃ w, f.path = some w ∧ ∀ i < n, field p.mem buf f.name i = w.getD i 0) ∧
    ∀ i < n, (∀ j < i, fetched p.mem buf f.name j ≠ 0) → p.mapped (shift f.name i) = true

variable {p ofile junk}

theorem length_lt : length p junk < 2^31 := by
  unfold length
  have h := BitVec.toInt_lt (x := (argint p 2).getD junk)
  omega

theorem mapped_of_fits {buf : Addr} {n : ℕ} (hfits : buf.toNat+n ≤ p.sz.toNat) :
    ∀ i < n, p.mapped (shift buf i) = true := by
  intro i hi
  have hsz : p.sz.toNat ≤ 0x80000000 := p.sz_le
  refine p.mapped_sz _ ?_
  rw [BitVec.lt_def,toNat_shift (by omega)]
  omega

theorem named_iff {f : File} {buf : Addr} {n : ℕ} (hn : n < 2^31) :
    (∃ m', strncpy p.mapped n buf f.name p.mem = some m' ∧ Named p buf n f.path m') ↔ Kept p f buf n := by
  have hsz : p.sz.toNat ≤ 0x80000000 := p.sz_le
  have hname : f.name.toNat < 0x80000000 := f.name_lt
  constructor
  · rintro ⟨m',hcopy,hnamed⟩ hpos
    have hlast := hnamed.inside (n-1) (by omega)
    have hfits : buf.toNat+n ≤ p.sz.toNat := by omega
    obtain ⟨w,hw,hbytes⟩ := hnamed.name hpos
    refine ⟨hfits,⟨w,hw,fun i hi => ?_⟩,?_⟩
    · rw [← strncpy_apply (by omega) (by omega) hcopy hi]
      exact hbytes i hi
    · exact (strncpy_ok (by omega) (by omega) (mapped_of_fits hfits)).mp ⟨m',hcopy⟩
  · intro hkept
    by_cases hpos : 0 < n
    · obtain ⟨hfits,⟨w,hw,hbytes⟩,hread⟩ := hkept hpos
      obtain ⟨m',hcopy⟩ := (strncpy_ok (by omega) (by omega) (mapped_of_fits hfits)).mpr hread
      refine ⟨m',hcopy,fun i hi => by omega,fun a ha => strncpy_frame hcopy ha,fun _ => ⟨w,hw,fun i hi => ?_⟩⟩
      rw [strncpy_apply (by omega) (by omega) hcopy hi]
      exact hbytes i hi
    · obtain rfl : n = 0 := Nat.eq_zero_of_not_pos hpos
      exact ⟨p.mem,rfl,fun i hi => absurd hi (Nat.not_lt_zero i),fun _ _ => rfl,fun h => absurd h hpos⟩

/-- The call returns the path that the file was opened with just when the memory behind the pointer still holds it and
the buffer fits the process; otherwise it is right only where it gives up. -/
theorem getfilename_reports (p : Proc) (ofile : ℕ → Option File) (junk : Word) : Reports p ofile junk ↔
    ∀ f buf, argfd p ofile 0 = some f → argstr p 1 = some (buf,0) → Kept p f buf (length p junk) := by
  unfold Reports sysGetfilename
  cases hfd : argfd p ofile 0 with
  | none => exact ⟨fun _ f buf h => (nomatch h),fun _ => Or.inl rfl⟩
  | some f =>
    cases hstr : argstr p 1 with
    | none => exact ⟨fun _ f buf _ h => (nomatch h),fun _ => Or.inl rfl⟩
    | some found =>
      obtain ⟨buf,len⟩ := found
      by_cases hlen : len = 0
      · subst hlen
        dsimp only
        rw [if_neg (not_not_intro rfl)]
        constructor
        · rintro (hfail | ⟨f',buf',m',hf',hbuf',hcopy,hnamed⟩) f₀ buf₀ hf₀ hbuf₀
          · obtain ⟨m',-,hm'⟩ := Option.map_eq_some_iff.mp hfail
            exact absurd (congrArg Prod.fst hm') (by change (0 : ℤ) ≠ -1; decide)
          · cases hf'
            cases hbuf'
            cases hf₀
            cases hbuf₀
            obtain ⟨m₁,hm,hm₁⟩ := Option.map_eq_some_iff.mp hcopy
            obtain rfl : m₁ = m' := congrArg Prod.snd hm₁
            exact (named_iff length_lt).mp ⟨m₁,hm,hnamed⟩
        · intro hkept
          obtain ⟨m',hcopy,hnamed⟩ := (named_iff length_lt).mpr (hkept f buf rfl rfl)
          exact Or.inr ⟨f,buf,m',rfl,rfl,Option.map_eq_some_iff.mpr ⟨m',hcopy,rfl⟩,hnamed⟩
      · dsimp only
        rw [if_pos hlen]
        refine ⟨fun _ f₀ buf₀ _ hbuf => ?_,fun _ => Or.inl rfl⟩
        exact absurd (congrArg Prod.snd (Option.some.inj hbuf)) hlen

end Naming

section Overwritten

def smallProc (arg : ℕ → UInt8) (c : UInt8) : Proc where
  sz := 64
  esp := 0
  mem a := if a = 4 then arg 0 else if a = 8 then arg 1 else if a = 12 then arg 2 else if a = 32 then c else 0
  mapped a := a < 64
  sz_le := by decide
  mapped_sz a h := decide_eq_true h

/-- A process opens the file `a`, writes a `b` over the path, and asks for the name of the file. -/
theorem getfilename_overwritten : ∃ p q : Proc, ∃ f : File, openedFile p = some f ∧ f.path = some [97] ∧
    q.sz = p.sz ∧ q.esp = p.esp ∧ ¬ Reports q (fun fd => if fd = 0 then some f else none) 0 := by
  refine ⟨smallProc (fun _ => 32) 97,smallProc (fun i => [0,48,2].getD i 0) 98,⟨32,some [97],by decide⟩,?_,rfl,rfl,rfl,?_⟩
  · rfl
  · rintro (hfail | ⟨f,buf,m',hf,hbuf,hcall,hnamed⟩)
    · exact absurd (congrArg (Option.map Prod.fst) hfail) (by decide)
    · have hfile : f.path = some [97] := by
        obtain rfl := Option.some.inj hf
        rfl
      obtain rfl : 48 = buf := congrArg Prod.fst (Option.some.inj hbuf)
      have hcopied := congrArg (Option.map fun r : ℤ × Memory => r.2 (shift 48 0)) hcall
      have hbyte : m' (shift 48 0) = 98 := Option.some.inj (hcopied.symm.trans (by decide))
      obtain ⟨w,hw,hbytes⟩ := hnamed.name (by decide)
      obtain rfl : [97] = w := Option.some.inj (hfile.symm.trans hw)
      exact absurd (hbyte.symm.trans (hbytes 0 (by decide))) (by decide)

end Overwritten
end Xv6.Syscall
