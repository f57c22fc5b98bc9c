import Xv6.Strings.Memmove

/-! # The arguments of a system call

The arguments lie on the stack of the process. Pointers are checked against the size of the process,
in 32-bit arithmetic.
-/
namespace Xv6.Syscall
open Strings

abbrev Word := BitVec 32
abbrev KERNBASE : ℕ := 0x80000000

structure Proc where
  sz : Word
  esp : Word
  mem : Memory
  mapped : Addr → Bool
  sz_le : sz.toNat ≤ KERNBASE
  mapped_sz : ∀ a, a < sz → mapped a = true

section Functions
variable (p : Proc)

def word (m : Memory) (a : Addr) : Word :=
  BitVec.ofNat 32 ((m a).toNat+2^8*(m (a+1)).toNat+2^16*(m (a+2)).toNat+2^24*(m (a+3)).toNat)

def fetchint (addr : Word) : Option Word :=
  if p.sz ≤ addr ∨ p.sz < addr+4 then none else some (word p.mem addr)

def findNul (m : Memory) : ℕ → Addr → Option ℕ
  | 0, _ => none
  | n + 1, s => if m s = 0 then some 0 else (findNul m n (s+1)).map (·+1)

def fetchstr (addr : Word) : Option ℕ :=
  if p.sz ≤ addr then none else findNul p.mem (p.sz.toNat-addr.toNat) addr

def argint (n : ℕ) : Option Word := fetchint p (p.esp+4+4*BitVec.ofNat 32 n)

def argstr (n : ℕ) : Option (Addr × ℕ) := do
  let addr ← argint p n
  let len ← fetchstr p addr
  pure (addr,len)

def argptr (n : ℕ) (size : Word) : Option Addr := do
  let i ← argint p n
  if size.toInt < 0 ∨ p.sz ≤ i ∨ p.sz < i+size then none else some i

/-- The loop of `fetchstr` with its pointers: `s` runs up to `ep`, and the result is the distance from `pp`. -/
def fetchLoop (m : Memory) (ep pp : Addr) : ℕ → Addr → Option Word
  | 0, _ => none
  | fuel + 1, s => if s < ep then if m s = 0 then some (s-pp) else fetchLoop m ep pp fuel (s+1) else none

end Functions

section Bounds
variable {p : Proc} {a : Addr} {n k : ℕ} {size : Word}

def Below (p : Proc) (a : Addr) (n : ℕ) : Prop := ∀ k < n, (shift a k).toNat = a.toNat+k ∧ shift a k < p.sz

theorem below_of_le (h : a.toNat+n ≤ p.sz.toNat) : Below p a n := by
  intro k hk
  have hsz : p.sz.toNat < 2^32 := p.sz.isLt
  have hshift : (shift a k).toNat = a.toNat+k := toNat_shift (by omega)
  refine ⟨hshift,BitVec.lt_def.mpr ?_⟩
  rw [hshift]
  omega

theorem fetchint_eq_some {v : Word} : fetchint p a = some v ↔ a.toNat+4 ≤ p.sz.toNat ∧ v = word p.mem a := by
  have hsz : p.sz.toNat ≤ 0x80000000 := p.sz_le
  have hfour : (4 : Word).toNat = 4 := rfl
  have hcheck : p.sz ≤ a ∨ p.sz < a+4 ↔ ¬ a.toNat+4 ≤ p.sz.toNat := by
    rw [BitVec.le_def,BitVec.lt_def,BitVec.toNat_add,hfour]
    omega
  unfold fetchint
  by_cases hle : a.toNat+4 ≤ p.sz.toNat
  · rw [if_neg fun hbad => hcheck.mp hbad hle]
    simp [hle,eq_comm]
  · rw [if_pos (hcheck.mpr hle)]
    simp [hle]

theorem argptr_eq_some : argptr p n size = some a ↔
    argint p n = some a ∧ 0 ≤ size.toInt ∧ a.toNat < p.sz.toNat ∧ a.toNat+size.toNat ≤ p.sz.toNat := by
  have hsz : p.sz.toNat ≤ 0x80000000 := p.sz_le
  unfold argptr
  cases hi : argint p n with
  | none => simp
  | some i =>
    change (if size.toInt < 0 ∨ p.sz ≤ i ∨ p.sz < i+size then none else some i) = some a ↔ _
    have hsize : 0 ≤ size.toInt → size.toNat < 2^31 := fun hpos => by
      have hcond := BitVec.toInt_eq_toNat_cond size
      have := size.isLt
      split at hcond <;> omega
    have hcheck : size.toInt < 0 ∨ p.sz ≤ i ∨ p.sz < i+size ↔
        ¬ (0 ≤ size.toInt ∧ i.toNat < p.sz.toNat ∧ i.toNat+size.toNat ≤ p.sz.toNat) := by
      rw [BitVec.le_def,BitVec.lt_def,BitVec.toNat_add]
      omega
    by_cases hgood : 0 ≤ size.toInt ∧ i.toNat < p.sz.toNat ∧ i.toNat+size.toNat ≤ p.sz.toNat
    · rw [if_neg fun hbad => hcheck.mp hbad hgood]
      constructor
      · intro h
        cases h
        exact ⟨rfl,hgood⟩
      · exact And.left
    · rw [if_pos (hcheck.mpr hgood)]
      constructor
      · exact fun h => by cases h
      · rintro ⟨h,hall⟩
        cases h
        exact absurd hall hgood

theorem findNul_eq_some {m : Memory} (h : findNul m n a = some k) :
    k < n ∧ m (shift a k) = 0 ∧ ∀ j < k, m (shift a j) ≠ 0 := by
  induction n generalizing a k with
  | zero => cases h
  | succ n ih =>
    rw [findNul] at h
    split at h
    · rename_i hzero
      cases h
      exact ⟨Nat.succ_pos n,by rw [shift_zero]; exact hzero,nofun⟩
    · rename_i hne
      obtain ⟨k',hk',rfl⟩ := Option.map_eq_some_iff.mp h
      obtain ⟨hlt,hnul,hearlier⟩ := ih hk'
      refine ⟨Nat.succ_lt_succ hlt,by rw [shift_succ]; exact hnul,fun j hj => ?_⟩
      cases j with
      | zero =>
        rw [shift_zero]
        exact hne
      | succ j =>
        rw [shift_succ]
        exact hearlier j (by omega)

/-- The pointers of the loop count its bytes: they meet the end before they could wrap around. -/
theorem fetchLoop_eq (m : Memory) (ep : Addr) (fuel : ℕ) (hle : a.toNat+n = ep.toNat) (hfuel : n < fuel) (j : ℕ) :
    fetchLoop m ep (a-BitVec.ofNat 32 j) fuel a = (findNul m n a).map fun k => BitVec.ofNat 32 (j+k) := by
  induction n generalizing a fuel j with
  | zero =>
    obtain ⟨fuel,rfl⟩ : ∃ f, fuel = f+1 := ⟨fuel-1,by omega⟩
    rw [fetchLoop,if_neg (by rw [BitVec.lt_def]; omega)]
    rfl
  | succ n ih =>
    obtain ⟨fuel,rfl⟩ : ∃ f, fuel = f+1 := ⟨fuel-1,by omega⟩
    have hend := ep.isLt
    rw [fetchLoop,if_pos (by rw [BitVec.lt_def]; omega),findNul]
    split
    · have hback : a-(a-BitVec.ofNat 32 j) = BitVec.ofNat 32 j := by bv_omega
      rw [hback]
      rfl
    · have hnext := ih fuel (a := a+1) (by rw [toNat_succ (by omega)]; omega) (by omega : n < fuel) (j+1)
      have hstart : a+1-BitVec.ofNat 32 (j+1) = a-BitVec.ofNat 32 j := by
        rw [BitVec.ofNat_add]
        bv_omega
      rw [hstart] at hnext
      rw [hnext,Option.map_map]
      congr 1
      funext k
      exact congrArg (BitVec.ofNat 32) (by dsimp only [Function.comp]; omega)

/-- What the checks of the arguments promise. The sums of `fetchint` and `argptr` are compared as if they were
exact, and the pointers of `fetchstr` count the bytes that it reads. -/
structure ArgumentsSound (p : Proc) : Prop where
  argint : ∀ n v, argint p n = some v →
    Below p (p.esp+4+4*BitVec.ofNat 32 n) 4 ∧ v = word p.mem (p.esp+4+4*BitVec.ofNat 32 n)
  argptr : ∀ n size a, argptr p n size = some a → Syscall.argint p n = some a ∧ 0 ≤ size.toInt ∧ Below p a size.toNat
  argstr : ∀ n a k, argstr p n = some (a,k) → Syscall.argint p n = some a ∧ k < 2^31 ∧ Below p a (k+1) ∧
    p.mem (shift a k) = 0 ∧ ∀ j < k, p.mem (shift a j) ≠ 0
  fetchintExact : ∀ a : Word, (fetchint p a).isSome ↔ a.toNat+4 ≤ p.sz.toNat
  argptrExact : ∀ n size, (Syscall.argptr p n size).isSome ↔
    ∃ a, Syscall.argint p n = some a ∧ 0 ≤ size.toInt ∧ a.toNat < p.sz.toNat ∧ a.toNat+size.toNat ≤ p.sz.toNat
  fetchstrExact : ∀ a, a < p.sz → fetchLoop p.mem p.sz a (2^32) a = (fetchstr p a).map (BitVec.ofNat 32)

theorem argstr_sound (h : argstr p n = some (a,k)) : argint p n = some a ∧ k < 2^31 ∧ Below p a (k+1) ∧
    p.mem (shift a k) = 0 ∧ ∀ j < k, p.mem (shift a j) ≠ 0 := by
  have hsz : p.sz.toNat ≤ 0x80000000 := p.sz_le
  unfold argstr at h
  cases hi : argint p n with
  | none =>
    rw [hi] at h
    cases h
  | some addr =>
    rw [hi] at h
    change (fetchstr p addr).bind (fun len => some (addr,len)) = some (a,k) at h
    obtain ⟨len,hlen,hpair⟩ := Option.bind_eq_some_iff.mp h
    cases hpair
    unfold fetchstr at hlen
    split at hlen
    · cases hlen
    · obtain ⟨hk,hnul,hearlier⟩ := findNul_eq_some hlen
      exact ⟨rfl,by omega,below_of_le (by omega),hnul,hearlier⟩

/-- The checks are sound for every process and all arguments. -/
theorem arguments_sound (p : Proc) : ArgumentsSound p where
  argint n v h := by
    obtain ⟨hle,hv⟩ := fetchint_eq_some.mp h
    exact ⟨below_of_le hle,hv⟩
  argptr n size a h := by
    obtain ⟨hi,hpos,-,hle⟩ := argptr_eq_some.mp h
    exact ⟨hi,hpos,below_of_le hle⟩
  argstr n a k h := argstr_sound h
  fetchintExact a := by
    rw [Option.isSome_iff_exists]
    exact ⟨fun ⟨v,hv⟩ => (fetchint_eq_some.mp hv).1,fun hle => ⟨_,fetchint_eq_some.mpr ⟨hle,rfl⟩⟩⟩
  argptrExact n size := by
    rw [Option.isSome_iff_exists]
    exact exists_congr fun a => argptr_eq_some
  fetchstrExact a ha := by
    have hlt : a.toNat < p.sz.toNat := BitVec.lt_def.mp ha
    have hsz := p.sz.isLt
    have hloop := fetchLoop_eq p.mem p.sz (2^32) (a := a) (n := p.sz.toNat-a.toNat)
      (by omega) (by omega) 0
    rw [BitVec.sub_zero] at hloop
    rw [hloop,fetchstr,if_neg (BitVec.not_le.mpr ha)]
    simp

end Bounds
end Xv6.Syscall
