import Mathlib

/-! # Moving bytes

The kernel's `memmove` copies from the end where the destination starts inside the source; the one of
the user library always copies from the start, and then repeats the bytes in front of the destination.
-/
namespace Xv6.Strings
open Function

abbrev Addr := BitVec 32
abbrev Memory := Addr → UInt8

section Functions

def copyUp : ℕ → Addr → Addr → Memory → Memory
  | 0, _, _, m => m
  | n + 1, d, s, m => copyUp n (d+1) (s+1) (Function.update m d (m s))

def copyDown : ℕ → Addr → Addr → Memory → Memory
  | 0, _, _, m => m
  | n + 1, d, s, m => copyDown n (d-1) (s-1) (Function.update m (d-1) (m (s-1)))

def memmove (dst src n : BitVec 32) (m : Memory) : Memory :=
  if src < dst ∧ dst < src+n then copyDown n.toNat (dst+n) (src+n) m else copyUp n.toNat dst src m

def memmoveUser (dst src n : BitVec 32) (m : Memory) : Memory := copyUp n.toInt.toNat dst src m

end Functions

section Addresses
variable {p q : Addr} {i j n : ℕ}

def shift (p : Addr) (i : ℕ) : Addr := p+BitVec.ofNat 32 i

theorem shift_zero (p : Addr) : shift p 0 = p := BitVec.add_zero p

theorem shift_succ (p : Addr) (i : ℕ) : shift p (i+1) = shift (p+1) i := by
  unfold shift
  rw [BitVec.ofNat_add,BitVec.add_comm (BitVec.ofNat 32 i),← BitVec.add_assoc]
  rfl

theorem shift_pred (p : Addr) (i : ℕ) : shift p (i+1)-1 = shift p i := by
  unfold shift
  rw [BitVec.ofNat_add,← BitVec.add_assoc]
  exact BitVec.add_sub_cancel _ _

theorem toNat_shift (h : p.toNat+i < 2^32) : (shift p i).toNat = p.toNat+i := by
  unfold shift
  rw [BitVec.toNat_add,BitVec.toNat_ofNat,Nat.add_mod_mod,Nat.mod_eq_of_lt h]

theorem toNat_succ (h : p.toNat+1 < 2^32) : (p+1).toNat = p.toNat+1 := toNat_shift h

theorem shift_eq_iff (h : p.toNat+i < 2^32) : shift p i = q ↔ p.toNat+i = q.toNat := by
  rw [← BitVec.toNat_inj,toNat_shift h]

theorem shift_inj (hi : p.toNat+i < 2^32) (hj : q.toNat+j < 2^32) : shift p i = shift q j ↔ p.toNat+i = q.toNat+j := by
  rw [← BitVec.toNat_inj,toNat_shift hi,toNat_shift hj]

end Addresses

section Loops
variable {d s : Addr} {i n : ℕ} {m : Memory} {a : Addr}

theorem copyUp_frame (ha : ∀ i < n, a ≠ shift d i) : copyUp n d s m a = m a := by
  induction n generalizing d s m with
  | zero => rfl
  | succ n ih =>
    rw [copyUp,ih fun i hi => ?_,update_of_ne]
    · have h := ha 0 (Nat.succ_pos n)
      rwa [shift_zero] at h
    · rw [← shift_succ]
      exact ha (i+1) (Nat.succ_lt_succ hi)

theorem copyDown_frame (ha : ∀ i < n, a ≠ shift d i) : copyDown n (shift d n) (shift s n) m a = m a := by
  induction n generalizing m with
  | zero => rfl
  | succ n ih =>
    rw [copyDown,shift_pred,shift_pred,ih fun i hi => ha i (Nat.lt_succ_of_lt hi)]
    exact update_of_ne (ha n (Nat.lt_succ_self n)) ..

theorem succ_mod {p : ℕ} (i : ℕ) (hp : i%p+1 ≠ p) : (i+1)%p = i%p+1 := by
  by_cases hzero : p = 0
  · rw [hzero,Nat.mod_zero,Nat.mod_zero]
  · have hlt : i%p < p := Nat.mod_lt _ (Nat.pos_of_ne_zero hzero)
    have hsplit : i+1 = p*(i/p)+(i%p+1) := by rw [← Nat.add_assoc,Nat.div_add_mod]
    rw [hsplit,Nat.mul_add_mod]
    exact Nat.mod_eq_of_lt (by omega)

theorem succ_mod_self {p : ℕ} (i : ℕ) (hp : i%p+1 = p) : (i+1)%p = 0 := by
  have hsplit : i+1 = p*(i/p+1) := by rw [Nat.mul_succ,← Nat.div_add_mod i p,Nat.add_assoc,hp,Nat.div_add_mod]
  rw [hsplit]
  exact Nat.mul_mod_right p _

def fetched (m : Memory) (d s : Addr) (i : ℕ) : UInt8 := m (shift s (i%(d.toNat-s.toNat)))

theorem fetched_zero (m : Memory) (d s : Addr) : fetched m d s 0 = m s := by rw [fetched,Nat.zero_mod,shift_zero]

theorem fetched_step (hd : d.toNat+1 < 2^32) (hs : s.toNat+(i+1) < 2^32) :
    fetched (Function.update m d (m s)) (d+1) (s+1) i = fetched m d s (i+1) := by
  have hd' : (d+1).toNat = d.toNat+1 := toNat_succ hd
  have hs' : (s+1).toNat = s.toNat+1 := toNat_succ (by omega)
  unfold fetched
  rw [hd',hs',Nat.add_sub_add_right,← shift_succ]
  generalize hp : d.toNat-s.toNat = p
  have hle : i%p ≤ i := Nat.mod_le i p
  have hhere : shift s (i%p+1) = d ↔ i%p+1 = p := by
    generalize i%p = r at hle
    rw [shift_eq_iff (by omega)]
    omega
  by_cases hturn : i%p+1 = p
  · rw [hhere.mpr hturn,update_self,succ_mod_self i hturn,shift_zero]
  · rw [update_of_ne fun hc => hturn (hhere.mp hc),succ_mod i hturn]

theorem copyUp_apply (hd : d.toNat+n ≤ 2^32) (hs : s.toNat+n ≤ 2^32) (hi : i < n) :
    copyUp n d s m (shift d i) = fetched m d s i := by
  induction n generalizing d s m i with
  | zero => omega
  | succ n ih =>
    rw [copyUp]
    cases i with
    | zero =>
      rw [fetched_zero,shift_zero,copyUp_frame fun i hi => ?_,update_self]
      rw [← shift_succ,ne_comm,ne_eq,shift_eq_iff (by omega)]
      omega
    | succ i =>
      have hd' : (d+1).toNat = d.toNat+1 := toNat_succ (by omega)
      have hs' : (s+1).toNat = s.toNat+1 := toNat_succ (by omega)
      rw [shift_succ,ih (by omega) (by omega) (by omega),fetched_step (by omega) (by omega)]

theorem copyDown_apply (hd : d.toNat+n ≤ 2^32) (hsd : s.toNat ≤ d.toNat) (hi : i < n) :
    copyDown n (shift d n) (shift s n) m (shift d i) = m (shift s i) := by
  induction n generalizing m with
  | zero => omega
  | succ n ih =>
    rw [copyDown,shift_pred,shift_pred]
    by_cases hin : i = n
    · subst hin
      rw [copyDown_frame fun j hj => ?_,update_self]
      rw [ne_eq,shift_inj (by omega) (by omega)]
      omega
    · rw [ih (by omega) (by omega),update_of_ne]
      rw [ne_eq,shift_inj (by omega) (by omega)]
      omega

end Loops

section Contract
variable {dst src : Addr} {n : ℕ} {m m' : Memory}

structure Moved (dst src : Addr) (n : ℕ) (m m' : Memory) : Prop where
  moved : ∀ i < n, m' (shift dst i) = m (shift src i)
  others : ∀ a, (∀ i < n, a ≠ shift dst i) → m' a = m a

theorem memmove_moved {n : BitVec 32} (hdst : dst.toNat+n.toNat ≤ 2^32) (hsrc : src.toNat+n.toNat ≤ 2^32) (m : Memory) :
    Moved dst src n.toNat m (memmove dst src n m) := by
  have hshift : ∀ p : Addr, p+n = shift p n.toNat := by
    intro p
    rw [shift,BitVec.ofNat_toNat,BitVec.setWidth_eq]
  unfold memmove
  rw [hshift,hshift]
  by_cases hover : src < dst ∧ dst < shift src n.toNat
  · rw [if_pos hover]
    exact ⟨fun i hi => copyDown_apply hdst (Nat.le_of_lt hover.1) hi,fun a ha => copyDown_frame ha⟩
  · rw [if_neg hover]
    refine ⟨fun i hi => ?_,fun a ha => copyUp_frame ha⟩
    rw [copyUp_apply hdst hsrc hi,fetched]
    by_cases hlt : src.toNat < dst.toNat
    · have hfar : src.toNat+n.toNat ≤ dst.toNat := by
        by_contra hc
        refine hover ⟨hlt,?_⟩
        rw [BitVec.lt_def,toNat_shift (by omega)]
        omega
      rw [Nat.mod_eq_of_lt (by omega)]
    · rw [Nat.sub_eq_zero_of_le (by omega),Nat.mod_zero]

def Repeats (dst src : Addr) (n : ℕ) (m : Memory) : Prop :=
  src.toNat < dst.toNat → dst.toNat < src.toNat+n →
    ∀ i < n, m (shift src i) = m (shift src (i%(dst.toNat-src.toNat)))

theorem copyUp_moved_iff (hdst : dst.toNat+n ≤ 2^32) (hsrc : src.toNat+n ≤ 2^32) (m : Memory) :
    Moved dst src n m (copyUp n dst src m) ↔ Repeats dst src n m := by
  have happly := fun i hi => copyUp_apply (m := m) (i := i) hdst hsrc hi
  refine ⟨fun h _ _ i hi => ?_,fun h => ⟨fun i hi => ?_,fun a ha => copyUp_frame ha⟩⟩
  · rw [← h.moved i hi,happly i hi,fetched]
  · rw [happly i hi,fetched]
    by_cases hlt : src.toNat < dst.toNat
    · by_cases hnear : dst.toNat < src.toNat+n
      · exact (h hlt hnear i hi).symm
      · rw [Nat.mod_eq_of_lt (by omega)]
    · rw [Nat.sub_eq_zero_of_le (by omega),Nat.mod_zero]

/-- The kernel's function moves every range. The one of the library moves a range just when the destination does not
start inside the source, or the bytes repeat. -/
theorem memmove_overlap (dst src n : BitVec 32) (m : Memory) (hdst : dst.toNat+n.toNat ≤ 2^32)
    (hsrc : src.toNat+n.toNat ≤ 2^32) : Moved dst src n.toNat m (memmove dst src n m) ∧
    (0 ≤ n.toInt → (Moved dst src n.toNat m (memmoveUser dst src n m) ↔ Repeats dst src n.toNat m)) := by
  refine ⟨memmove_moved hdst hsrc m,fun hn => ?_⟩
  have hcount : n.toInt.toNat = n.toNat := by
    have hint := BitVec.toInt_eq_toNat_cond n
    split at hint
    · omega
    · omega
  rw [memmoveUser,hcount]
  exact copyUp_moved_iff hdst hsrc m

theorem memmove_overlap_down : Moved 0 1 2 (fun a => .ofNat a.toNat) (memmoveUser 0 1 2 fun a => .ofNat a.toNat) :=
  ((memmove_overlap 0 1 2 _ (by decide) (by decide)).2 (by decide)).mpr fun hlt => absurd hlt (by decide)

/-- Two bytes moved up by one: the first of them arrives twice. -/
theorem memmoveUser_repeats : ∃ (dst src n : BitVec 32) (m : Memory), dst.toNat+n.toNat ≤ 2^32 ∧
    src.toNat+n.toNat ≤ 2^32 ∧ 0 ≤ n.toInt ∧ ¬ Moved dst src n.toNat m (memmoveUser dst src n m) := by
  refine ⟨1,0,2,fun a => .ofNat a.toNat,by decide,by decide,by decide,fun h => ?_⟩
  exact absurd (h.moved 1 (by decide)) (by decide)

end Contract
end Xv6.Strings
