import Mathlib

/-! # Little-endian fields in fixed-size byte blocks

A block of `n` bytes is a function on `Fin n`. Fields are read and written at a
byte offset with an arbitrary width; the two laws below (a written field reads
back, disjoint fields do not interfere) hold for every width at once.
-/
namespace Xv6.ByteField
variable {n : ℕ}

abbrev Bytes (n : ℕ) := Fin n → UInt8

def byteAt (b : Bytes n) (i : ℕ) : UInt8 := if h : i < n then b ⟨i,h⟩ else 0

def setByte (b : Bytes n) (i : ℕ) (v : UInt8) : Bytes n := fun j => if j.val = i then v else b j

theorem byteAt_setByte_same (b : Bytes n) {i : ℕ} (hi : i < n) (v : UInt8) :
    byteAt (setByte b i v) i = v := by
  simp [byteAt,setByte,hi]

theorem byteAt_setByte_ne (b : Bytes n) {i j : ℕ} (hij : j ≠ i) (v : UInt8) :
    byteAt (setByte b i v) j = byteAt b j := by
  unfold byteAt
  split
  · simp [setByte,hij]
  · rfl

def getLE : ℕ → Bytes n → ℕ → ℕ
  | 0, _, _ => 0
  | w + 1, b, off => (byteAt b off).toNat + 256*getLE w b (off+1)

def putLE : ℕ → Bytes n → ℕ → ℕ → Bytes n
  | 0, b, _, _ => b
  | w + 1, b, off, v => putLE w (setByte b off (UInt8.ofNat v)) (off+1) (v/256)

theorem byteAt_putLE_of_notMem (w : ℕ) (b : Bytes n) (off v : ℕ) {i : ℕ}
    (hi : i < off ∨ off + w ≤ i) : byteAt (putLE w b off v) i = byteAt b i := by
  induction w generalizing b off v with
  | zero => rfl
  | succ w ih =>
    rw [putLE,ih _ (off+1) _ (by omega),byteAt_setByte_ne _ (by omega)]

theorem getLE_congr (w : ℕ) {b c : Bytes n} {off : ℕ}
    (h : ∀ i, off ≤ i → i < off + w → byteAt b i = byteAt c i) : getLE w b off = getLE w c off := by
  induction w generalizing off with
  | zero => rfl
  | succ w ih =>
    rw [getLE,getLE,h off le_rfl (by omega),ih (fun i hi hw => h i (by omega) (by omega))]

/-- A field that fits in the block reads back what was written, modulo its width. -/
theorem getLE_putLE_same (w : ℕ) (b : Bytes n) (off v : ℕ) (h : off + w ≤ n) :
    getLE w (putLE w b off v) off = v % 256^w := by
  induction w generalizing b off v with
  | zero => simp [getLE,Nat.mod_one]
  | succ w ih =>
    have hbyte : byteAt (putLE w (setByte b off (UInt8.ofNat v)) (off+1) (v/256)) off = UInt8.ofNat v := by
      rw [byteAt_putLE_of_notMem _ _ _ _ (by omega),byteAt_setByte_same _ (by omega)]
    rw [putLE,getLE,hbyte,ih _ _ _ (by omega),pow_succ,mul_comm (256^w),Nat.mod_mul]
    simp

theorem getLE_putLE_disjoint (w u : ℕ) (b : Bytes n) (off off' v : ℕ)
    (h : off' + u ≤ off ∨ off + w ≤ off') : getLE u (putLE w b off v) off' = getLE u b off' := by
  apply getLE_congr
  intro i hi hiu
  exact byteAt_putLE_of_notMem _ _ _ _ (by omega)

end Xv6.ByteField
