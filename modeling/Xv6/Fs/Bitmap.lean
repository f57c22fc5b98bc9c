import Xv6.Fs.Inodes

/-! # The bitmap of free blocks

`balloc` scans the bitmap block by block and bit by bit with variables of type `int`, and `bfree` computes
the place of a bit from an unsigned number. An `int` that would pass its limit is undefined, and the
driver panics at a block number that is not below `FSSIZE`. On a disk whose bitmap lies below that limit
and marks its own blocks they do what the allocator of `Xv6.Fs` does in one step.
-/
namespace Xv6.Fs.Bitmap
open ByteField Function Program

abbrev Word := BitVec 32
abbrev Block := Bytes BSIZE
abbrev Disk := Word → Block

structure Superblock where
  size : Word
  bmapstart : Word

inductive Stop
  | outOfBlocks
  | freeingFreeBlock
  | incorrectBlockno
  | undefined
  | hang
  deriving DecidableEq

section Code
variable (sb : Superblock)

abbrev BPB : ℕ := 4096

def BBLOCK (b : ℕ) : Word := BitVec.ofNat 32 (b/BPB)+sb.bmapstart

def mask (bi : ℕ) : UInt8 := 1 <<< UInt8.ofNat (bi % 8)

def isFree (data : Block) (bi : ℕ) : Bool := byteAt data (bi/8) &&& mask bi = 0

/-- A buffer that is not in the cache is read by the driver, which refuses numbers from `FSSIZE` on. -/
def bread (d : Disk) (bno : Word) : Except Stop Block :=
  if FSSIZE ≤ bno.toNat then .error .incorrectBlockno else .ok (d bno)

def bzero (d : Disk) (bno : Word) : Except Stop Disk := do
  let _ ← bread d bno
  .ok (update d bno fun _ => 0)

def scanBits (data : Block) (b : ℕ) : ℕ → ℕ → Option ℕ
  | 0, _ => none
  | n+1, bi => if b+bi < sb.size.toNat then if isFree data bi then some bi else scanBits data b n (bi+1) else none

def scanBlocks (d : Disk) : ℕ → ℕ → Except Stop (Word × Disk)
  | 0, _ => .error .hang
  | fuel+1, b =>
    if b < sb.size.toNat then do
      let bb := BBLOCK sb b
      let data ← bread d bb
      match scanBits sb data b BPB 0 with
      | some bi =>
        let bno := BitVec.ofNat 32 (b+bi)
        let d ← bzero (update d bb (setByte data (bi/8) (byteAt data (bi/8) ||| mask bi))) bno
        .ok (bno,d)
      | none => if b+BPB < 2^31 then scanBlocks d fuel (b+BPB) else .error .undefined
    else .error .outOfBlocks

def balloc (d : Disk) : Except Stop (Word × Disk) := scanBlocks sb d (sb.size.toNat/BPB+2) 0

def bfree (d : Disk) (b : Word) : Except Stop Disk := do
  let bb := BBLOCK sb b.toNat
  let data ← bread d bb
  let bi := b.toNat % BPB
  if isFree data bi then .error .freeingFreeBlock
  else .ok (update d bb (setByte data (bi/8) (byteAt data (bi/8) &&& ~~~mask bi)))

end Code

section Bits
variable {sb : Superblock} {d : Disk} {data : Block} {b i j k : ℕ}

def used (sb : Superblock) (d : Disk) (b : ℕ) : Bool := !isFree (d (BBLOCK sb b)) (b % 4096)

theorem mask_bits : ∀ i < 8, ∀ j < 8, (mask i).toBitVec.getLsbD j = decide (j = i) := by decide

theorem mask_mod (k : ℕ) : mask k = mask (k % 8) := by rw [mask,mask,Nat.mod_mod]

theorem isFree_eq (data : Block) (k : ℕ) : isFree data k = !(byteAt data (k/8)).toBitVec.getLsbD (k % 8) := by
  have hbit : byteAt data (k/8) &&& mask k = 0 ↔ (byteAt data (k/8)).toBitVec.getLsbD (k % 8) = false := by
    rw [mask_mod]
    constructor
    · intro h
      have := congrArg (fun x : UInt8 => x.toBitVec.getLsbD (k % 8)) h
      simpa [mask_bits (k % 8) (by omega) (k % 8) (by omega)] using this
    · intro h
      apply UInt8.eq_of_toBitVec_eq
      apply BitVec.eq_of_getLsbD_eq
      intro j hj
      rw [UInt8.toBitVec_and,BitVec.getLsbD_and,mask_bits (k % 8) (by omega) j hj]
      by_cases he : j = k % 8
      · rw [he,h]
        simp
      · simp [he]
  rw [isFree]
  cases hk : (byteAt data (k/8)).toBitVec.getLsbD (k % 8) with
  | false => simpa using hbit.mpr hk
  | true => simpa using fun h => Bool.false_ne_true ((hbit.mp h).symm.trans hk)

/-- Setting or clearing one bit of a byte of a block. -/
theorem isFree_setByte {v : UInt8} {x : Bool} (hk : k < 4096)
    (hv : ∀ j < 8, v.toBitVec.getLsbD j = if j = k % 8 then x else (byteAt data (k/8)).toBitVec.getLsbD j) :
    isFree (setByte data (k/8) v) j = if j = k then !x else isFree data j := by
  rw [isFree_eq,isFree_eq]
  have hsize : BSIZE = 512 := rfl
  by_cases hbyte : j/8 = k/8
  · rw [hbyte,byteAt_setByte_same _ (by omega),hv _ (by omega)]
    by_cases hbit : j % 8 = k % 8
    · rw [if_pos hbit,if_pos (by omega)]
    · rw [if_neg hbit,if_neg (by rintro rfl; exact hbit rfl)]
  · rw [byteAt_setByte_ne _ hbyte,if_neg (by rintro rfl; exact hbyte rfl)]

theorem isFree_mark (hk : k < 4096) : isFree (setByte data (k/8) (byteAt data (k/8) ||| mask k)) j =
    if j = k then false else isFree data j := by
  refine isFree_setByte (x := true) hk fun i hi => ?_
  rw [UInt8.toBitVec_or,BitVec.getLsbD_or,mask_mod,mask_bits _ (by omega) i hi]
  by_cases he : i = k % 8 <;> simp [he]

theorem isFree_clear (hk : k < 4096) : isFree (setByte data (k/8) (byteAt data (k/8) &&& ~~~mask k)) j =
    if j = k then true else isFree data j := by
  refine isFree_setByte (x := false) hk fun i hi => ?_
  rw [UInt8.toBitVec_and,BitVec.getLsbD_and,UInt8.toBitVec_not,BitVec.getLsbD_not,mask_mod,mask_bits _ (by omega) i hi]
  by_cases he : i = k % 8
  · simp [he]
  · simp [he,hi]

/-- Different bitmap blocks have different numbers. -/
theorem BBLOCK_inj (hi : i < 2^33) (hj : j < 2^33) : BBLOCK sb i = BBLOCK sb j ↔ i/4096 = j/4096 := by
  constructor
  · intro h
    have hcancel : BitVec.ofNat 32 (i/4096) = BitVec.ofNat 32 (j/4096) := by
      rw [← BitVec.add_sub_cancel (BitVec.ofNat 32 (i/4096)) sb.bmapstart,← BitVec.add_sub_cancel (BitVec.ofNat 32 (j/4096))]
      exact congrArg (· - sb.bmapstart) h
    have := congrArg BitVec.toNat hcancel
    rw [BitVec.toNat_ofNat,BitVec.toNat_ofNat] at this
    omega
  · intro h
    rw [BBLOCK,BBLOCK,h]

/-- Storing a bitmap block in which one bit has a new value changes the bit of one block number. -/
theorem used_update {data : Block} {free : Bool} (hk : k < 2^33) (hj : j < 2^33)
    (hdata : ∀ i, isFree data i = if i = k % 4096 then free else isFree (d (BBLOCK sb k)) i) :
    used sb (update d (BBLOCK sb k) data) j = if j = k then !free else used sb d j := by
  unfold used
  by_cases hblock : j/4096 = k/4096
  · rw [(BBLOCK_inj hj hk).mpr hblock,update_self,hdata]
    by_cases hbit : j % 4096 = k % 4096
    · rw [if_pos hbit,if_pos (by omega)]
    · rw [if_neg hbit,if_neg (by rintro rfl; exact hbit rfl)]
  · rw [update_of_ne fun he => hblock ((BBLOCK_inj hj hk).mp he),if_neg (by rintro rfl; exact hblock rfl)]

def mark (sb : Superblock) (d : Disk) (k : ℕ) : Disk :=
  let data := d (BBLOCK sb k)
  update d (BBLOCK sb k) (setByte data (k % 4096/8) (byteAt data (k % 4096/8) ||| mask (k % 4096)))

theorem used_mark (hk : k < 2^33) (hj : j < 2^33) : used sb (mark sb d k) j = if j = k then true else used sb d j :=
  used_update hk hj fun _ => isFree_mark (Nat.mod_lt _ (by decide))

end Bits

section Scan
variable {sb : Superblock} {d : Disk} {data : Block} {b i n bi fuel : ℕ}

theorem scanBits_some (h : scanBits sb data b n bi = some i) : bi ≤ i ∧ i < bi+n ∧ b+i < sb.size.toNat ∧
    isFree data i = true ∧ ∀ j, bi ≤ j → j < i → isFree data j = false := by
  induction n generalizing bi with
  | zero => cases h
  | succ n ih =>
    rw [scanBits] at h
    split at h
    · split at h
      · cases h
        exact ⟨le_rfl,by omega,‹_›,‹_›,fun j hlo hhi => by omega⟩
      · rename_i hset
        obtain ⟨hlo,hhi,hsize,hfree,hbefore⟩ := ih h
        refine ⟨by omega,by omega,hsize,hfree,fun j hj hji => ?_⟩
        rcases Nat.eq_or_lt_of_le hj with rfl | hj
        · exact Bool.eq_false_iff.mpr hset
        · exact hbefore j hj hji
    · cases h

theorem scanBits_none (h : scanBits sb data b n bi = none) :
    ∀ j, bi ≤ j → j < bi+n → b+j < sb.size.toNat → isFree data j = false := by
  induction n generalizing bi with
  | zero => exact fun j hlo hhi => by omega
  | succ n ih =>
    rw [scanBits] at h
    intro j hlo hhi hsize
    rw [if_pos (by omega)] at h
    split at h
    · cases h
    · rename_i hset
      rcases Nat.eq_or_lt_of_le hlo with rfl | hlo
      · exact Bool.eq_false_iff.mpr hset
      · exact ih h j hlo (by omega) hsize

/-- The number `k` has a bit on a bitmap block that the scan may read. -/
def InMap (sb : Superblock) (k : ℕ) : Prop := k/4096*4096 < sb.size.toNat

/-- The driver accepts every bitmap block. -/
def OnDisk (sb : Superblock) : Prop := ∀ k, InMap sb k → (BBLOCK sb k).toNat < FSSIZE

theorem InMap.lt {k : ℕ} (h : InMap sb k) : k < 2^33 := by
  have := sb.size.isLt
  unfold InMap at h
  omega

theorem inMap_of_lt {k : ℕ} (h : k < sb.size.toNat) : InMap sb k := by
  unfold InMap
  omega

theorem bread_onDisk (h : OnDisk sb) {k : ℕ} (hk : InMap sb k) : bread d (BBLOCK sb k) = .ok (d (BBLOCK sb k)) :=
  if_neg (not_le_of_gt (h k hk))

/-- So few bitmap blocks are below the limit that the variable of the scan cannot overflow. -/
theorem OnDisk.size_le (h : OnDisk sb) : sb.size.toNat ≤ 4096*FSSIZE := by
  by_contra hlarge
  have hsize := FSSIZE_eq
  have hfirst : sb.bmapstart.toNat < FSSIZE := by
    have hzero := h 0 (by unfold InMap; omega)
    rwa [BBLOCK,Nat.zero_div,BitVec.zero_add] at hzero
  have hlast := h (4096*FSSIZE) (by unfold InMap; omega)
  rw [BBLOCK,BitVec.toNat_add,BitVec.toNat_ofNat,Nat.mul_div_cancel_left _ (by decide)] at hlast
  omega

theorem scanBlocks_succ (hdisk : OnDisk sb) (hb : b < sb.size.toNat) : scanBlocks sb d (fuel+1) b =
    match scanBits sb (d (BBLOCK sb b)) b BPB 0 with
    | some bi => (bzero (update d (BBLOCK sb b) (setByte (d (BBLOCK sb b)) (bi/8)
        (byteAt (d (BBLOCK sb b)) (bi/8) ||| mask bi))) (BitVec.ofNat 32 (b+bi))).map fun d' => (BitVec.ofNat 32 (b+bi),d')
    | none => if b+BPB < 2^31 then scanBlocks sb d fuel (b+BPB) else .error .undefined := by
  rw [scanBlocks,if_pos hb]
  dsimp only
  rw [bread_onDisk hdisk (inMap_of_lt hb)]
  rfl

/-- From a bitmap block on, the scan finds the first free block, or there is none. -/
theorem scanBlocks_cases (hdisk : OnDisk sb) (fuel : ℕ) (hb : b % 4096 = 0) (hlt : b < sb.size.toNat+4096)
    (hfuel : sb.size.toNat+4096 ≤ b+4096*fuel) (hset : ∀ k < b, k < sb.size.toNat → used sb d k = true) :
    (∃ k < sb.size.toNat, used sb d k = false ∧ (∀ j < k, used sb d j = true) ∧ scanBlocks sb d fuel b =
      (bzero (mark sb d k) (BitVec.ofNat 32 k)).map fun d' => (BitVec.ofNat 32 k,d')) ∨
    (∀ k < sb.size.toNat, used sb d k = true) ∧ scanBlocks sb d fuel b = .error .outOfBlocks := by
  induction fuel generalizing b with
  | zero => omega
  | succ fuel ih =>
    by_cases hb' : b < sb.size.toNat
    · have hplace : ∀ j < 4096, BBLOCK sb (b+j) = BBLOCK sb b ∧ (b+j) % 4096 = j := fun j hj =>
        ⟨congrArg (BitVec.ofNat 32 · + sb.bmapstart) (show (b+j)/4096 = b/4096 by omega),by omega⟩
      have hbit : ∀ j < 4096, used sb d (b+j) = !isFree (d (BBLOCK sb b)) j := fun j hj => by
        rw [used,(hplace j hj).1,(hplace j hj).2]
      rw [scanBlocks_succ hdisk hb']
      cases hscan : scanBits sb (d (BBLOCK sb b)) b BPB 0 with
      | some i =>
        obtain ⟨-,hi,hsize,hfree,hbefore⟩ := scanBits_some hscan
        replace hi : i < 0+4096 := hi
        refine .inl ⟨b+i,hsize,by rw [hbit i (by omega),hfree]; rfl,fun j hj => ?_,?_⟩
        · by_cases hjb : j < b
          · exact hset j hjb (by omega)
          · have hij := hbit (j-b) (by omega)
            rw [Nat.add_sub_cancel' (by omega),hbefore (j-b) (Nat.zero_le _) (by omega)] at hij
            exact hij
        · rw [mark,(hplace i (by omega)).1,(hplace i (by omega)).2]
      | none =>
        have hnone : ∀ j, 0 ≤ j → j < 0+4096 → _ := scanBits_none hscan
        have hsize := hdisk.size_le
        have hlimit := FSSIZE_eq
        dsimp only
        rw [if_pos (show b+4096 < 2^31 by omega)]
        refine ih (b := b+4096) (by omega) (by omega) (by omega) fun k hk hsize => ?_
        by_cases hkb : k < b
        · exact hset k hkb hsize
        · have hik := hbit (k-b) (by omega)
          rw [Nat.add_sub_cancel' (by omega),hnone (k-b) (Nat.zero_le _) (by omega) (by omega)] at hik
          exact hik
    · rw [scanBlocks,if_neg hb']
      exact .inr ⟨fun k hk => hset k (by omega) hk,rfl⟩

/-- What `balloc` does. -/
theorem balloc_eq (hdisk : OnDisk sb) :
    (∃ k < sb.size.toNat, used sb d k = false ∧ (∀ j < k, used sb d j = true) ∧ balloc sb d =
      if FSSIZE ≤ k then .error .incorrectBlockno
      else .ok (BitVec.ofNat 32 k,update (mark sb d k) (BitVec.ofNat 32 k) fun _ => 0)) ∨
    (∀ k < sb.size.toNat, used sb d k = true) ∧ balloc sb d = .error .outOfBlocks := by
  refine Or.imp_left ?_ (scanBlocks_cases hdisk (sb.size.toNat/4096+2) (b := 0) rfl (by omega) (by omega)
    (fun k hk => absurd hk (Nat.not_lt_zero k)))
  rintro ⟨k,hk,hfree,hlow,hrun⟩
  refine ⟨k,hk,hfree,hlow,?_⟩
  have hnum : (BitVec.ofNat 32 k).toNat = k := by
    have := sb.size.isLt
    rw [BitVec.toNat_ofNat]
    omega
  rw [balloc,hrun,bzero,bread,hnum]
  split <;> rfl

end Scan

section Allocation
variable {sb : Superblock} {d d' : Disk} {b : Word}

/-- The bitmap marks its own blocks as in use. -/
def Reserved (sb : Superblock) (d : Disk) : Prop :=
  ∀ b : Word, b.toNat < sb.size.toNat → (∃ k, InMap sb k ∧ BBLOCK sb k = b) → used sb d b.toNat = true

/-- `balloc` takes the lowest free block, marks it in the bitmap and clears it. -/
structure Allocated (sb : Superblock) (d : Disk) (b : Word) (d' : Disk) : Prop where
  free : b.toNat < sb.size.toNat ∧ used sb d b.toNat = false
  lowest : ∀ k < b.toNat, used sb d k = true
  bit : ∀ k, InMap sb k → used sb d' k = (used sb d k || decide (k = b.toNat))
  zeroed : d' b = fun _ => 0
  others : ∀ c, c ≠ b → c ≠ BBLOCK sb b.toNat → d' c = d c

/-- `bfree` clears the bit of the block and nothing else. -/
structure Freed (sb : Superblock) (d : Disk) (b : Word) (d' : Disk) : Prop where
  bit : ∀ k, InMap sb k → used sb d' k = (used sb d k && decide (k ≠ b.toNat))
  others : ∀ c, c ≠ BBLOCK sb b.toNat → d' c = d c

theorem bfree_eq (hdisk : OnDisk sb) (hb : b.toNat < sb.size.toNat) : bfree sb d b =
    if used sb d b.toNat = false then .error .freeingFreeBlock
    else .ok (update d (BBLOCK sb b.toNat) (setByte (d (BBLOCK sb b.toNat)) (b.toNat % BPB/8)
      (byteAt (d (BBLOCK sb b.toNat)) (b.toNat % BPB/8) &&& ~~~mask (b.toNat % BPB)))) := by
  unfold bfree used
  dsimp only
  rw [bread_onDisk hdisk (inMap_of_lt hb)]
  simp only [Bool.not_eq_false']
  rfl

theorem bfree_ok (hdisk : OnDisk sb) (hb : b.toNat < sb.size.toNat) (hset : used sb d b.toNat = true) :
    ∃ d', bfree sb d b = .ok d' ∧ Freed sb d b d' := by
  have hlt := b.isLt
  refine ⟨_,(bfree_eq hdisk hb).trans (if_neg (by simp [hset])),fun k hk => ?_,fun c hc => update_of_ne hc _ _⟩
  rw [used_update (by omega) hk.lt fun _ => isFree_clear (Nat.mod_lt _ (by decide))]
  by_cases he : k = b.toNat <;> simp [he]

theorem allocated (hres : Reserved sb d) {k : ℕ} (hk : k < sb.size.toNat) (hfree : used sb d k = false)
    (hlow : ∀ j < k, used sb d j = true) :
    Allocated sb d (BitVec.ofNat 32 k) (update (mark sb d k) (BitVec.ofNat 32 k) fun _ => 0) := by
  have hsize := sb.size.isLt
  have hnum : (BitVec.ofNat 32 k).toNat = k := by
    rw [BitVec.toNat_ofNat]
    omega
  refine ⟨?_,?_,fun j hj => ?_,update_self _ _ _,fun c hc hc' => ?_⟩
  · rw [hnum]
    exact ⟨hk,hfree⟩
  · rw [hnum]
    exact hlow
  · -- The block is none of the bitmap's, so that it can be zeroed.
    have hne : BBLOCK sb j ≠ BitVec.ofNat 32 k := fun he => by
      have := hres (BitVec.ofNat 32 k) (by omega) ⟨j,hj,he⟩
      rw [hnum,hfree] at this
      cases this
    rw [used,update_of_ne hne]
    change used sb (mark sb d k) j = _
    rw [used_mark (by omega) hj.lt,hnum]
    by_cases he : j = k <;> simp [he]
  · rw [hnum] at hc'
    rw [update_of_ne hc,mark,update_of_ne hc']

/-- The allocator hands out the lowest free block, empty, and panics where there is none; a lowest free block
that the driver refuses ends in the driver's panic. A block that is given back gets its bit back. -/
structure Scans (sb : Superblock) (d : Disk) : Prop where
  panics : balloc sb d = .error .outOfBlocks ↔ ∀ k < sb.size.toNat, used sb d k = true
  refused : balloc sb d = .error .incorrectBlockno ↔
    (∃ k < sb.size.toNat, used sb d k = false) ∧ ∀ k < sb.size.toNat, k < FSSIZE → used sb d k = true
  returns : (∃ k < sb.size.toNat, k < FSSIZE ∧ used sb d k = false) → ∃ b d', balloc sb d = .ok (b,d')
  allocates : ∀ b d', balloc sb d = .ok (b,d') → Allocated sb d b d'
  restores : ∀ b d', balloc sb d = .ok (b,d') →
    ∃ d'', bfree sb d' b = .ok d'' ∧ ∀ k, InMap sb k → used sb d'' k = used sb d k
  frees : ∀ b : Word, b.toNat < sb.size.toNat → used sb d b.toNat = true → ∃ d', bfree sb d b = .ok d' ∧ Freed sb d b d'

theorem Allocated.restores (hdisk : OnDisk sb) (h : Allocated sb d b d') :
    ∃ d'', bfree sb d' b = .ok d'' ∧ ∀ k, InMap sb k → used sb d'' k = used sb d k := by
  have hin := inMap_of_lt h.free.1
  obtain ⟨d'',hrun,hfreed⟩ := bfree_ok (d := d') hdisk h.free.1 (by rw [h.bit _ hin]; simp)
  refine ⟨d'',hrun,fun k hk => ?_⟩
  rw [hfreed.bit k hk,h.bit k hk]
  by_cases he : k = b.toNat
  · rw [he,h.free.2]
    simp
  · simp [he]

/-- Where the driver accepts the bitmap and the bitmap marks its own blocks, the allocator does what it should. -/
theorem balloc_scans (hdisk : OnDisk sb) (hres : Reserved sb d) : Scans sb d := by
  have halloc : ∀ b d', balloc sb d = .ok (b,d') → Allocated sb d b d' := by
    intro b d' h
    rcases balloc_eq hdisk with ⟨k,hk,hfree,hlow,hrun⟩ | ⟨-,hrun⟩
    · rw [hrun] at h
      split at h
      · cases h
      · cases h
        exact allocated hres hk hfree hlow
    · cases hrun.symm.trans h
  suffices h : (balloc sb d = .error .outOfBlocks ↔ ∀ k < sb.size.toNat, used sb d k = true) ∧
      (balloc sb d = .error .incorrectBlockno ↔ (∃ k < sb.size.toNat, used sb d k = false) ∧
        ∀ k < sb.size.toNat, k < FSSIZE → used sb d k = true) ∧
      ((∃ k < sb.size.toNat, k < FSSIZE ∧ used sb d k = false) → ∃ b d', balloc sb d = .ok (b,d')) from
    ⟨h.1,h.2.1,h.2.2,halloc,fun b d' h => (halloc b d' h).restores hdisk,fun b hb hset => bfree_ok hdisk hb hset⟩
  rcases balloc_eq hdisk with ⟨k,hk,hfree,hlow,hrun⟩ | ⟨hall,hrun⟩
  · have hsome : ¬ ∀ k < sb.size.toNat, used sb d k = true := fun hall => by
      rw [hall k hk] at hfree
      cases hfree
    rw [hrun]
    by_cases hlimit : FSSIZE ≤ k
    · rw [if_pos hlimit]
      refine ⟨iff_of_false nofun hsome,iff_of_true rfl ⟨⟨k,hk,hfree⟩,fun j _ hj => hlow j (by omega)⟩,?_⟩
      rintro ⟨j,-,hj,hjfree⟩
      rw [hlow j (by omega)] at hjfree
      cases hjfree
    · rw [if_neg hlimit]
      refine ⟨iff_of_false nofun hsome,iff_of_false nofun fun h => ?_,fun _ => ⟨_,_,rfl⟩⟩
      rw [h.2 k hk (by omega)] at hfree
      cases hfree
  · rw [hrun]
    have hnone : ∀ {k}, k < sb.size.toNat → used sb d k ≠ false := fun hk hfree => by
      rw [hall _ hk] at hfree
      cases hfree
    exact ⟨iff_of_true rfl hall,iff_of_false nofun fun ⟨⟨k,hk,hfree⟩,_⟩ => hnone hk hfree,
      fun ⟨k,hk,_,hfree⟩ => absurd hfree (hnone hk)⟩

/-- A bitmap whose first bytes are all ones. -/
theorem balloc_scans_small : Scans ⟨1000,58⟩ fun _ j => if j.val < 8 then 255 else 0 := by
  have hfirst : ∀ k, InMap ⟨1000,58⟩ k → BBLOCK ⟨1000,58⟩ k = 58 := fun k hk => by
    have hin : k/4096*4096 < 1000 := hk
    have hzero : k/BPB = 0 := by
      change k/4096 = 0
      omega
    rw [BBLOCK,hzero]
    rfl
  refine balloc_scans (fun k hk => ?_) fun b _ hblock => ?_
  · rw [hfirst k hk]
    decide
  · obtain ⟨k,hk,rfl⟩ := hblock
    rw [hfirst k hk]
    decide

/-- Where the lowest free block is the bitmap itself, zeroing it frees the blocks in use. -/
theorem balloc_erases : (balloc ⟨1000,58⟩ fun _ j => if j.val < 7 then 255 else if j.val = 7 then 3 else 0).toOption.map
      (fun r => (r.1,used ⟨1000,58⟩ r.2 0)) = some (58,false) ∧
    used ⟨1000,58⟩ (fun _ j => if j.val < 7 then 255 else if j.val = 7 then 3 else 0) 0 = true := by
  decide +kernel

end Allocation

section Refinement
variable {sb : Superblock} {d d' : Disk} {s s' : Sys}

/-- The bits of the bitmap and the blocks besides it, as the file system of `Xv6.Fs` has them. -/
structure Shown (sb : Superblock) (d : Disk) (s : Sys) : Prop where
  used : ∀ k < sb.size.toNat, s.used k = used sb d k
  block : ∀ b : Word, (∀ k, InMap sb k → BBLOCK sb k ≠ b) → s.block b.toNat = d b

variable (hdisk : OnDisk sb) (hres : Reserved sb d) (hs : Shown sb d s)
include hdisk hs

include hres in
/-- The scan of the bitmap is the search for the first free number. -/
theorem balloc_refines [vol : Fs.Superblock] (hsize : vol.size = sb.size.toNat) :
    match balloc sb d, Fs.balloc s with
    | .ok (b,d'), .ok b' s' => b' = b.toNat ∧ Shown sb d' s'
    | .error .outOfBlocks, .error .ballocOutOfBlocks _ => True
    | .error .incorrectBlockno, .error .incorrectBlockno _ => True
    | _, _ => False := by
  unfold Fs.balloc
  rw [bind_of_ok (get_apply s)]
  rcases balloc_eq (d := d) hdisk with ⟨k,hk,hfree,hlow,hrun⟩ | ⟨hall,hrun⟩
  · have hfind : ((List.range vol.size).find? fun b => !s.used b) = some k := by
      rw [List.find?_range_eq_some]
      refine ⟨by rw [hs.used k hk,hfree]; rfl,List.mem_range.mpr (hsize ▸ hk),fun j hj => ?_⟩
      rw [hs.used j (by omega),hlow j hj]
      rfl
    rw [hrun,hfind]
    dsimp only
    unfold Fs.bzero bwrite
    by_cases hlimit : FSSIZE ≤ k
    · rw [if_pos hlimit,if_pos hlimit]
      trivial
    · rw [if_neg hlimit,if_neg hlimit]
      have hsize := sb.size.isLt
      have hnum : (BitVec.ofNat 32 k).toNat = k := by
        rw [BitVec.toNat_ofNat]
        omega
      have halloc := allocated hres hk hfree hlow
      refine ⟨hnum.symm,fun j hj => ?_,fun b hb => ?_⟩
      · rw [halloc.bit j (inMap_of_lt hj),hnum,← hs.used j hj]
        change update s.used k true j = _
        by_cases he : j = k <;> simp [he]
      · change update s.block k zeros b.toNat = _
        by_cases he : b = BitVec.ofNat 32 k
        · rw [he,halloc.zeroed,hnum,update_self]
          rfl
        · have hne : b.toNat ≠ k := fun h => he (by rw [← h,BitVec.ofNat_toNat,BitVec.setWidth_eq])
          rw [update_of_ne hne,halloc.others b he (hb _ (hnum.symm ▸ inMap_of_lt hk)).symm,hs.block b hb]
  · have hfind : ((List.range vol.size).find? fun b => !s.used b) = none := by
      rw [List.find?_eq_none]
      intro k hk
      rw [List.mem_range,hsize] at hk
      rw [hs.used k hk,hall k hk]
      decide
    rw [hrun,hfind]
    trivial

theorem bfree_refines {b : Word} (hb : b.toNat < sb.size.toNat) :
    match bfree sb d b, Fs.bfree b.toNat s with
    | .ok d', .ok _ s' => Shown sb d' s'
    | .error .freeingFreeBlock, .error .freeingFreeBlock _ => True
    | _, _ => False := by
  unfold Fs.bfree
  rw [bind_of_ok (get_apply s),hs.used _ hb]
  cases hset : used sb d b.toNat with
  | false =>
    rw [bfree_eq hdisk hb,if_pos hset]
    trivial
  | true =>
    obtain ⟨d',hrun,hfreed⟩ := bfree_ok hdisk hb hset
    rw [hrun]
    refine ⟨fun k hk => ?_,fun c hc => ?_⟩
    · rw [hfreed.bit k (inMap_of_lt hk),← hs.used k hk]
      change update s.used b.toNat false k = _
      by_cases he : k = b.toNat <;> simp [he]
    · rw [hfreed.others c (hc _ (inMap_of_lt hb)).symm]
      exact hs.block c hc

end Refinement
end Xv6.Fs.Bitmap
