import Xv6.Fs.Inodes
import Xv6.Library.Ownership

/-! # The blocks and the bytes of a file

The address of each block of a file stands in the inode or in its indirect block. A block
that has no address reads as zeros, so handing out a cleared block changes no byte.
-/
namespace Xv6.Fs
open ByteField Ownership Function

section Bytes
variable {b : Block} {off j k v : ℕ} {src : List UInt8}

theorem byteAt_zeros (i : ℕ) : byteAt zeros i = 0 := by
  unfold byteAt zeros
  split <;> rfl

theorem getLE_zeros (w i : ℕ) : getLE w zeros i = 0 := by
  induction w generalizing i with
  | zero => rfl
  | succ w ih => simp [getLE,ih,byteAt_zeros]

theorem word_zeros (j : ℕ) : word zeros j = 0 := getLE_zeros 4 _

theorem word_setWord (hj : j < NINDIRECT) (hv : v < 2^32) : word (setWord b j v) j = v := by
  have hB := BSIZE_eq
  rw [word,setWord,getLE_putLE_same _ _ _ _ (by simp only [NINDIRECT] at hj; omega)]
  exact Nat.mod_eq_of_lt (by omega)

theorem word_setWord_of_ne (hk : k ≠ j) : word (setWord b j v) k = word b k :=
  getLE_putLE_disjoint _ _ _ _ _ _ (by omega)

theorem byteAt_blit (hk : k < BSIZE) : byteAt (blit b off src) k =
    if off ≤ k ∧ k < off+src.length then src.getD (k-off) 0 else byteAt b k := by
  have hb : byteAt b k = b ⟨k,hk⟩ := by rw [byteAt,dif_pos hk]
  rw [byteAt,dif_pos hk,hb]
  simp only [blit]
  by_cases hoff : off ≤ k
  · rw [if_pos hoff]
    by_cases hlen : k < off+src.length
    · rw [if_pos ⟨hoff,hlen⟩,List.getD_eq_getElem _ _ (by omega),List.getD_eq_getElem _ _ (by omega)]
    · rw [if_neg (fun h => hlen h.2),List.getD_eq_default _ _ (by omega)]
  · rw [if_neg hoff,if_neg (fun h => hoff h.1)]

/-- A buffer laid over the bytes of a file. -/
def overlay (f : ℕ → UInt8) (off : ℕ) (src : List UInt8) (n : ℕ) : UInt8 :=
  if off ≤ n ∧ n < off+src.length then src.getD (n-off) 0 else f n

theorem overlay_nil (f : ℕ → UInt8) (off : ℕ) : overlay f off [] = f := by
  funext n
  exact if_neg (by simp)

theorem overlay_overlay (f : ℕ → UInt8) (off : ℕ) {m : ℕ} (hm : m ≤ src.length) :
    overlay (overlay f off (src.take m)) (off+m) (src.drop m) = overlay f off src := by
  funext n
  simp only [overlay,List.length_take,List.length_drop,Nat.min_eq_left hm]
  by_cases h1 : off+m ≤ n ∧ n < off+m+(src.length-m)
  · rw [if_pos h1,if_pos (by omega),List.getD_eq_getElem?_getD,List.getElem?_drop,List.getD_eq_getElem?_getD]
    congr 3
    omega
  · rw [if_neg h1]
    by_cases h2 : off ≤ n ∧ n < off+m
    · rw [if_pos h2,if_pos (by omega),List.getD_eq_getElem?_getD,List.getElem?_take_of_lt (by omega),
        List.getD_eq_getElem?_getD]
    · rw [if_neg h2,if_neg (by omega)]

end Bytes

section Addresses

/-- A place for a block address: in the inode, or in its indirect block. -/
inductive Spot
  | own (k : Fin (NDIRECT+1))
  | entry (j : ℕ)
  deriving DecidableEq

abbrev indirect : Fin (NDIRECT+1) := Fin.last NDIRECT

variable {blk blk' : ℕ → Block} {d d' : Dinode} {bn n : ℕ} {p : Spot}

def addrAt (blk : ℕ → Block) (d : Dinode) : Spot → ℕ
  | .own k => d.addrs k
  | .entry j => if d.addrs indirect = 0 then 0 else word (blk (d.addrs indirect)) j

def spotOf (bn : ℕ) : Spot := if h : bn < NDIRECT then .own ⟨bn,Nat.lt_succ_of_lt h⟩ else .entry (bn-NDIRECT)

def blockAt (blk : ℕ → Block) (d : Dinode) (bn : ℕ) : ℕ := addrAt blk d (spotOf bn)

def byteOf (blk : ℕ → Block) (d : Dinode) (n : ℕ) : UInt8 :=
  if blockAt blk d (n/BSIZE) = 0 then 0 else byteAt (blk (blockAt blk d (n/BSIZE))) (n%BSIZE)

def contents (blk : ℕ → Block) (d : Dinode) : List UInt8 := (List.range d.size).map (byteOf blk d)

theorem spotOf_own (h : bn < NDIRECT) : spotOf bn = .own ⟨bn,Nat.lt_succ_of_lt h⟩ := dif_pos h

theorem spotOf_entry (h : ¬ bn < NDIRECT) : spotOf bn = .entry (bn-NDIRECT) := dif_neg h

theorem spotOf_ne_indirect (bn : ℕ) : spotOf bn ≠ .own indirect := by
  unfold spotOf
  split
  · rename_i h
    intro he
    have := congrArg Fin.val (Spot.own.inj he)
    simp only [indirect,Fin.val_last] at this
    omega
  · nofun

theorem spotOf_injective : Function.Injective spotOf := by
  intro a b h
  unfold spotOf at h
  split at h <;> split at h
  · exact congrArg Fin.val (Spot.own.inj h)
  · cases h
  · cases h
  · have := Spot.entry.inj h
    omega

theorem addrAt_congr (haddrs : d'.addrs = d.addrs)
    (hblk : d.addrs indirect ≠ 0 → blk' (d.addrs indirect) = blk (d.addrs indirect)) :
    addrAt blk' d' = addrAt blk d := by
  funext p
  cases p with
  | own k => exact congrFun haddrs k
  | entry j =>
    simp only [addrAt,haddrs]
    split
    · rfl
    · rw [hblk ‹_›]

theorem byteOf_congr (haddr : blockAt blk' d' (n/BSIZE) = blockAt blk d (n/BSIZE))
    (hblk : blockAt blk d (n/BSIZE) ≠ 0 → blk' (blockAt blk d (n/BSIZE)) = blk (blockAt blk d (n/BSIZE))) :
    byteOf blk' d' n = byteOf blk d n := by
  simp only [byteOf,haddr]
  split
  · rfl
  · rw [hblk ‹_›]

end Addresses

section Volumes
variable {blk : ℕ → Block} {ino : ℕ → Dinode} {pool : Set ℕ} {used : ℕ → Prop} {i j b : ℕ} {v : Block}

def slotAddr (blk : ℕ → Block) (ino : ℕ → Dinode) (x : ℕ × Spot) : ℕ :=
  if (ino x.1).type = .free then 0 else addrAt blk (ino x.1) x.2

theorem slotAddr_of_type (hi : (ino i).type ≠ .free) (p : Spot) : slotAddr blk ino (i,p) = addrAt blk (ino i) p :=
  if_neg hi

theorem slotAddr_update (hb : ∀ i, (ino i).type ≠ .free → (ino i).addrs indirect = b → b = 0) :
    slotAddr (Function.update blk b v) ino = slotAddr blk ino := by
  funext x
  unfold slotAddr
  split
  · rfl
  · refine congrFun (addrAt_congr rfl fun hne => update_of_ne ?_ ..) _
    exact fun he => hne (he.trans (hb x.1 ‹_› he))

theorem slotAddr_update_unnamed (hb : ∀ x, slotAddr blk ino x = b → b = 0) :
    slotAddr (Function.update blk b v) ino = slotAddr blk ino :=
  slotAddr_update fun i hi he => hb (i,.own indirect) ((slotAddr_of_type hi _).trans he)

theorem slotAddr_setAddr (hi : (ino i).type ≠ .free) {k : Fin (NDIRECT+1)}
    (hk : k = indirect → (ino i).addrs k = 0 ∧ (b ≠ 0 → blk b = zeros)) :
    slotAddr blk (Function.update ino i (setAddr k b (ino i))) = Function.update (slotAddr blk ino) (i,.own k) b := by
  funext ⟨j,p⟩
  by_cases hj : j = i
  · subst j
    have htype : (update ino i (setAddr k b (ino i)) i).type ≠ .free := by
      rw [update_self]
      exact hi
    rw [slotAddr_of_type htype,update_self]
    cases p with
    | own l =>
      by_cases hl : l = k
      · subst l
        rw [update_self]
        exact update_self ..
      · have hne : ((i,.own l) : ℕ × Spot) ≠ (i,.own k) := fun he => hl (Spot.own.inj (Prod.ext_iff.mp he).2)
        rw [update_of_ne hne,slotAddr_of_type hi]
        exact update_of_ne hl ..
    | entry l =>
      rw [update_of_ne (by simp),slotAddr_of_type hi]
      by_cases hl : indirect = k
      · obtain ⟨h0,hz⟩ := hk hl.symm
        subst hl
        simp only [addrAt,setAddr,update_self,h0,if_true]
        split
        · rfl
        · rw [hz ‹_›,word_zeros]
      · simp only [addrAt,setAddr,update_of_ne hl]
  · have hne : ((j,p) : ℕ × Spot) ≠ (i,.own k) := fun he => hj (Prod.ext_iff.mp he).1
    rw [update_of_ne hne]
    simp only [slotAddr,update_of_ne hj]

theorem byteOf_assign {blk' : ℕ → Block} {ino' : ℕ → Dinode} {x : ℕ × Spot}
    (hslot : slotAddr blk' ino' = Function.update (slotAddr blk ino) x b) (hx : slotAddr blk ino x = 0)
    (hz : blk' b = zeros) (htype : (ino' j).type = (ino j).type) (hj : (ino j).type ≠ .free)
    (hdata : ∀ bn, blockAt blk (ino j) bn ≠ 0 → blk' (blockAt blk (ino j) bn) = blk (blockAt blk (ino j) bn))
    (n : ℕ) : byteOf blk' (ino' j) n = byteOf blk (ino j) n := by
  have hj' : (ino' j).type ≠ .free := htype ▸ hj
  have hnew : blockAt blk' (ino' j) (n/BSIZE) = update (slotAddr blk ino) x b (j,spotOf (n/BSIZE)) := by
    rw [← hslot,slotAddr_of_type hj']
    rfl
  have hold : slotAddr blk ino (j,spotOf (n/BSIZE)) = blockAt blk (ino j) (n/BSIZE) := slotAddr_of_type hj _
  by_cases he : (j,spotOf (n/BSIZE)) = x
  · rw [he,update_self] at hnew
    rw [he,hx] at hold
    rw [byteOf,byteOf,hnew,hz,if_pos hold.symm,byteAt_zeros]
    exact ite_self _
  · rw [update_of_ne he,hold] at hnew
    exact byteOf_congr hnew (hdata _)

variable (h : Owned pool (slotAddr blk ino) used)
include h

theorem data_ne (hi : (ino i).type ≠ .free) {bn : ℕ} (hne : blockAt blk (ino i) bn ≠ 0)
    (hj : (ino j).type ≠ .free) : (ino j).addrs indirect ≠ blockAt blk (ino i) bn := by
  intro he
  have hx : slotAddr blk ino (i,spotOf bn) = blockAt blk (ino i) bn := slotAddr_of_type hi _
  have hy : slotAddr blk ino (j,.own indirect) = (ino j).addrs indirect := slotAddr_of_type hj _
  have := h.inj (i,spotOf bn) (j,.own indirect) (hx ▸ hne) (hx.trans (he.symm.trans hy.symm))
  exact spotOf_ne_indirect bn (Prod.ext_iff.mp this).2

theorem slotAddr_setWord (hi : (ino i).type ≠ .free) (ha : (ino i).addrs indirect ≠ 0) {k : ℕ}
    (hk : k < NINDIRECT) (hb : b < 2^32) :
    slotAddr (Function.update blk ((ino i).addrs indirect) (setWord (blk ((ino i).addrs indirect)) k b)) ino =
      Function.update (slotAddr blk ino) (i,.entry k) b := by
  have hx : slotAddr blk ino (i,.own indirect) = (ino i).addrs indirect := slotAddr_of_type hi _
  funext ⟨j,p⟩
  by_cases hj : j = i
  · subst j
    rw [slotAddr_of_type hi]
    cases p with
    | own l => rw [update_of_ne (by simp),slotAddr_of_type hi]; rfl
    | entry l =>
      simp only [addrAt,if_neg ha,update_self]
      by_cases hl : l = k
      · subst l
        rw [word_setWord hk hb,update_self]
      · have hne : ((i,.entry l) : ℕ × Spot) ≠ (i,.entry k) := fun he => hl (Spot.entry.inj (Prod.ext_iff.mp he).2)
        rw [word_setWord_of_ne hl,update_of_ne hne,slotAddr_of_type hi]
        exact (if_neg ha).symm
  · have hne : ((j,p) : ℕ × Spot) ≠ (i,.entry k) := fun he => hj (Prod.ext_iff.mp he).1
    rw [update_of_ne hne]
    unfold slotAddr
    split
    · rfl
    · rename_i hfree
      refine congrFun (addrAt_congr rfl fun hne' => update_of_ne ?_ ..) _
      intro he
      have hy : slotAddr blk ino (j,.own indirect) = (ino j).addrs indirect := slotAddr_of_type hfree _
      have := h.inj (j,.own indirect) (i,.own indirect) (hy ▸ hne') (hy.trans (he.trans hx.symm))
      exact hj (Prod.ext_iff.mp this).1

theorem slotAddr_write (hi : (ino i).type ≠ .free) {bn : ℕ} (hne : blockAt blk (ino i) bn ≠ 0) :
    slotAddr (Function.update blk (blockAt blk (ino i) bn) v) ino = slotAddr blk ino :=
  slotAddr_update fun _ hj he => absurd he (data_ne h hi hne hj)

theorem byteOf_write (hi : (ino i).type ≠ .free) {bn : ℕ} (hne : blockAt blk (ino i) bn ≠ 0)
    (hj : (ino j).type ≠ .free) (n : ℕ) :
    byteOf (Function.update blk (blockAt blk (ino i) bn) v) (ino j) n =
      if j = i ∧ n/BSIZE = bn then byteAt v (n%BSIZE) else byteOf blk (ino j) n := by
  have hslot := congrFun (slotAddr_write (v := v) h hi hne) (j,spotOf (n/BSIZE))
  rw [slotAddr_of_type hj,slotAddr_of_type hj] at hslot
  split
  · rename_i he
    obtain ⟨rfl,rfl⟩ := he
    have hslot : blockAt _ _ _ = blockAt _ _ _ := hslot
    simp only [byteOf,hslot,update_self]
    rw [if_neg hne]
  · rename_i hcase
    refine byteOf_congr hslot fun hne' => update_of_ne ?_ ..
    intro he
    have := h.inj (j,spotOf (n/BSIZE)) (i,spotOf bn) (by rw [slotAddr_of_type hj]; exact hne')
      (by rw [slotAddr_of_type hj,slotAddr_of_type hi]; exact he)
    exact hcase ⟨(Prod.ext_iff.mp this).1,spotOf_injective (Prod.ext_iff.mp this).2⟩

theorem byteOf_blit (hi : (ino i).type ≠ .free) {off : ℕ} {src : List UInt8}
    (hne : blockAt blk (ino i) (off/BSIZE) ≠ 0) (hsrc : off%BSIZE+src.length ≤ BSIZE)
    (hj : (ino j).type ≠ .free) :
    byteOf (Function.update blk (blockAt blk (ino i) (off/BSIZE))
        (blit (blk (blockAt blk (ino i) (off/BSIZE))) (off%BSIZE) src)) (ino j) =
      if j = i then overlay (byteOf blk (ino i)) off src else byteOf blk (ino j) := by
  funext n
  have hB := BSIZE_eq
  have hn : n%BSIZE < BSIZE := Nat.mod_lt _ (by omega)
  have hdiv : 512*(n/BSIZE)+n%BSIZE = n := Nat.div_add_mod n 512
  have hdivoff : 512*(off/BSIZE)+off%BSIZE = off := Nat.div_add_mod off 512
  rw [byteOf_write h hi hne hj]
  by_cases hji : j = i
  · subst j
    rw [if_pos rfl]
    unfold overlay
    by_cases hbn : n/BSIZE = off/BSIZE
    · rw [if_pos ⟨rfl,hbn⟩,byteAt_blit hn]
      have hsame : (off%BSIZE ≤ n%BSIZE ∧ n%BSIZE < off%BSIZE+src.length) ↔ (off ≤ n ∧ n < off+src.length) := by
        omega
      have hidx : n%BSIZE-off%BSIZE = n-off := by omega
      have hold : byteOf blk (ino i) n = byteAt (blk (blockAt blk (ino i) (off/BSIZE))) (n%BSIZE) := by
        rw [byteOf,hbn,if_neg hne]
      rw [if_congr hsame rfl rfl,hidx,hold]
    · rw [if_neg (fun hc => hbn hc.2),if_neg (by omega)]
  · rw [if_neg (fun hc => hji hc.1),if_neg hji]

end Volumes

end Xv6.Fs
