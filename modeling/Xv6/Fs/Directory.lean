import Xv6.Fs.ReadBack
import Xv6.Library.SlotTable

/-! # Directories as tables

The contents of a directory are slots of sixteen bytes. Reading changes nothing, so a scan is a search
in the list of the slots; writing an entry fills one slot.
-/
namespace Xv6.Fs
open Program Overwrite SlotTable

section Slots
variable {bytes src : List UInt8} {k : ℕ}

def slotAt (bytes : List UInt8) (k : ℕ) : Dirent := Dirent.ofBytes ((bytes.drop (DIRENT*k)).take DIRENT)

/-- The entries of a directory, the free ones too. -/
def slots (bytes : List UInt8) : List Dirent := (List.range (bytes.length/DIRENT)).map (slotAt bytes)

theorem length_slots (bytes : List UInt8) : (slots bytes).length = bytes.length/DIRENT := by
  rw [slots,List.length_map,List.length_range]

theorem getElem?_slots (bytes : List UInt8) (k : ℕ) :
    (slots bytes)[k]? = if k < bytes.length/DIRENT then some (slotAt bytes k) else none := by
  rw [slots,List.getElem?_map]
  split
  · rename_i hk
    rw [List.getElem?_range hk]
    rfl
  · rename_i hk
    rw [List.getElem?_eq_none (by rw [List.length_range]; omega)]
    rfl

theorem slots_overwrite (hsrc : src.length = DIRENT) (halign : DIRENT ∣ bytes.length) (hk : k ≤ (slots bytes).length) :
    slots (overwrite bytes (DIRENT*k) src) = put (slots bytes) k (Dirent.ofBytes src) := by
  obtain ⟨n,hn⟩ := halign
  have hlen : (slots bytes).length = n := by rw [length_slots,hn,Nat.mul_div_cancel_left _ (by decide)]
  have hle : DIRENT*k ≤ bytes.length := by
    rw [hn]
    exact Nat.mul_le_mul_left _ (hlen ▸ hk)
  have hlen' : (overwrite bytes (DIRENT*k) src).length = DIRENT*max n (k+1) := by
    rw [length_overwrite hle,hn,hsrc,← Nat.mul_max_mul_left]
    rfl
  have hslot : ∀ j, slotAt (overwrite bytes (DIRENT*k) src) j = if j = k then Dirent.ofBytes src else slotAt bytes j := by
    intro j
    unfold slotAt
    rw [← apply_ite Dirent.ofBytes]
    refine congrArg Dirent.ofBytes (List.ext_getElem? fun i => ?_)
    have hD : DIRENT = 16 := rfl
    have hk16 : DIRENT*k = 16*k := rfl
    have hj16 : DIRENT*j = 16*j := rfl
    by_cases hi : i < DIRENT
    · rw [List.getElem?_take_of_lt hi,List.getElem?_drop,getElem?_overwrite hle]
      by_cases hj : j = k
      · rw [if_pos hj,if_pos (by rw [hj]; omega),hj,Nat.add_sub_cancel_left]
      · rw [if_neg hj,if_neg (by omega),List.getElem?_take_of_lt hi,List.getElem?_drop]
    · rw [List.getElem?_eq_none (by rw [List.length_take]; omega),List.getElem?_eq_none ?_]
      split
      · omega
      · rw [List.length_take]
        omega
  refine List.ext_getElem? fun j => ?_
  rw [getElem?_put hk,getElem?_slots,getElem?_slots,hlen',hn,Nat.mul_div_cancel_left _ (by decide),
    Nat.mul_div_cancel_left _ (by decide),hslot]
  rw [hlen] at hk
  by_cases hj : j = k
  · rw [if_pos (by omega),if_pos hj,if_pos hj]
  · rw [if_neg hj,if_neg hj]
    exact if_congr (by omega) rfl rfl

end Slots

section Scans
variable {s s' : Sys} {dp : ℕ} {test : Dirent → Bool}

def Sys.slots (s : Sys) (dp : ℕ) : List Dirent := Fs.slots (contents s.block (s.inode dp))

def scan (test : Dirent → Bool) : ℕ → List Dirent → Option (ℕ × Dirent)
  | _, [] => none
  | k, de :: ds => if test de then some (DIRENT*k,de) else scan test (k+1) ds

theorem scan_eq (test : Dirent → Bool) (k : ℕ) (ds : List Dirent) :
    scan test k ds = (ds.findIdx? test).bind fun i => ds[i]?.map fun de => (DIRENT*(k+i),de) := by
  induction ds generalizing k with
  | nil => rfl
  | cons de ds ih =>
    rw [scan,List.findIdx?_cons]
    by_cases hde : test de = true
    · rw [if_pos hde,if_pos hde]
      rfl
    · rw [if_neg hde,if_neg hde,ih]
      cases ds.findIdx? test with
      | none => rfl
      | some i =>
        change Option.map _ ds[i]? = Option.map _ ds[i]?
        have hoff : k+1+i = k+(i+1) := by omega
        rw [hoff]

variable [sb : Superblock]

/-- The inode is a directory in the cache whose size is a whole number of entries. -/
structure Sys.Directory (s : Sys) (dp : ℕ) : Prop where
  consistent : s.Consistent
  cached : s.Cached dp
  type : (s.inode dp).type = .dir
  aligned : DIRENT ∣ (s.inode dp).size

variable (h : s.Directory dp)
include h

theorem Sys.Directory.length_slots : 16*(s.slots dp).length = (s.inode dp).size := by
  change DIRENT*_ = _
  rw [Sys.slots,Fs.length_slots,length_contents,Nat.mul_div_cancel' h.aligned]

theorem Sys.Directory.size_le : (s.inode dp).size ≤ MAXFILE*BSIZE :=
  h.consistent.sizes dp (by rw [h.type]; nofun)

theorem readDirent_ok (what : Stop) {k : ℕ} (hk : k < (s.slots dp).length) :
    readDirent dp what (DIRENT*k) s = .ok (slotAt (contents s.block (s.inode dp)) k) s := by
  have hlen := h.length_slots
  have hmax : (s.inode dp).size ≤ 71680 := h.size_le
  have hD : DIRENT = 16 := rfl
  have hk16 : DIRENT*k = 16*k := rfl
  unfold readDirent
  rw [bind_of_ok (readi_ok h.consistent (by rw [h.type]; nofun) h.cached (by rw [h.type]; nofun) _ _)]
  unfold clip
  rw [length_contents,if_neg (by rw [Nat.mod_eq_of_lt (by omega)]; omega)]
  dsimp only
  have hread : (((contents s.block (s.inode dp)).drop (DIRENT*k)).take DIRENT).length = DIRENT := by
    rw [List.length_take,List.length_drop,length_contents]
    omega
  rw [if_neg (not_not_intro hread)]
  rfl

theorem dirscan_ok (what : Stop) (test : Dirent → Bool) {n k : ℕ} (hn : (s.slots dp).length ≤ k+n) :
    dirscan dp what test n (DIRENT*k) s = .ok (scan test k ((s.slots dp).drop k)) s := by
  have hlen := h.length_slots
  have hD : DIRENT = 16 := rfl
  induction n generalizing k with
  | zero =>
    rw [List.drop_eq_nil_of_le (by omega)]
    rfl
  | succ n ih =>
    have hk16 : DIRENT*k = 16*k := rfl
    unfold dirscan
    rw [bind_of_ok (get_apply s),← h.cached.inode]
    by_cases hk : k < (s.slots dp).length
    · have hslot : (s.slots dp)[k]? = some (slotAt (contents s.block (s.inode dp)) k) := by
        rw [Sys.slots,getElem?_slots,if_pos (by rwa [← Fs.length_slots])]
      obtain ⟨hk',hget⟩ := List.getElem?_eq_some_iff.mp hslot
      rw [if_pos (by omega),bind_of_ok (readDirent_ok h what hk),List.drop_eq_getElem_cons hk,scan,hget]
      by_cases htest : test (slotAt (contents s.block (s.inode dp)) k) = true
      · rw [if_pos htest,if_pos htest]
        rfl
      · rw [if_neg htest,if_neg htest]
        exact ih (k := k+1) (by omega)
    · rw [if_neg (by omega),List.drop_eq_nil_of_le (by omega)]
      rfl

theorem Sys.Directory.rounds_size : rounds (s.inode dp).size = (s.slots dp).length := by
  have hlen := h.length_slots
  change ((s.inode dp).size+16-1)/16 = _
  omega

end Scans

section Lookup
variable {s s' : Sys} {dp : ℕ} {name : Name} {ds : List Dirent}

def holds (name : Name) (de : Dirent) : Bool := de.inum ≠ 0 && namecmp name de.name

def vacant (de : Dirent) : Bool := de.inum = 0

/-- The inode and the offset of the first entry with the name. -/
def lookup (name : Name) (ds : List Dirent) : Option (ℕ × ℕ) :=
  (ds.findIdx? (holds name)).bind fun k => ds[k]?.map fun de => (de.inum,DIRENT*k)

theorem lookup_some {inum off : ℕ} (h : lookup name ds = some (inum,off)) :
    ∃ k : ℕ, ds[k]? = some ⟨inum,name⟩ ∧ inum ≠ 0 ∧ off = DIRENT*k := by
  unfold lookup at h
  obtain ⟨k,hk,h⟩ := Option.bind_eq_some_iff.mp h
  obtain ⟨de,hde,h⟩ := Option.map_eq_some_iff.mp h
  obtain ⟨⟨de',hde',hholds⟩,-⟩ := findIdx?_eq_some_iff.mp hk
  obtain rfl : de = de' := Option.some.inj (hde.symm.trans hde')
  cases h
  obtain ⟨hne,hname⟩ := Bool.and_eq_true_iff.mp hholds
  have hname : name = de.name := of_decide_eq_true hname
  exact ⟨k,by rw [hde,hname],of_decide_eq_true hne,rfl⟩

def igetFound : Option (ℕ × ℕ) → FsM (Option (ℕ × ℕ))
  | none => pure none
  | some (inum,off) => do
    iget inum
    pure (some (inum,off))

variable [sb : Superblock]

theorem dirlookup_eq (h : s.Directory dp) (name : Name) : dirlookup dp name s = igetFound (lookup name (s.slots dp)) s := by
  have hscan : dirscan dp .dirlookupRead (fun de => de.inum ≠ 0 && namecmp name de.name) (s.slots dp).length 0 s =
      .ok (scan (holds name) 0 (s.slots dp)) s := dirscan_ok h .dirlookupRead (holds name) (k := 0) (by omega)
  unfold dirlookup lookup
  rw [bind_of_ok (get_apply s),← h.cached.inode,if_neg (not_not_intro h.type),h.rounds_size]
  rw [bind_of_ok hscan,scan_eq]
  cases (s.slots dp).findIdx? (holds name) with
  | none => rfl
  | some i =>
    rw [Option.bind_some,Option.bind_some]
    cases (s.slots dp)[i]? with
    | none => rfl
    | some de =>
      rw [Nat.zero_add]
      rfl

end Lookup

section OneBlock
variable [sb : Superblock] {blk : ℕ → Block} {ino : ℕ → Dinode}

theorem consistent_oneBlock (hstart : sb.datastart = 4) (hend : 4 < sb.size ∧ sb.size ≤ FSSIZE)
    (htype : (ino 1).type ≠ .free) (haddrs : (ino 1).addrs = fun k => if k = 0 then 4 else 0) (hsize : (ino 1).size ≤ BSIZE)
    (hothers : ∀ i, i ≠ 1 → (ino i).addrs = (fun _ => 0) ∧ (ino i).size = 0) :
    Consistent blk ino fun b => decide (b < 5) := by
  have hslot : ∀ x, slotAddr blk ino x = if x = (1,.own 0) then 4 else 0 := by
    rintro ⟨i,p⟩
    unfold slotAddr
    by_cases hi : i = 1
    · subst hi
      rw [if_neg htype]
      cases p with
      | own k =>
        change (ino 1).addrs k = _
        rw [haddrs]
        exact if_congr ⟨fun hk => by rw [hk],fun hk => Spot.own.inj (Prod.ext_iff.mp hk).2⟩ rfl rfl
      | entry j =>
        rw [if_neg fun hc => Spot.noConfusion (Prod.ext_iff.mp hc).2,addrAt,haddrs]
        rfl
    · rw [if_neg fun hc => hi (Prod.ext_iff.mp hc).1]
      split
      · rfl
      · cases p with
        | own k => exact congrFun (hothers i hi).1 k
        | entry j =>
          rw [addrAt,(hothers i hi).1]
          rfl
  have hfour : ∀ x, slotAddr blk ino x ≠ 0 → x = (1,.own 0) ∧ slotAddr blk ino x = 4 := by
    intro x hx
    rw [hslot] at hx ⊢
    by_cases hx1 : x = (1,.own 0)
    · exact ⟨hx1,if_pos hx1⟩
    · exact absurd (if_neg hx1) hx
  refine ⟨by omega,hend.2,fun b hb => decide_eq_true (by omega),⟨?_,?_,?_⟩,fun i _ => ?_,fun i _ bn hbn => ?_⟩
  · intro x y hx hxy
    rw [(hfour x hx).1,(hfour y (hxy ▸ hx)).1]
  · intro x hx
    rw [(hfour x hx).2]
    exact ⟨hstart.le,hend.1⟩
  · intro x hx
    rw [(hfour x hx).2]
    rfl
  · by_cases hi : i = 1
    · rw [hi]
      exact hsize.trans (by decide)
    · rw [(hothers i hi).2]
      exact Nat.zero_le _
  · by_cases hi : i = 1
    · rw [hi] at hbn ⊢
      have hsize : (ino 1).size ≤ 512 := hsize
      have hbn : bn*512 < (ino 1).size := hbn
      obtain rfl : bn = 0 := by omega
      change (ino 1).addrs 0 ≠ 0
      rw [haddrs]
      decide
    · rw [(hothers i hi).2] at hbn
      exact absurd hbn (Nat.not_lt_zero _)

end OneBlock

end Xv6.Fs
