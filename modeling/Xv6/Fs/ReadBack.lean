import Xv6.Fs.FileWrites
import Xv6.Library.Overwrite

/-! # What is written is read back

`writei` replaces bytes of one file and extends it; `readi` returns the bytes of a file. Both refuse
an offset behind the end of the file.
-/
namespace Xv6.Fs
open ByteField Ownership Program Overwrite Function
variable {s s' s₁ : Sys} {ip off n fuel : ℕ} {src : List UInt8}

section Bytes
variable {blk : ℕ → Block} {d : Dinode}

/-- What `readi` returns of the bytes of a file: `none` for an offset behind its end and for a sum that wraps. -/
def clip (bytes : List UInt8) (off n : ℕ) : Option (List UInt8) :=
  if bytes.length < off ∨ (off+n)%2^32 < off then none else some ((bytes.drop off).take n)

theorem length_contents (blk : ℕ → Block) (d : Dinode) : (contents blk d).length = d.size := by
  rw [contents,List.length_map,List.length_range]

theorem contents_part (h : off+n ≤ d.size) :
    ((contents blk d).drop off).take n = (List.range n).map fun k => byteOf blk d (off+k) := by
  refine List.ext_getElem? fun k => ?_
  rw [contents,List.getElem?_map]
  by_cases hk : k < n
  · rw [List.getElem?_take_of_lt hk,List.getElem?_drop,List.getElem?_map,List.getElem?_range (by omega),
      List.getElem?_range hk]
    rfl
  · rw [List.getElem?_eq_none (by simp only [List.length_take]; omega),
      List.getElem?_eq_none (by rw [List.length_range]; omega)]
    rfl

theorem map_overlay {f : ℕ → UInt8} {size : ℕ} (h : off ≤ size) :
    (List.range (max size (off+src.length))).map (overlay f off src) = overwrite ((List.range size).map f) off src := by
  have hlen : ((List.range size).map f).length = size := by rw [List.length_map,List.length_range]
  refine List.ext_getElem? fun k => ?_
  rw [getElem?_overwrite (by rwa [hlen]),List.getElem?_map,List.getElem?_map]
  by_cases hin : off ≤ k ∧ k < off+src.length
  · rw [if_pos hin,List.getElem?_range (by omega),Option.map_some,overlay,if_pos hin,
      List.getElem?_eq_getElem (by omega),List.getD_eq_getElem _ _ (by omega)]
  · rw [if_neg hin]
    by_cases hk : k < size
    · rw [List.getElem?_range (by omega),List.getElem?_range hk,Option.map_some,Option.map_some,overlay,if_neg hin]
    · rw [List.getElem?_eq_none (by rw [List.length_range]; omega),List.getElem?_eq_none (by rw [List.length_range]; omega)]
      rfl

theorem contents_overlay {blk blk' : ℕ → Block} {d d' : Dinode} (hsize : d'.size = max d.size (off+src.length))
    (hbytes : byteOf blk' d' = overlay (byteOf blk d) off src) (hoff : off ≤ d.size) :
    contents blk' d' = overwrite (contents blk d) off src := by
  rw [contents,hsize,hbytes,map_overlay hoff]
  rfl

structure Resized (ip size : ℕ) (s s' : Sys) : Prop where
  cached : s'.Cached ip
  inode : s'.inode = Function.update s.inode ip { s.inode ip with size := size }
  block : s'.block = s.block
  used : s'.used = s.used

theorem store_apply (ip : ℕ) (f : Dinode → Dinode) (s : Sys) : store ip f s = .ok () { s with
    cache := Function.update s.cache ip { s.cache ip with copy := f (s.cache ip).copy }
    dinode := Function.update s.dinode ip (f (s.cache ip).copy) } := by
  obtain ⟨c,hc⟩ : ∃ c, c = update s.cache ip { s.cache ip with copy := f (s.cache ip).copy } := ⟨_,rfl⟩
  have hself : (c ip).copy = f (s.cache ip).copy := by rw [hc,update_self]
  rw [← hc,← hself,hc]
  rfl

theorem resize_cases (hcached : s.Cached ip) (off n : ℕ) (hoff : off ≤ (s.inode ip).size) :
    ∃ s', onlyIf (0 < n ∧ (s.inode ip).size < off+n) (store ip fun d => { d with size := off+n }) s = .ok () s' ∧
      Resized ip (max (s.inode ip).size (off+n)) s s' := by
  by_cases hgrow : 0 < n ∧ (s.inode ip).size < off+n
  · have hmax : max (s.inode ip).size (off+n) = off+n := by omega
    refine ⟨_,(congrFun (if_pos hgrow) s).trans (store_apply _ _ _),hcached.update rfl,?_,rfl,rfl⟩
    rw [hmax,hcached.inode_update rfl fun j hj => update_of_ne hj ..,hcached.inode]
  · have hmax : max (s.inode ip).size (off+n) = (s.inode ip).size := by omega
    refine ⟨s,?_,hcached,?_,rfl,rfl⟩
    · rw [onlyIf,if_neg hgrow]
      rfl
    · rw [hmax]
      exact (update_eq_self _ _).symm

end Bytes

section Reading
variable [sb : Superblock] (h : s.Consistent) (htype : (s.inode ip).type ≠ .free) (hcached : s.Cached ip)
include h htype hcached

theorem bmap_hit {bn : ℕ} (hmax : bn < MAXFILE) (hne : blockAt s.block (s.inode ip) bn ≠ 0) :
    bmap ip bn s = .ok (blockAt s.block (s.inode ip) bn) s := by
  have hfile : MAXFILE = NDIRECT+NINDIRECT := rfl
  unfold bmap
  by_cases hbn : bn < NDIRECT
  · rw [dif_pos hbn]
    have hat : (s.inode ip).addrs ⟨bn,by omega⟩ = blockAt s.block (s.inode ip) bn := by
      rw [blockAt,spotOf_own hbn]
      rfl
    rcases mapAddr_cases h htype hcached ⟨bn,by omega⟩ with ⟨-,hrun⟩ | ⟨hzero,-⟩
    · rw [hrun,hat]
    · exact absurd (hat.symm.trans hzero) hne
  · rw [dif_neg hbn,if_pos (by omega)]
    have hat : addrAt s.block (s.inode ip) (.entry (bn-NDIRECT)) = blockAt s.block (s.inode ip) bn := by
      rw [blockAt,spotOf_entry hbn]
    have ha : (s.inode ip).addrs indirect ≠ 0 := by
      intro hz
      rw [← hat,addrAt,if_pos hz] at hne
      exact hne rfl
    rcases mapAddr_cases h htype hcached indirect with ⟨-,hrun⟩ | ⟨hzero,-⟩
    · rw [bind_of_ok hrun]
      rcases mapWord_cases h htype hcached ha (by omega : bn-NDIRECT < NINDIRECT) with ⟨-,hword⟩ | ⟨hzero,-⟩
      · rw [hword,hat]
      · exact absurd (hat.symm.trans hzero) hne
    · exact absurd hzero ha

theorem readBlocks_ok (hn : off+n ≤ (s.inode ip).size) (hfuel : n ≤ fuel) :
    readBlocks ip fuel off n s = .ok ((List.range n).map fun k => byteOf s.block (s.inode ip) (off+k)) s := by
  induction fuel generalizing off n with
  | zero =>
    obtain rfl : n = 0 := by omega
    rfl
  | succ fuel ih =>
    unfold readBlocks
    by_cases hzero : n = 0
    · subst hzero
      rw [if_pos rfl]
      rfl
    · rw [if_neg hzero]
      have hmod : off%BSIZE < 512 := Nat.mod_lt _ (by decide)
      have hB := BSIZE_eq
      have hdiv : 512*(off/BSIZE)+off%BSIZE = off := Nat.div_add_mod off 512
      obtain ⟨m,hm⟩ : ∃ m, m = min n (BSIZE-off%BSIZE) := ⟨_,rfl⟩
      have hsize := h.sizes ip htype
      have hbn : off/BSIZE < MAXFILE := by
        rw [Nat.div_lt_iff_lt_mul (by decide)]
        omega
      have hne := h.holeFree ip htype (off/BSIZE) (by change off/BSIZE*512 < _; omega)
      have hlt : blockAt s.block (s.inode ip) (off/BSIZE) < FSSIZE := h.named_lt htype hne
      have hread : bread (blockAt s.block (s.inode ip) (off/BSIZE)) s =
          .ok (s.block (blockAt s.block (s.inode ip) (off/BSIZE))) s := by
        unfold bread
        rw [if_neg (by omega)]
        rfl
      rw [bind_of_ok (bmap_hit h htype hcached hbn hne),bind_of_ok hread]
      rw [← hm,bind_of_ok (ih (by omega : off+m+(n-m) ≤ _) (by omega))]
      have hslice : slice (s.block (blockAt s.block (s.inode ip) (off/BSIZE))) (off%BSIZE) m =
          (List.range m).map fun k => byteOf s.block (s.inode ip) (off+k) := by
        refine List.map_congr_left fun k hk => ?_
        have hk : k < m := List.mem_range.mp hk
        have hdiv' : 512*((off+k)/BSIZE)+(off+k)%BSIZE = off+k := Nat.div_add_mod (off+k) 512
        have hmod' : (off+k)%BSIZE < 512 := Nat.mod_lt _ (by decide)
        have hsame : (off+k)/BSIZE = off/BSIZE := by omega
        rw [byteOf,hsame,if_neg hne]
        congr 1
        omega
      have hsplit : List.range n = List.range m ++ (List.range (n-m)).map (m+·) := by
        rw [← List.range_add]
        congr 1
        omega
      rw [hslice,hsplit,List.map_append,List.map_map]
      simp only [Function.comp_def,Nat.add_assoc]
      rfl

theorem readi_ok (hfile : (s.inode ip).type ≠ .dev) (off n : ℕ) :
    readi ip off n s = .ok (clip (contents s.block (s.inode ip)) off n) s := by
  unfold readi clip
  rw [bind_of_ok (get_apply s),← hcached.inode,if_neg hfile,length_contents]
  by_cases hbad : (s.inode ip).size < off ∨ (off+n)%2^32 < off
  · rw [if_pos hbad,if_pos hbad]
    rfl
  · rw [if_neg hbad,if_neg hbad]
    obtain ⟨k,hk⟩ : ∃ k, k = if (s.inode ip).size < off+n then (s.inode ip).size-off else n := ⟨_,rfl⟩
    have hle : off+k ≤ (s.inode ip).size := by
      rw [hk]
      split <;> omega
    have htake : ((contents s.block (s.inode ip)).drop off).take n = ((contents s.block (s.inode ip)).drop off).take k := by
      rw [hk]
      split
      · rw [List.take_of_length_le (by rw [List.length_drop,length_contents]; omega),
          List.take_of_length_le (by rw [List.length_drop,length_contents])]
      · rfl
    rw [← hk,bind_of_ok (readBlocks_ok h htype hcached hle (Nat.le_refl k)),htake,contents_part hle]
    rfl

end Reading

section Writing
variable [sb : Superblock]

/-- `writei` has put the buffer into the file and extended it where necessary. -/
structure Wrote (ip off : ℕ) (src : List UInt8) (s s' : Sys) : Prop where
  consistent : s'.Consistent
  cached : s'.Cached ip
  self : ∃ a, s'.inode = Function.update s.inode ip
    { s.inode ip with size := max (s.inode ip).size (off+src.length), addrs := a }
  contents : contents s'.block (s'.inode ip) = overwrite (contents s.block (s.inode ip)) off src
  others : ∀ j, j ≠ ip → (s.inode j).type ≠ .free → Fs.contents s'.block (s'.inode j) = Fs.contents s.block (s.inode j)
  left : ∃ c, free s'.used+c = free s.used ∧
    ∀ m, need s'.block (s'.inode ip) (off+src.length) m+c ≤ need s.block (s.inode ip) off (src.length+m)

theorem Stored.wrote (h : Stored ip off src s s₁) (h' : Resized ip (max (s.inode ip).size (off+src.length)) s₁ s')
    (htype : (s.inode ip).type ≠ .free) (hcons : s.Consistent) (hoff : off ≤ (s.inode ip).size)
    (hmax : off+src.length ≤ MAXFILE*BSIZE) : Wrote ip off src s s' := by
  obtain ⟨a,ha⟩ := h.self
  have hself : s'.inode ip = { s₁.inode ip with size := max (s.inode ip).size (off+src.length) } := by
    rw [h'.inode,update_self]
  have haddr : addrAt s'.block (s'.inode ip) = addrAt s₁.block (s₁.inode ip) := by
    rw [h'.block,hself]
    exact addrAt_congr rfl fun _ => rfl
  have hblock : ∀ m, blockAt s'.block (s'.inode ip) m = blockAt s₁.block (s₁.inode ip) m := fun m => congrFun haddr _
  have hfull : ∀ bn, bn*BSIZE < max (s.inode ip).size (off+src.length) → blockAt s₁.block (s₁.inode ip) bn ≠ 0 := by
    intro bn hbn
    by_cases hold : bn*BSIZE < (s.inode ip).size
    · exact h.keeps bn (hcons.holeFree ip htype bn hold)
    · have hcover := h.covers (bn*BSIZE) (by omega) (by omega)
      rwa [Nat.mul_div_cancel _ (by decide)] at hcover
  refine ⟨?_,h'.cached,⟨a,?_⟩,?_,fun j hj htypej => ?_,?_⟩
  · unfold Sys.Consistent
    rw [h'.inode,h'.block,h'.used]
    exact h.consistent.resize (max_le (hcons.sizes ip htype) hmax) hfull
  · rw [h'.inode,ha,update_idem,update_self]
  · refine contents_overlay (by rw [hself]) ?_ hoff
    rw [← h.bytes]
    funext k
    exact byteOf_congr (hblock _) fun _ => by rw [h'.block]
  · have hsame : s'.inode j = s₁.inode j := by rw [h'.inode,update_of_ne hj]
    have hsize : (s₁.inode j).size = (s.inode j).size := by rw [ha,update_of_ne hj]
    rw [hsame,h'.block,Fs.contents,Fs.contents,hsize,h.others j hj htypej]
  · have hneed : need s'.block (s'.inode ip) = need s₁.block (s₁.inode ip) := by
      funext x m
      unfold need
      simp only [hblock]
      rw [hself]
    rw [h'.used,hneed]
    exact h.left

variable (h : s.Consistent) (htype : (s.inode ip).type ≠ .free) (hcached : s.Cached ip)
include h htype hcached

theorem writei_cases (hfile : (s.inode ip).type ≠ .dev) (hoff : off ≤ (s.inode ip).size)
    (hmax : off+src.length ≤ MAXFILE*BSIZE) :
    (∃ s', writei ip src off s = .ok (some src.length) s' ∧ Wrote ip off src s s') ∨
    ∃ s', writei ip src off s = .error .ballocOutOfBlocks s' ∧ free s.used < need s.block (s.inode ip) off src.length := by
  have hbound : MAXFILE*BSIZE < 2^32 := by decide
  unfold writei
  rw [bind_of_ok (get_apply s),← hcached.inode,if_neg hfile]
  rw [if_neg (by rw [Nat.mod_eq_of_lt (by omega)]; omega),if_neg (by omega)]
  rcases writeBlocks_cases h htype hcached hmax (Nat.le_refl _) with ⟨s₁,hrun,hstored⟩ | ⟨s₁,hrun,hfull⟩
  · rw [bind_of_ok hrun]
    obtain ⟨a,ha⟩ := hstored.self
    have hsize : (s₁.inode ip).size = (s.inode ip).size := by rw [ha,update_self]
    obtain ⟨s',hresize,hresized⟩ := resize_cases hstored.cached off src.length (by rwa [hsize])
    rw [hsize] at hresize hresized
    rw [bind_of_ok hresize]
    exact .inl ⟨s',rfl,hstored.wrote hresized htype h hoff hmax⟩
  · rw [bind_of_error hrun]
    exact .inr ⟨s₁,rfl,hfull⟩

omit sb h htype in
theorem writei_refused [Superblock] (hfile : (s.inode ip).type ≠ .dev)
    (hout : ¬ (off ≤ (s.inode ip).size ∧ off+src.length ≤ MAXFILE*BSIZE)) : writei ip src off s = .ok none s := by
  unfold writei
  rw [bind_of_ok (get_apply s),← hcached.inode,if_neg hfile]
  by_cases hbad : (s.inode ip).size < off ∨ (off+src.length)%2^32 < off
  · rw [if_pos hbad]
    rfl
  · rw [if_neg hbad,if_pos (by omega)]
    rfl

omit htype in
/-- A write within the bounds and with blocks to spare is read back, for every offset and length, and
leaves the other files alone; a write outside the bounds returns -1 and changes nothing. -/
theorem writei_readi (htype : (s.inode ip).type = .file) :
    (∀ off src, off ≤ (s.inode ip).size → off+src.length ≤ MAXFILE*BSIZE →
      need s.block (s.inode ip) off src.length ≤ free s.used →
      ∃ s', writei ip src off s = .ok (some src.length) s' ∧
        (overwrite (contents s.block (s.inode ip)) off src).length = max (s.inode ip).size (off+src.length) ∧
        (∀ off' n', readi ip off' n' s' = .ok (clip (overwrite (contents s.block (s.inode ip)) off src) off' n') s') ∧
        ∀ j, j ≠ ip → s'.inode j = s.inode j ∧
          ((s.inode j).type ≠ .free → contents s'.block (s'.inode j) = contents s.block (s.inode j))) ∧
    ∀ off src, ¬ (off ≤ (s.inode ip).size ∧ off+src.length ≤ MAXFILE*BSIZE) → writei ip src off s = .ok none s := by
  have hfree : (s.inode ip).type ≠ .free := by rw [htype]; nofun
  have hfile : (s.inode ip).type ≠ .dev := by rw [htype]; nofun
  refine ⟨fun off src hoff hmax hneed => ?_,fun off src hout => writei_refused hcached hfile hout⟩
  rcases writei_cases h hfree hcached hfile hoff hmax with ⟨s',hrun,hwrote⟩ | ⟨s',hrun,hfull⟩
  · obtain ⟨a,ha⟩ := hwrote.self
    have htype' : (s'.inode ip).type = .file := by rw [ha,update_self,htype]
    refine ⟨s',hrun,?_,fun off' n' => ?_,fun j hj => ⟨by rw [ha,update_of_ne hj],hwrote.others j hj⟩⟩
    · rw [length_overwrite (by rwa [length_contents]),length_contents]
    · rw [readi_ok hwrote.consistent (by rw [htype']; nofun) hwrote.cached (by rw [htype']; nofun),hwrote.contents]
  · omega

end Writing

section Instances

@[reducible] def smallDisk : Superblock := ⟨64,60⟩

def emptyFile : Dinode := { Dinode.zero with type := .file }

def oneFile : Sys where
  used b := decide (b < 4)
  block _ := zeros
  dinode i := if i = 2 then emptyFile else .zero
  cache i := if i = 2 then ⟨1,false,true,emptyFile⟩ else ⟨0,false,false,.zero⟩
  incore := 1
  file f := if f = 0 then ⟨.inode 2,1,true,true,0⟩ else ⟨.none,0,false,false,0⟩
  ofile _ := none
  cwd _ := none
  pipe _ := ⟨false,false,false⟩
  pipes := 0
  answers := []

theorem cached_oneFile : oneFile.Cached 2 := ⟨by decide,by decide⟩

theorem inode_oneFile (i : ℕ) : oneFile.inode i = if i = 2 then emptyFile else .zero := by
  by_cases hi : i = 2
  · rw [hi]
    rfl
  · unfold Sys.inode oneFile
    simp [hi]

theorem addrAt_oneFile (i : ℕ) (p : Spot) : addrAt oneFile.block (oneFile.inode i) p = 0 := by
  rw [inode_oneFile]
  split <;> cases p <;> rfl

theorem size_oneFile (i : ℕ) : (oneFile.inode i).size = 0 := by
  rw [inode_oneFile]
  split <;> rfl

theorem consistent_oneFile : @Sys.Consistent smallDisk oneFile := by
  let := smallDisk
  have haddr : ∀ x, slotAddr oneFile.block oneFile.inode x = 0 := by
    intro x
    rw [slotAddr,addrAt_oneFile,ite_self]
  refine ⟨by decide,by decide,fun b hb => decide_eq_true hb,⟨?_,?_,?_⟩,fun i _ => ?_,fun i _ bn hbn => ?_⟩
  · exact fun x y hne _ => absurd (haddr x) hne
  · exact fun x hne => absurd (haddr x) hne
  · exact fun x hne => absurd (haddr x) hne
  · rw [size_oneFile]
    exact Nat.zero_le _
  · rw [size_oneFile] at hbn
    omega

theorem writei_readi_oneFile : ∃ (_ : Superblock) (s' : Sys), oneFile.Consistent ∧ oneFile.Cached 2 ∧
    writei 2 [1,2,3] 0 oneFile = .ok (some 3) s' ∧ ∀ off' n', readi 2 off' n' s' = .ok (clip [1,2,3] off' n') s' := by
  let := smallDisk
  obtain ⟨s',hrun,-,hread,-⟩ := (writei_readi consistent_oneFile cached_oneFile (by decide)).1 0 [1,2,3] (by decide)
    (by decide) (by decide)
  exact ⟨smallDisk,s',consistent_oneFile,cached_oneFile,hrun,hread⟩

/-- An offset behind the end of the file is refused, where no byte would be read. -/
theorem readi_behind_end : ∃ (_ : Superblock) (s s' : Sys) (ip off' n' : ℕ), s.Consistent ∧ s.Cached ip ∧
    (s.inode ip).type = .file ∧ need s.block (s.inode ip) 0 0 ≤ free s.used ∧ writei ip [] 0 s = .ok (some 0) s' ∧
    readi ip off' n' s' = .ok none s' ∧ ((overwrite (contents s.block (s.inode ip)) 0 []).drop off').take n' = [] :=
  ⟨smallDisk,oneFile,oneFile,2,1,1,consistent_oneFile,cached_oneFile,by decide,by decide,rfl,rfl,rfl⟩

end Instances
end Xv6.Fs
