import Xv6.Fs.RawNames

/-! # Directories are finite maps

`dirlink` refuses a name that is present and enters a new one, and `dirlookup` finds what was entered; clearing the entry
takes it back. The name of the directory itself is the exception: the reference to it is dropped while the directory is
locked, and the kernel waits for its own lock.
-/
namespace Xv6.Fs
open Program SlotTable
variable {s s' : Sys} {dp inum k : ℕ} {name : Name}

section References

structure SameRefs (s t : Sys) : Prop where
  incore : t.incore = s.incore
  ref : ∀ i, (t.cache i).ref = (s.cache i).ref
  locked : ∀ i, (t.cache i).locked = (s.cache i).locked

instance : IsPreorder Sys SameRefs where
  refl _ := ⟨rfl,fun _ => rfl,fun _ => rfl⟩
  trans _ _ _ h h' := ⟨h'.incore.trans h.incore,fun i => (h'.ref i).trans (h.ref i),fun i => (h'.locked i).trans (h.locked i)⟩

instance (ip : ℕ) : InContents ip SameRefs where
  block _ _ := ⟨rfl,fun _ => rfl,fun _ => rfl⟩
  used _ _ := ⟨rfl,fun _ => rfl,fun _ => rfl⟩
  answers _ _ := ⟨rfl,fun _ => rfl,fun _ => rfl⟩
  copy s d _ := by
    refine ⟨rfl,fun i => ?_,fun i => ?_⟩
    · dsimp only
      rw [Function.update_apply]
      split
      · rename_i hi
        rw [hi]
      · rfl
    · dsimp only
      rw [Function.update_apply]
      split
      · rename_i hi
        rw [hi]
      · rfl
  dinode _ := ⟨rfl,fun _ => rfl,fun _ => rfl⟩

theorem SameRefs.holdable (h : SameRefs s s') (i : ℕ) : s'.Holdable i ↔ s.Holdable i := by
  unfold Sys.Holdable
  rw [h.incore,h.ref]

def outcome {α : Type} (x : FsM α) (s : Sys) : Except Stop α :=
  match x s with
  | .ok a _ => .ok a
  | .error e _ => .error e

theorem outcome_igetFound (h : SameRefs s s') (r : Option (ℕ × ℕ)) :
    outcome (igetFound r) s' = outcome (igetFound r) s := by
  cases r with
  | none => rfl
  | some e =>
    unfold outcome
    by_cases hhold : s.Holdable e.1
    · rw [igetFound_ok hhold,igetFound_ok ((h.holdable _).mpr hhold)]
    · rw [igetFound_full hhold,igetFound_full fun hc => hhold ((h.holdable _).mp hc)]

end References

section Tables
variable {ds : List Dirent} {de : Dirent}

theorem lookup_eq_none_iff : lookup name ds = none ↔ ds.findIdx? (holds name) = none := by
  unfold lookup
  cases hfind : ds.findIdx? (holds name) with
  | none => exact ⟨fun _ => rfl,fun _ => rfl⟩
  | some i =>
    obtain ⟨hi,-⟩ := List.findIdx?_eq_some_iff_getElem.mp hfind
    rw [Option.bind_some,List.getElem?_eq_getElem hi]
    exact ⟨nofun,nofun⟩

theorem lookup_put_of_false (hk : k ≤ ds.length) (hold : ∀ b, ds[k]? = some b → holds name b = false)
    (hnew : holds name de = false) : lookup name (put ds k de) = lookup name ds := by
  unfold lookup
  rw [findIdx?_put_of_false hk hold hnew]
  cases hfind : ds.findIdx? (holds name) with
  | none => rfl
  | some i =>
    obtain ⟨⟨b,hb,hp⟩,-⟩ := findIdx?_eq_some_iff.mp hfind
    have hi : i ≠ k := by
      rintro rfl
      rw [hold b hb] at hp
      cases hp
    rw [Option.bind_some,Option.bind_some,getElem?_put hk,if_neg hi]

theorem lookup_put_self (hk : k ≤ ds.length) (hnone : lookup name ds = none) (hnew : holds name de = true) :
    lookup name (put ds k de) = some (de.inum,DIRENT*k) := by
  unfold lookup
  rw [findIdx?_put_self hk (lookup_eq_none_iff.mp hnone) hnew,Option.bind_some,getElem?_put hk,if_pos rfl]
  rfl

theorem holds_of_vacant (h : vacant de = true) (name : Name) : holds name de = false := by
  have hzero : de.inum = 0 := of_decide_eq_true h
  unfold holds
  rw [hzero]
  rfl

theorem holds_iff {de : Dirent} (name : List UInt8) :
    holds (Name.ofBytes name) de = true ↔ de.inum ≠ 0 ∧ Raw.namecmp name de.name.toBytes = 0 := by
  rw [Raw.namecmp_eq_zero,Name.ofBytes_toBytes,holds,Bool.and_eq_true,decide_eq_true_iff,namecmp,decide_eq_true_iff]

theorem Dirent.ofBytes_toBytes_mod (inum : ℕ) (name : Name) :
    Dirent.ofBytes (Dirent.toBytes ⟨inum,name⟩) = ⟨inum%65536,name⟩ := by
  have hsame : Dirent.toBytes ⟨inum,name⟩ = Dirent.toBytes ⟨inum%65536,name⟩ := by
    unfold Dirent.toBytes
    have h1 : UInt8.ofNat inum = UInt8.ofNat (inum%65536) := by
      rw [← UInt8.toNat_inj,UInt8.toNat_ofNat',UInt8.toNat_ofNat']
      omega
    have h2 : UInt8.ofNat (inum/256) = UInt8.ofNat (inum%65536/256) := by
      rw [← UInt8.toNat_inj,UInt8.toNat_ofNat',UInt8.toNat_ofNat']
      omega
    rw [h1,h2]
  rw [hsame,Dirent.ofBytes_toBytes (Nat.mod_lt _ (by decide))]

end Tables

section Statement
variable [sb : Superblock]

/-- A locked directory with different names and room for one more entry. -/
structure WellFormed (s : Sys) (dp : ℕ) : Prop extends s.Directory dp where
  locked : (s.cache dp).locked = true
  unique : ∀ (i j : ℕ) a b, (s.slots dp)[i]? = some a → (s.slots dp)[j]? = some b → a.inum ≠ 0 → b.inum ≠ 0 →
    a.name = b.name → i = j
  few : (s.slots dp).countP (fun de => de.inum ≠ 0) < MAXFILE*BSIZE/DIRENT

/-- The name is in the directory, as `namecmp` compares names. -/
def NamePresent (s : Sys) (dp : ℕ) (name : List UInt8) : Prop :=
  ∃ de ∈ s.slots dp, de.inum ≠ 0 ∧ Raw.namecmp name de.name.toBytes = 0

/-- The new name is found, lookups of other names are as before, and clearing the entry undoes it. -/
structure Entered (dp : ℕ) (name : List UInt8) (inum : ℕ) (s s' : Sys) : Prop where
  found : outcome (Raw.dirlookup dp name) s' = .ok (some (inum,s.freeOffset dp))
  others : ∀ t, Raw.namecmp t name ≠ 0 → outcome (Raw.dirlookup dp t) s' = outcome (Raw.dirlookup dp t) s
  cleared : ∃ s'', writei dp (List.replicate DIRENT 0) (s.freeOffset dp) s' = .ok (some DIRENT) s'' ∧
    ∀ t, outcome (Raw.dirlookup dp t) s'' = outcome (Raw.dirlookup dp t) s

/-- `dirlink` refuses a name that is there and enters one that is not. -/
structure ActsAsMap (s : Sys) (dp : ℕ) (name : List UInt8) (inum : ℕ) : Prop where
  present : NamePresent s dp name → ∃ s', Raw.dirlink dp name inum s = .ok false s' ∧ Alike s s'
  absent : ¬ NamePresent s dp name → ∃ s', Raw.dirlink dp name inum s = .ok true s' ∧ Entered dp name inum s s'

/-- The inode under the name is not locked and has a place in the cache; a new entry has room for the number, blocks for the
directory and a place in the cache for the inode. -/
def Enterable (s : Sys) (dp : ℕ) (name : List UInt8) (inum : ℕ) : Prop :=
  match lookup (Name.ofBytes name) (s.slots dp) with
  | some (ip,_) => (s.cache ip).locked = false ∧ s.Holdable ip
  | none => inum < 2^16 ∧ s.entryCost dp ≤ free s.used ∧ s.Holdable inum

omit sb in
theorem present_iff (name : List UInt8) : NamePresent s dp name ↔ lookup (Name.ofBytes name) (s.slots dp) ≠ none := by
  rw [ne_eq,lookup_eq_none_iff,List.findIdx?_eq_none_iff]
  unfold NamePresent
  push Not
  refine exists_congr fun de => and_congr_right fun _ => ?_
  rw [← holds_iff]
  exact Bool.ne_false_iff.symm

end Statement

section Correctness
variable [sb : Superblock]

theorem WellFormed.hasRoom (h : WellFormed s dp) : s.HasRoom dp := by
  have hlen := h.length_slots
  have hsize : (s.inode dp).size ≤ 71680 := h.size_le
  change 16*vacancy vacant (s.slots dp)+16 ≤ 71680
  have hle := vacancy_le vacant (s.slots dp)
  by_cases hlt : vacancy vacant (s.slots dp) < (s.slots dp).length
  · omega
  · have hend : vacancy vacant (s.slots dp) = (s.slots dp).length := by omega
    have hfew : (s.slots dp).countP (fun de => de.inum ≠ 0) < 4480 := h.few
    have hall : (s.slots dp).countP (fun de => de.inum ≠ 0) = (s.slots dp).length := by
      rw [List.countP_eq_length]
      intro de hde
      have := taken_of_vacancy hend de hde
      exact decide_eq_true (of_decide_eq_false this)
    omega

theorem dirlink_present {off : ℕ} (h : s.Directory dp) (hl : lookup name (s.slots dp) = some (k,off)) (inum : ℕ) :
    (∃ s', dirlink dp name inum s = .ok false s' ∧ Alike s s') ↔ (s.cache k).locked = false ∧ s.Holdable k := by
  rw [dirlink_found h hl]
  by_cases hhold : s.Holdable k
  · rw [bind_of_ok (iget_ok hhold)]
    have hlocked : ((s.grab k).cache k).locked = (s.cache k).locked := by rw [s.grab_self]
    by_cases hlock : (s.cache k).locked = true
    · rw [bind_of_error (iput_locked (hlocked.trans hlock))]
      exact iff_of_false (fun ⟨_,hc,_⟩ => (nomatch hc)) fun hc => by rw [hlock] at hc; exact absurd hc.1 (by decide)
    · have hunlocked : (s.cache k).locked = false := Bool.eq_false_iff.mpr hlock
      have hkeep : ¬ (((s.grab k).cache k).valid = true ∧ ((s.grab k).cache k).copy.nlink = 0 ∧ ((s.grab k).cache k).ref = 1) := by
        rw [s.grab_self]
        rintro ⟨hvalid,-,hone⟩
        have hpos : 0 < (s.cache k).ref := of_decide_eq_true (Bool.and_eq_true_iff.mp hvalid).2
        have hone : (s.cache k).ref+1 = 1 := hone
        omega
      rw [bind_of_ok (iput_ok (hlocked.trans hunlocked) hkeep)]
      exact iff_of_true ⟨_,rfl,alike_drop_grab s k⟩ ⟨hunlocked,hhold⟩
  · rw [bind_of_error (iget_full hhold)]
    exact iff_of_false (fun ⟨_,hc,_⟩ => (nomatch hc)) fun hc => hhold hc.2

omit sb in
theorem cost_eq_zero {blk : ℕ → Block} {d : Dinode} {bn : ℕ} (h : blockAt blk d bn ≠ 0) : cost blk d bn = 0 := by
  unfold cost
  rw [if_neg h,if_neg]
  rintro ⟨hbn,hzero⟩
  rw [blockAt,spotOf_entry (by omega),addrAt,if_pos hzero] at h
  exact h rfl

theorem clear_ok (h : s.Directory dp) (hk : k < (s.slots dp).length) :
    ∃ s', writei dp (List.replicate DIRENT 0) (DIRENT*k) s = .ok (some DIRENT) s' ∧ SameRefs s s' ∧ s'.Directory dp ∧
      s'.slots dp = put (s.slots dp) k ⟨0,Name.ofBytes []⟩ := by
  have hlen := h.length_slots
  have hsize : (s.inode dp).size ≤ 71680 := h.size_le
  have hk16 : DIRENT*k = 16*k := rfl
  have htype : (s.inode dp).type ≠ .free := by rw [h.type]; nofun
  have hrep : (List.replicate DIRENT (0 : UInt8)).length = DIRENT := List.length_replicate
  have hblock : blockAt s.block (s.inode dp) (DIRENT*k/BSIZE) ≠ 0 := by
    refine h.consistent.holeFree dp htype _ ?_
    change 16*k/512*512 < _
    omega
  have hoff : DIRENT*k ≤ (s.inode dp).size := by omega
  have hmax : DIRENT*k+(List.replicate DIRENT (0 : UInt8)).length ≤ MAXFILE*BSIZE := by
    rw [hrep]
    change 16*k+16 ≤ 71680
    omega
  rcases writei_cases h.consistent htype h.cached (by rw [h.type]; nofun) hoff hmax with
    ⟨s',hrun,hwrote⟩ | ⟨s',hrun,hfull⟩
  · obtain ⟨hdir,hslots⟩ := h.wrote hwrote hrep hk.le
    rw [hrep] at hrun
    refine ⟨s',hrun,within_writei dp _ _ _ _ _ hrun,hdir,hslots.trans ?_⟩
    congr 1
  · rw [hrep,need_entry,cost_eq_zero hblock] at hfull
    exact absurd hfull (Nat.not_lt_zero _)

theorem outcome_dirlookup (h : s.Directory dp) (t : List UInt8) :
    outcome (Raw.dirlookup dp t) s = outcome (igetFound (lookup (Name.ofBytes t) (s.slots dp))) s := by
  unfold outcome
  rw [Raw.dirlookup_eq,dirlookup_eq h]

theorem entered_iff {name : List UInt8} (h : s.Directory dp) (hinum : inum ≠ 0) (hrefs : SameRefs s s')
    (hl : lookup (Name.ofBytes name) (s.slots dp) = none)
    (hwrote : Wrote dp (s.freeOffset dp) (Dirent.toBytes ⟨inum,Name.ofBytes name⟩) s s') :
    Entered dp name inum s s' ↔ inum < 2^16 ∧ s.Holdable inum := by
  obtain ⟨m,hm⟩ : ∃ m, m = vacancy vacant (s.slots dp) := ⟨_,rfl⟩
  have hle : m ≤ (s.slots dp).length := hm ▸ vacancy_le _ _
  have hoff : s.freeOffset dp = DIRENT*m := by rw [hm]; rfl
  have hvacant : ∀ b, (s.slots dp)[m]? = some b → vacant b = true := by
    intro b hb
    rw [hm] at hb
    exact vacant_of_getElem? hb
  rw [hoff] at hwrote
  obtain ⟨hdir,hslots⟩ := h.wrote hwrote (Dirent.length_toBytes _) hle
  rw [Dirent.ofBytes_toBytes_mod] at hslots
  by_cases hzero : inum%65536 = 0
  · have hnone : lookup (Name.ofBytes name) (s'.slots dp) = none := by
      rw [hslots,lookup_put_of_false hle (fun b hb => holds_of_vacant (hvacant b hb) _)
        (holds_of_vacant (decide_eq_true hzero) _),hl]
    refine iff_of_false (fun hc => ?_) (by omega)
    have hfound := hc.found
    rw [outcome_dirlookup hdir,hnone] at hfound
    cases hfound
  · have hfound : lookup (Name.ofBytes name) (s'.slots dp) = some (inum%65536,DIRENT*m) := by
      rw [hslots,lookup_put_self hle hl]
      unfold holds namecmp
      rw [decide_eq_true hzero,decide_eq_true rfl]
      rfl
    constructor
    · intro hc
      have hyield := hc.found
      rw [outcome_dirlookup hdir,hfound,outcome_igetFound hrefs] at hyield
      unfold outcome at hyield
      by_cases hhold : s.Holdable (inum%65536)
      · rw [igetFound_ok hhold] at hyield
        have he : inum%65536 = inum := congrArg Prod.fst (Option.some.inj (Except.ok.inj hyield))
        rw [he] at hhold
        exact ⟨by omega,hhold⟩
      · rw [igetFound_full hhold] at hyield
        cases hyield
    · rintro ⟨hlt,hhold⟩
      have he : inum%65536 = inum := Nat.mod_eq_of_lt hlt
      rw [he] at hfound hslots
      refine ⟨?_,fun t ht => ?_,?_⟩
      · rw [outcome_dirlookup hdir,hfound,outcome_igetFound hrefs,hoff]
        unfold outcome
        rw [igetFound_ok hhold]
      · rw [outcome_dirlookup hdir,outcome_dirlookup h,outcome_igetFound hrefs,hslots,
          lookup_put_of_false hle fun b hb => holds_of_vacant (hvacant b hb) _]
        unfold holds namecmp
        rw [Bool.and_eq_false_iff]
        exact .inr (decide_eq_false fun hc => ht ((Raw.namecmp_eq_zero _ _).mpr hc))
      · have hm' : m < (s'.slots dp).length := by
          rw [hslots,length_put hle]
          omega
        obtain ⟨s'',hrun,hrefs',hdir',hslots'⟩ := clear_ok hdir hm'
        rw [hoff]
        refine ⟨s'',hrun,fun t => ?_⟩
        rw [outcome_dirlookup hdir',outcome_dirlookup h,outcome_igetFound hrefs',outcome_igetFound hrefs,hslots',hslots,
          put_put hle,lookup_put_of_false hle fun b hb => holds_of_vacant (hvacant b hb) _]
        exact holds_of_vacant rfl _

/-- A directory works as a finite map from names to inodes exactly where the inode that is found is not locked and the
kernel has the blocks, the entries of its cache and the sixteen bits that it needs. -/
theorem dirlink_actsAsMap (h : WellFormed s dp) (name : List UInt8) (hinum : inum ≠ 0) :
    ActsAsMap s dp name inum ↔ Enterable s dp name inum := by
  unfold Enterable
  cases hl : lookup (Name.ofBytes name) (s.slots dp) with
  | some e =>
    obtain ⟨ip,off⟩ := e
    have hpresent : NamePresent s dp name := (present_iff name).mpr (by rw [hl]; nofun)
    have hiff := dirlink_present h.toDirectory hl inum
    rw [← Raw.dirlink_eq] at hiff
    exact ⟨fun hc => hiff.mp (hc.present hpresent),fun hc => ⟨fun _ => hiff.mpr hc,fun hn => absurd hpresent hn⟩⟩
  | none =>
    have habsent : ¬ NamePresent s dp name := fun hc => (present_iff name).mp hc hl
    rcases dirlink_new_cases h.toDirectory hl inum with ⟨s',hrun,-,hcost,hwrite,hwrote⟩ | ⟨s',hrun,-,hfull⟩ | ⟨-,hno⟩
    · rw [← Raw.dirlink_eq] at hrun
      have hiff := entered_iff h.toDirectory hinum (within_writei dp _ _ _ _ _ hwrite) hl hwrote
      constructor
      · intro hc
        obtain ⟨s₁,hrun₁,hentered⟩ := hc.absent habsent
        obtain rfl : s' = s₁ := by
          rw [hrun] at hrun₁
          exact (EStateM.Result.ok.inj hrun₁).2
        obtain ⟨hlt,hhold⟩ := hiff.mp hentered
        exact ⟨hlt,hcost,hhold⟩
      · rintro ⟨hlt,-,hhold⟩
        exact ⟨fun hp => absurd hp habsent,fun _ => ⟨s',hrun,hiff.mpr ⟨hlt,hhold⟩⟩⟩
    · rw [← Raw.dirlink_eq] at hrun
      refine iff_of_false (fun hc => ?_) fun hc => by omega
      obtain ⟨s₁,hrun₁,-⟩ := hc.absent habsent
      rw [hrun] at hrun₁
      cases hrun₁
    · exact absurd h.hasRoom hno

end Correctness

section Instances

def dotDinode : Dinode := { Dinode.zero with
  type := .dir, nlink := 1, size := DIRENT, addrs := fun k => if k = 0 then 4 else 0 }

def dotDir : Sys := { oneFile with
  used := fun b => decide (b < 5)
  block := fun b => if b = 4 then blit zeros 0 (Dirent.toBytes ⟨1,.dot⟩) else zeros
  dinode := fun i => if i = 1 then dotDinode else .zero
  cache := fun i => if i = 1 then ⟨1,true,true,dotDinode⟩ else ⟨0,false,false,.zero⟩ }

theorem inode_dotDir (i : ℕ) : dotDir.inode i = if i = 1 then dotDinode else .zero := by
  by_cases hi : i = 1
  · rw [hi]
    rfl
  · unfold Sys.inode dotDir
    simp [hi]

theorem slots_dotDir : dotDir.slots 1 = [⟨1,.dot⟩] := by decide

theorem wellFormed_dotDir : @WellFormed smallDisk dotDir 1 := by
  let := smallDisk
  have hcons : dotDir.Consistent := by
    refine consistent_oneBlock rfl (by decide) (by decide) rfl (by decide) fun i hi => ?_
    rw [inode_dotDir,if_neg hi]
    exact ⟨rfl,rfl⟩
  refine ⟨⟨hcons,⟨by decide,by decide⟩,rfl,⟨1,rfl⟩⟩,rfl,fun i j a b hi hj _ _ _ => ?_,?_⟩
  · rw [slots_dotDir] at hi hj
    have hi := (List.getElem?_eq_some_iff.mp hi).1
    have hj := (List.getElem?_eq_some_iff.mp hj).1
    rw [List.length_singleton] at hi hj
    omega
  · rw [slots_dotDir]
    decide

theorem dirlink_actsAsMap_new : ∃ (_ : Superblock), WellFormed dotDir 1 ∧ ActsAsMap dotDir 1 [102] 2 := by
  let := smallDisk
  refine ⟨smallDisk,wellFormed_dotDir,(dirlink_actsAsMap wellFormed_dotDir [102] (by decide)).mpr ?_⟩
  unfold Enterable
  rw [slots_dotDir]
  exact ⟨by decide,by decide,.inr (by decide)⟩

/-- The directory is asked for a second entry with the name of the first, and never answers. -/
theorem dirlink_self_deadlock : ∃ (_ : Superblock) (s s' : Sys) (dp inum : ℕ) (name : List UInt8), WellFormed s dp ∧
    inum ≠ 0 ∧ NamePresent s dp name ∧ Raw.dirlink dp name inum s = .error .deadlock s' := by
  let := smallDisk
  have hl : lookup (Name.ofBytes [46]) (dotDir.slots 1) = some (1,0) := by
    rw [slots_dotDir]
    decide
  refine ⟨smallDisk,dotDir,dotDir.grab 1,1,2,[46],wellFormed_dotDir,by decide,(present_iff _).mpr (by rw [hl]; nofun),?_⟩
  rw [Raw.dirlink_eq,dirlink_found wellFormed_dotDir.toDirectory hl,bind_of_ok (iget_ok (.inl (by decide)))]
  exact bind_of_error (iput_locked (by decide))

end Instances
end Xv6.Fs
