import Xv6.Fs.PathWalk

/-! # What a path leads to

`namei` returns the inode that the components of the path lead to, and `nameiparent` the directory that the last component
is to be looked up in; both return with one reference to it.
-/
namespace Xv6.Fs
open Program
variable {s t : Sys} {ip : ℕ} {last : Name} {p : Pid}

section Statement

def Sys.followParent (s : Sys) (ip : ℕ) (names : List Name) : Option (ℕ × Name) :=
  names.getLast?.bind fun name => (s.follow ip names.dropLast).bind fun dp =>
    if (s.inode dp).type = .dir then some (dp,name) else none

theorem resolve_false (s : Sys) (ip : ℕ) (last : Name) (names : List Name) :
    (s.resolve false ip last names).map Prod.fst = s.follow ip names := by
  induction names generalizing ip last with
  | nil => rfl
  | cons name names ih =>
    rw [Sys.resolve,Sys.follow,Sys.child]
    by_cases hdir : (s.inode ip).type = .dir
    · rw [if_neg (not_not_intro hdir),if_neg fun hc => Bool.false_ne_true hc.1,if_pos hdir]
      cases lookup name (s.slots ip) with
      | none => rfl
      | some e => exact ih e.1 name
    · rw [if_pos hdir,if_neg hdir]
      rfl

theorem resolve_true (s : Sys) (ip : ℕ) (last : Name) (names : List Name) :
    s.resolve true ip last names = s.followParent ip names := by
  induction names generalizing ip last with
  | nil => rfl
  | cons name names ih =>
    rw [Sys.resolve]
    by_cases hnil : names = []
    · subst hnil
      by_cases hdir : (s.inode ip).type = .dir
      · rw [if_neg (not_not_intro hdir),if_pos ⟨rfl,rfl⟩]
        exact (if_pos hdir).symm
      · rw [if_pos hdir]
        exact (if_neg hdir).symm
    · obtain ⟨m,ms,rfl⟩ := List.exists_cons_of_ne_nil hnil
      have hsplit : s.followParent ip (name :: m :: ms) = (s.child ip name).bind fun next => s.followParent next (m :: ms) := by
        unfold Sys.followParent
        rw [List.getLast?_cons_cons,List.dropLast_cons_of_ne_nil hnil,Sys.follow]
        cases s.child ip name with
        | none =>
          cases (m :: ms).getLast? <;> rfl
        | some next => rfl
      rw [hsplit,Sys.child]
      by_cases hdir : (s.inode ip).type = .dir
      · rw [if_neg (not_not_intro hdir),if_neg fun hc => hnil hc.2,if_pos hdir]
        cases lookup name (s.slots ip) with
        | none => rfl
        | some e => exact ih e.1 name
      · rw [if_pos hdir,if_neg hdir]
        rfl

/-- One more reference, to the inode that was found; disk, files and locks are as before. -/
structure Returned (s : Sys) (r : Option ℕ) (t : Sys) : Prop where
  ref : ∀ i, (t.cache i).ref = (s.cache i).ref+if r = some i then 1 else 0
  locked : ∀ i, (t.cache i).locked = (s.cache i).locked
  inode : t.inode = s.inode
  block : t.block = s.block
  used : t.used = s.used
  file : t.file = s.file
  ofile : t.ofile = s.ofile
  cwd : t.cwd = s.cwd

theorem Reached.returned {r : Option (ℕ × Name)} (h : Reached s r t) : Returned s (r.map Prod.fst) t := by
  cases r with
  | none =>
    refine ⟨fun i => ?_,h.locked,h.inode,h.block,h.used,h.file,h.ofile,h.cwd⟩
    rw [Alike.ref h,if_neg nofun]
    rfl
  | some e =>
    refine ⟨fun i => ?_,fun i => ?_,?_,h.block,h.used,h.file,h.ofile,h.cwd⟩
    · rw [Alike.ref h,ref_grab]
      exact congrArg _ (if_congr ⟨fun he => congrArg some he.symm,fun he => (Option.some.inj he).symm⟩ rfl rfl)
    · rw [Alike.locked h,locked_grab]
    · rw [Alike.inode h,inode_grab]

variable [sb : Superblock]

/-- The call has its result, or stops in `iget` where at most one entry of the cache was free. -/
def Resolves {α : Type} (s : Sys) (x : FsM α) (r : α) (ip : Option ℕ) : Prop :=
  (∃ t, x s = .ok r t ∧ Returned s ip t) ∨ ∃ t, x s = .error .igetNoInodes t ∧ NINODE ≤ s.incore+1

/-- `namei` and `nameiparent` follow the components of the path. -/
theorem namei_follows (h : Tree s) (hp : s.cwd p ≠ none) (path : Path) :
    Resolves s (namei p path) (s.follow (s.origin p path) (components path))
      (s.follow (s.origin p path) (components path)) ∧
    Resolves s (nameiparent p path) (s.followParent (s.origin p path) (components path))
      ((s.followParent (s.origin p path) (components path)).map Prod.fst) := by
  constructor
  · unfold namei
    rcases namex_cases h hp path false with ⟨t,last,hrun,hreached⟩ | ⟨t,hrun,hfull⟩
    · have hreturned := hreached.returned
      rw [resolve_false] at hreturned
      refine .inl ⟨t,?_,hreturned⟩
      rw [bind_of_ok hrun,← resolve_false s _ last]
      rfl
    · rw [Resolves,bind_of_error hrun]
      exact .inr ⟨t,rfl,hfull⟩
  · unfold nameiparent
    rcases namex_cases h hp path true with ⟨t,last,hrun,hreached⟩ | hfull
    · have hreturned := hreached.returned
      rw [resolve_true] at hrun hreturned
      exact .inl ⟨t,hrun,hreturned⟩
    · exact .inr hfull

end Statement

section Instances

def emptyDir : Dinode := { Dinode.zero with type := .dir, nlink := 1 }

def crowdedDinode (i : ℕ) : Dinode :=
  if i = 1 then { emptyDir with size := DIRENT, addrs := fun k => if k = ⟨0,Nat.succ_pos _⟩ then 4 else 0 }
  else if 1 < i ∧ i ≤ 50 then emptyDir
  else if i = 60 then { emptyFile with nlink := 1 } else .zero

def crowdedBlock (b : ℕ) : Block := if b = 4 then blit zeros 0 (Dirent.toBytes ⟨60,⟨[102],by decide⟩⟩) else zeros

/-- The root directory has the one entry `f`, and each of the first `n` processes has a directory of its own. -/
def crowded (n : ℕ) : Sys := { oneFile with
  used := fun b => decide (b < 5)
  block := crowdedBlock
  dinode := crowdedDinode
  cache := fun i => if 0 < i ∧ i ≤ n then ⟨1,false,true,crowdedDinode i⟩ else ⟨0,false,false,.zero⟩
  incore := n
  file := fun _ => ⟨.none,0,false,false,0⟩
  cwd := fun p => if p.val < n then some (p.val+1) else none }

variable {n : ℕ}

theorem inode_crowded : (crowded n).inode = crowdedDinode := by
  funext i
  by_cases hi : 0 < i ∧ i ≤ n
  · have hcache : (crowded n).cache i = ⟨1,false,true,crowdedDinode i⟩ := if_pos hi
    have hcached : (crowded n).Cached i := ⟨by rw [hcache]; exact Nat.one_pos,by rw [hcache]⟩
    rw [hcached.inode,hcache]
  · have hcache : (crowded n).cache i = ⟨0,false,false,.zero⟩ := if_neg hi
    rw [inode_of_ref_zero (by rw [hcache])]
    rfl

theorem type_crowded {i : ℕ} (h : (crowdedDinode i).type = .dir) : 0 < i ∧ i ≤ 50 := by
  unfold crowdedDinode at h
  split at h
  · omega
  · split at h
    · omega
    · split at h <;> cases h

theorem slots_root : (crowded n).slots 1 = [⟨60,⟨[102],by decide⟩⟩] := by
  unfold Sys.slots
  rw [inode_crowded]
  change slots (contents crowdedBlock (crowdedDinode 1)) = _
  decide

theorem slots_crowded {i : ℕ} (hi : (crowdedDinode i).type = .dir) {de : Dirent} (hde : de ∈ (crowded n).slots i) :
    de.inum = 60 := by
  by_cases h1 : i = 1
  · subst h1
    rw [slots_root] at hde
    rw [List.mem_singleton.mp hde]
  · have hempty : (crowded n).slots i = [] := by
      unfold Sys.slots
      rw [inode_crowded,crowdedDinode,if_neg h1,if_pos (by have := type_crowded hi; omega)]
      change slots (contents crowdedBlock emptyDir) = []
      decide
    rw [hempty] at hde
    cases hde

theorem anchored_crowded {i : ℕ} (h : (0 < i ∧ i ≤ 50) ∨ i = 60) : (crowded n).Anchored i := by
  refine ⟨?_,.inl ?_⟩
  · rw [inode_crowded,crowdedDinode]
    split
    · exact FileType.noConfusion
    · split
      · exact FileType.noConfusion
      · rw [if_pos (by omega)]
        exact FileType.noConfusion
  · rw [inode_crowded,crowdedDinode]
    split
    · exact one_ne_zero
    · split
      · exact one_ne_zero
      · rw [if_pos (by omega)]
        exact one_ne_zero

theorem tree_crowded (hn : n ≤ 50) : @Tree smallDisk (crowded n) := by
  let := smallDisk
  refine ⟨?_,fun i => ?_,fun i hi => ?_,fun i hi de hde _ => ?_,anchored_crowded (.inl (by decide)),fun p c hc => ?_⟩
  · unfold Sys.Consistent
    rw [inode_crowded]
    refine consistent_oneBlock rfl (by decide) (by decide) rfl (by decide) fun i hi => ?_
    unfold crowdedDinode
    rw [if_neg hi]
    split
    · exact ⟨rfl,rfl⟩
    · split
      · exact ⟨rfl,rfl⟩
      · exact ⟨rfl,rfl⟩
  · change (if 0 < i ∧ i ≤ n then _ else _ : Inode).locked = _
    split <;> rfl
  · rw [inode_crowded] at hi ⊢
    unfold crowdedDinode
    by_cases h1 : i = 1
    · rw [if_pos h1]
    · rw [if_neg h1,if_pos (by have := type_crowded hi; omega)]
      exact dvd_zero _
  · rw [inode_crowded] at hi
    exact anchored_crowded (.inr (slots_crowded hi hde))
  · have hc : (if p.val < n then some (p.val+1) else none) = some c := hc
    split at hc
    · cases hc
      refine ⟨anchored_crowded (.inl (by omega)),?_⟩
      change 0 < (if 0 < p.val+1 ∧ p.val+1 ≤ n then _ else _ : Inode).ref
      rw [if_pos (by omega)]
      exact Nat.one_pos
    · cases hc

/-- With three directories in use there is room in the cache for `/f`. -/
theorem namei_follows_file : ∃ (_ : Superblock) (t t' : Sys), Tree (crowded 3) ∧ (crowded 3).cwd 2 ≠ none ∧
    namei 2 [47,102] (crowded 3) = .ok (some 60) t ∧ Returned (crowded 3) (some 60) t ∧
    nameiparent 2 [47,102] (crowded 3) = .ok (some (1,⟨[102],by decide⟩)) t' ∧ Returned (crowded 3) (some 1) t' := by
  let := smallDisk
  have htree : Tree (crowded 3) := tree_crowded (by decide)
  obtain ⟨h1,h2⟩ := namei_follows htree (p := 2) (by decide) [47,102]
  obtain ⟨t,hrun,hret⟩ := h1.resolve_right fun ⟨_,_,hfull⟩ => absurd hfull (by decide)
  obtain ⟨t',hrun',hret'⟩ := h2.resolve_right fun ⟨_,_,hfull⟩ => absurd hfull (by decide)
  have hfollow : (crowded 3).follow ((crowded 3).origin 2 [47,102]) (components [47,102]) = some 60 := by decide
  have hparent : (crowded 3).followParent ((crowded 3).origin 2 [47,102]) (components [47,102]) =
      some (1,⟨[102],by decide⟩) := by decide
  rw [hfollow] at hrun hret
  rw [hparent] at hrun' hret'
  exact ⟨smallDisk,t,t',htree,by decide,hrun,hret,hrun',hret'⟩

/-- The file is there, and the inode cache is full. -/
theorem namei_noInodes : ∃ (_ : Superblock) (s t : Sys) (p : Pid) (path : Path), Tree s ∧ s.cwd p ≠ none ∧
    s.follow (s.origin p path) (components path) = some 60 ∧ namei p path s = .error .igetNoInodes t := by
  let := smallDisk
  refine ⟨smallDisk,crowded 50,((crowded 50).grab 1).lock 1,0,[47,102],tree_crowded le_rfl,by decide,by decide,?_⟩
  rfl

end Instances

end Xv6.Fs
