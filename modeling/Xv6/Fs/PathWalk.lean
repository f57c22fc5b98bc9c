import Xv6.Fs.PathNames
import Xv6.Fs.Visits

/-! # Path resolution follows the components

The walk looks one component after another up and holds one reference, to the inode that it has reached. It stops the kernel
only when the inode cache has no entry left.
-/
namespace Xv6.Fs
open Program
variable {s t u : Sys} {ip next n : ℕ} {name last : Name} {path : Path} {p : Pid}

section Resolution

def Sys.child (s : Sys) (dp : ℕ) (name : Name) : Option ℕ :=
  if (s.inode dp).type = .dir then (lookup name (s.slots dp)).map Prod.fst else none

/-- The inode that a path leads to. -/
def Sys.follow (s : Sys) : ℕ → List Name → Option ℕ
  | ip, [] => some ip
  | ip, name :: names => (s.child ip name).bind fun next => s.follow next names

def Sys.resolve (s : Sys) (parent : Bool) : ℕ → Name → List Name → Option (ℕ × Name)
  | ip, last, [] => if parent then none else some (ip,last)
  | ip, _, name :: names =>
    if (s.inode ip).type ≠ .dir then none
    else if parent = true ∧ names = [] then some (ip,name)
    else match lookup name (s.slots ip) with
      | none => none
      | some (next,_) => s.resolve parent next name names

end Resolution

section Steps

/-- An inode in use, with a link or a reference. -/
structure Sys.Anchored (s : Sys) (i : ℕ) : Prop where
  type : (s.inode i).type ≠ .free
  held : (s.inode i).nlink ≠ 0 ∨ 0 < (s.cache i).ref

theorem Sys.Anchored.grab (h : s.Anchored ip) (i : ℕ) : (s.grab i).Anchored ip where
  type := by
    rw [inode_grab]
    exact h.type
  held := by
    rw [inode_grab,ref_grab]
    exact h.held.imp_right fun hpos => Nat.lt_of_lt_of_le hpos (Nat.le_add_right _ _)

theorem iput_alike (h : s.Anchored ip) (hunlocked : (s.cache ip).locked = false) (hu : Alike (s.grab ip) u) :
    iput ip u = .ok () (u.drop ip) ∧ Alike s (u.drop ip) := by
  have href := hu.ref ip
  rw [ref_grab,if_pos rfl] at href
  refine ⟨iput_ok ?_ ?_,hu.drop⟩
  · rw [hu.locked,locked_grab,hunlocked]
  · rintro ⟨hvalid,hnlink,hone⟩
    have hcached : u.Cached ip := ⟨by omega,hvalid⟩
    rw [← hcached.inode,hu.inode,inode_grab] at hnlink
    rcases h.held with hne | hpos
    · exact hne hnlink
    · omega

theorem inode_visited (ht : Alike (s.grab ip) t) : (t.lock ip).inode = s.inode := by
  have href := ht.ref ip
  rw [ref_grab,if_pos rfl] at href
  rw [Sys.inode_lock (by omega),ht.inode,inode_grab]

theorem slots_visited (ht : Alike (s.grab ip) t) : (t.lock ip).slots ip = s.slots ip := by
  unfold Sys.slots
  rw [inode_visited ht]
  exact congrArg (fun blk => Fs.slots (contents blk _)) ht.block

variable [sb : Superblock]

/-- A consistent file system without locks: the root, the working directories and the entries of every
directory are anchored. -/
structure Tree (s : Sys) : Prop where
  consistent : s.Consistent
  unlocked : ∀ i, (s.cache i).locked = false
  aligned : ∀ i, (s.inode i).type = .dir → DIRENT ∣ (s.inode i).size
  entries : ∀ i, (s.inode i).type = .dir → ∀ de ∈ s.slots i, de.inum ≠ 0 → s.Anchored de.inum
  root : s.Anchored ROOTINO
  cwd : ∀ p c, s.cwd p = some c → s.Anchored c ∧ 0 < (s.cache c).ref

variable (h : Tree s)
include h

theorem Tree.ilock (hip : s.Anchored ip) (ht : Alike (s.grab ip) t) : ilock ip t = .ok () (t.lock ip) := by
  have href := ht.ref ip
  rw [ref_grab,if_pos rfl] at href
  refine ilock_ok (by omega) (by rw [ht.locked,locked_grab,h.unlocked]) ?_
  by_cases hvalid : (t.cache ip).valid = true
  · exact .inl hvalid
  · have hdisk : t.inode ip = t.dinode ip := if_neg fun hc => hvalid hc.2
    refine .inr ?_
    rw [← hdisk,ht.inode,inode_grab]
    exact hip.type

theorem Tree.directory (ht : Alike (s.grab ip) t) (hdir : (s.inode ip).type = .dir) : (t.lock ip).Directory ip := by
  have href := ht.ref ip
  rw [ref_grab,if_pos rfl] at href
  have hinode := inode_visited ht
  refine ⟨?_,Sys.cached_lock (by omega),?_,?_⟩
  · have hused : (t.lock ip).used = s.used := ht.used
    have hblock : (t.lock ip).block = s.block := ht.block
    unfold Sys.Consistent
    rw [hinode,hused,hblock]
    exact h.consistent
  · rw [hinode,hdir]
  · rw [hinode]
    exact h.aligned ip hdir

theorem Tree.iunlock (ht : Alike (s.grab ip) t) : iunlock ip (t.lock ip) = .ok () ((t.lock ip).unlock ip) ∧
    Alike (s.grab ip) ((t.lock ip).unlock ip) := by
  have href := ht.ref ip
  rw [ref_grab,if_pos rfl] at href
  refine ⟨iunlock_ok (by rw [t.lock_self]) (by rw [ref_lock]; omega),ht.locked_unlock ?_ ?_⟩
  · rw [ref_grab,if_pos rfl]
    omega
  · rw [locked_grab,h.unlocked]

theorem Tree.iunlockput (hip : s.Anchored ip) (ht : Alike (s.grab ip) t) :
    ∃ t', Fs.iunlockput ip (t.lock ip) = .ok () t' ∧ Alike s t' := by
  obtain ⟨hrun,hu⟩ := h.iunlock ht
  obtain ⟨hput,hs⟩ := iput_alike hip (h.unlocked ip) hu
  refine ⟨_,?_,hs⟩
  unfold Fs.iunlockput
  rw [bind_of_ok hrun,hput]

theorem Tree.move (hip : s.Anchored ip) (ht : Alike (s.grab ip) t) (next : ℕ) :
    ∃ t', Fs.iunlockput ip ((t.lock ip).grab next) = .ok () t' ∧ Alike (s.grab next) t' := by
  have href := ht.ref ip
  rw [ref_grab,if_pos rfl] at href
  have hlocked : (((t.lock ip).grab next).cache ip).locked = true := by rw [locked_grab,t.lock_self]
  have hpos : 0 < (((t.lock ip).grab next).cache ip).ref := by
    rw [ref_grab,ref_lock]
    omega
  have hu : Alike ((s.grab ip).grab next) ((((t.lock ip).grab next)).unlock ip) := by
    refine ht.locked_grab ?_ ?_ next
    · rw [ref_grab,if_pos rfl]
      omega
    · rw [locked_grab,h.unlocked]
  obtain ⟨hput,hs⟩ := iput_alike (hip.grab next) (by rw [locked_grab,h.unlocked]) ((alike_grab_comm s next ip).trans hu)
  refine ⟨_,?_,hs⟩
  unfold Fs.iunlockput
  rw [bind_of_ok (iunlock_ok hlocked hpos),hput]

end Steps

section Walk
variable [sb : Superblock]

/-- A walk that succeeds holds a reference to its inode, one that fails holds none. -/
def Reached (s : Sys) (r : Option (ℕ × Name)) (t : Sys) : Prop :=
  match r with
  | none => Alike s t
  | some (ip,_) => Alike (s.grab ip) t

theorem walk_cases (h : Tree s) (parent : Bool) (hn : path.length < n) (hip : s.Anchored ip) (ht : Alike (s.grab ip) t) :
    (∃ t', walk parent n ip last path t = .ok (s.resolve parent ip last (components path)) t' ∧
      Reached s (s.resolve parent ip last (components path)) t') ∨
    ∃ t', walk parent n ip last path t = .error .igetNoInodes t' ∧ NINODE ≤ s.incore+1 := by
  induction n generalizing ip last path t with
  | zero => omega
  | succ n ih =>
    unfold walk
    cases hskip : skipelem path with
    | none =>
      rw [skipelem_none.mp hskip,Sys.resolve]
      by_cases hparent : parent = true
      · rw [if_pos hparent,if_pos hparent]
        obtain ⟨hput,hs⟩ := iput_alike hip (h.unlocked ip) ht
        exact .inl ⟨_,bind_of_ok hput,hs⟩
      · rw [if_neg hparent,if_neg hparent]
        exact .inl ⟨t,rfl,ht⟩
    | some e =>
      obtain ⟨name,rest⟩ := e
      have hrest := skipelem_length hskip
      have hnil := skipelem_rest hskip
      rw [skipelem_some hskip,Sys.resolve]
      dsimp only
      rw [bind_of_ok (h.ilock hip ht),bind_of_ok (get_apply _)]
      have hcopy : ((t.lock ip).cache ip).copy = s.inode ip := by
        rw [t.lock_self]
        change t.inode ip = _
        rw [ht.inode,inode_grab]
      rw [hcopy]
      by_cases hdir : (s.inode ip).type ≠ .dir
      · rw [if_pos hdir,if_pos hdir]
        obtain ⟨t',hput,hs⟩ := h.iunlockput hip ht
        exact .inl ⟨t',bind_of_ok hput,hs⟩
      · rw [if_neg hdir,if_neg hdir]
        have hdir := not_not.mp hdir
        by_cases hstop : parent = true ∧ rest = []
        · rw [if_pos hstop,if_pos ⟨hstop.1,hnil.mp hstop.2⟩]
          obtain ⟨hrun,hu⟩ := h.iunlock ht
          exact .inl ⟨_,bind_of_ok hrun,hu⟩
        · rw [if_neg hstop,if_neg fun hc => hstop ⟨hc.1,hnil.mpr hc.2⟩]
          have hlook := dirlookup_eq (h.directory ht hdir) name
          rw [slots_visited ht] at hlook
          cases hl : lookup name (s.slots ip) with
          | none =>
            rw [hl] at hlook
            obtain ⟨t',hput,hs⟩ := h.iunlockput hip ht
            refine .inl ⟨t',?_,hs⟩
            rw [bind_of_ok hlook]
            exact bind_of_ok hput
          | some e =>
            obtain ⟨next,off⟩ := e
            rw [hl] at hlook
            dsimp only
            by_cases hhold : (t.lock ip).Holdable next
            · rw [igetFound_ok hhold] at hlook
              obtain ⟨t',hput,hs⟩ := h.move hip ht next
              have hnext : s.Anchored next := by
                obtain ⟨k,hk,hne,-⟩ := lookup_some hl
                exact h.entries ip hdir _ (List.mem_of_getElem? hk) hne
              rw [bind_of_ok hlook]
              dsimp only
              rw [bind_of_ok hput]
              exact ih (by omega) hnext hs
            · rw [igetFound_full hhold] at hlook
              rw [bind_of_error hlook]
              refine .inr ⟨_,rfl,?_⟩
              have hincore : (t.lock ip).incore = s.incore+_ := ht.incore.trans (incore_grab s ip)
              have hfull : NINODE ≤ (t.lock ip).incore := Nat.not_lt.mp fun hc => hhold (.inr hc)
              rw [hincore] at hfull
              split at hfull <;> omega

def Sys.origin (s : Sys) (p : Pid) (path : Path) : ℕ := if path.head? = some slash then ROOTINO else (s.cwd p).getD 0

omit sb in
theorem idup_eq (h : 0 < (s.cache ip).ref) : idup ip s = .ok () (s.grab ip) := by
  unfold idup Sys.grab
  rw [if_pos h,decide_eq_true h,Bool.and_true]
  rfl

theorem start_cases (h : Tree s) (hp : s.cwd p ≠ none) (path : Path) : s.Anchored (s.origin p path) ∧
    (start p path s = .ok (s.origin p path) (s.grab (s.origin p path)) ∨
      start p path s = .error .igetNoInodes s ∧ NINODE ≤ s.incore) := by
  have hhere : s.Anchored ((s.cwd p).getD 0) ∧ start.here p s = .ok ((s.cwd p).getD 0) (s.grab ((s.cwd p).getD 0)) := by
    obtain ⟨c,hc⟩ := Option.ne_none_iff_exists'.mp hp
    obtain ⟨hanchored,hpos⟩ := h.cwd p c hc
    unfold start.here
    rw [bind_of_ok (get_apply s),hc,Option.getD_some,bind_of_ok (idup_eq hpos)]
    exact ⟨hanchored,rfl⟩
  unfold Sys.origin
  cases path with
  | nil => exact ⟨hhere.1,.inl hhere.2⟩
  | cons c path =>
    rw [List.head?_cons]
    by_cases hc : c = slash
    · rw [if_pos (congrArg some hc)]
      refine ⟨h.root,?_⟩
      unfold start
      dsimp only
      rw [if_pos hc]
      by_cases hhold : s.Holdable ROOTINO
      · rw [bind_of_ok (iget_ok hhold)]
        exact .inl rfl
      · rw [bind_of_error (iget_full hhold)]
        exact .inr ⟨rfl,Nat.not_lt.mp fun hc => hhold (.inr hc)⟩
    · rw [if_neg fun he => hc (Option.some.inj he)]
      refine ⟨hhere.1,.inl ?_⟩
      unfold start
      dsimp only
      rw [if_neg hc]
      exact hhere.2

theorem namex_cases (h : Tree s) (hp : s.cwd p ≠ none) (path : Path) (parent : Bool) :
    (∃ t last, namex p path parent s = .ok (s.resolve parent (s.origin p path) last (components path)) t ∧
      Reached s (s.resolve parent (s.origin p path) last (components path)) t) ∨
    ∃ t, namex p path parent s = .error .igetNoInodes t ∧ NINODE ≤ s.incore+1 := by
  obtain ⟨hanchored,hstart⟩ := start_cases h hp path
  unfold namex
  rcases hstart with hrun | ⟨hrun,hfull⟩
  · rw [bind_of_ok hrun]
    exact (walk_cases h parent (Nat.lt_succ_self path.length) hanchored (.refl _)).imp
      (fun ⟨t,hwalk,hreached⟩ => ⟨t,Name.ofBytes [],hwalk,hreached⟩) id
  · rw [bind_of_error hrun]
    exact .inr ⟨s,rfl,by omega⟩

end Walk

end Xv6.Fs
