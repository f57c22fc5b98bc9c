import Xv6.Fs.Inodes

/-! # Directories and path names -/
namespace Xv6.Fs
def slash : UInt8 := 47

def skipelem (path : Path) : Option (Name × Path) :=
  let path := path.dropWhile (· = slash)
  if path = [] then none
  else some (Name.ofBytes (path.takeWhile (· ≠ slash)),(path.dropWhile (· ≠ slash)).dropWhile (· = slash))

theorem skipelem_length {path rest : Path} {name : Name} (h : skipelem path = some (name,rest)) :
    rest.length < path.length := by
  simp only [skipelem] at h
  split at h
  · cases h
  · rename_i hne
    obtain ⟨c,cs,hc⟩ := List.exists_cons_of_ne_nil hne
    have hcs : c ≠ slash := by
      have := List.head_dropWhile_not (fun b : UInt8 => decide (b = slash)) hne
      simpa [hc] using this
    have hrest := (Option.some.inj h)
    have hlen : (path.dropWhile (· = slash)).length ≤ path.length := List.length_dropWhile_le _ _
    have hlen' : (cs.dropWhile (· ≠ slash)).length ≤ cs.length := List.length_dropWhile_le _ _
    have hlen'' := List.length_dropWhile_le (fun b : UInt8 => decide (b = slash)) (cs.dropWhile (· ≠ slash))
    rw [hc] at hrest hlen
    simp only [List.dropWhile_cons,hcs,ne_eq,not_false_eq_true,decide_true,if_true,Prod.mk.injEq] at hrest
    rw [← hrest.2]
    simp only [List.length_cons,ne_eq] at hlen hlen' hlen'' ⊢
    omega

variable [sb : Superblock]

def namecmp (s t : Name) : Bool := s = t

def readDirent (dp : ℕ) (what : Stop) (off : ℕ) : FsM Dirent := do
  match ← readi dp off DIRENT with
  | none => throw what
  | some bytes => if bytes.length ≠ DIRENT then throw what else pure (Dirent.ofBytes bytes)

/-- The loop over the entries of a directory: the first entry from `off` on that passes the
test, with its offset. The first argument bounds the number of rounds. -/
def dirscan (dp : ℕ) (what : Stop) (test : Dirent → Bool) : ℕ → ℕ → FsM (Option (ℕ × Dirent))
  | 0, _ => pure none
  | n + 1, off => do
    if off < ((← get).cache dp).copy.size then
      let de ← readDirent dp what off
      if test de then pure (some (off,de)) else dirscan dp what test n (off+DIRENT)
    else pure none

def rounds (size : ℕ) : ℕ := (size+DIRENT-1)/DIRENT

def dirlookup (dp : ℕ) (name : Name) : FsM (Option (ℕ × ℕ)) := do
  let d := ((← get).cache dp).copy
  if d.type ≠ .dir then throw .dirlookupNotDir
  else
    match ← dirscan dp .dirlookupRead (fun de => de.inum ≠ 0 && namecmp name de.name) (rounds d.size) 0 with
    | none => pure none
    | some (off,de) =>
      iget de.inum
      pure (some (de.inum,off))

def dirlink (dp : ℕ) (name : Name) (inum : ℕ) : FsM Bool := do
  match ← dirlookup dp name with
  | some (ip,_) =>
    iput ip
    pure false
  | none =>
    let size := ((← get).cache dp).copy.size
    let empty ← dirscan dp .dirlinkRead (fun de => de.inum = 0) (rounds size) 0
    let off := match empty with
      | some (off,_) => off
      | none => DIRENT*rounds size
    let r ← writei dp (Dirent.toBytes ⟨inum,name⟩) off
    if r ≠ some DIRENT then throw .dirlink else pure true

/-- The loop of `namex`, with the last element that was copied. The first argument after the
flag bounds the number of rounds. -/
def walk (nameiparent : Bool) : ℕ → ℕ → Name → Path → FsM (Option (ℕ × Name))
  | 0, _, _, _ => pure none
  | n + 1, ip, last, path =>
    match skipelem path with
    | none =>
      if nameiparent then do
        iput ip
        pure none
      else pure (some (ip,last))
    | some (name,path) => do
      ilock ip
      if ((← get).cache ip).copy.type ≠ .dir then
        iunlockput ip
        pure none
      else if nameiparent = true ∧ path = [] then
        iunlock ip
        pure (some (ip,name))
      else
        match ← dirlookup ip name with
        | none =>
          iunlockput ip
          pure none
        | some (next,_) =>
          iunlockput ip
          walk nameiparent n next name path

def start (p : Pid) (path : Path) : FsM ℕ := do
  match path with
  | c :: _ =>
    if c = slash then
      iget ROOTINO
      pure ROOTINO
    else here p
  | [] => here p
where
  here (p : Pid) : FsM ℕ := do
    let ip := ((← get).cwd p).getD 0
    idup ip
    pure ip

def namex (p : Pid) (path : Path) (nameiparent : Bool) : FsM (Option (ℕ × Name)) := do
  let ip ← start p path
  walk nameiparent (path.length+1) ip (Name.ofBytes []) path

def namei (p : Pid) (path : Path) : FsM (Option ℕ) := do
  let r ← namex p path false
  pure (r.map Prod.fst)

def nameiparent (p : Pid) (path : Path) : FsM (Option (ℕ × Name)) := namex p path true

end Xv6.Fs
