import Xv6.Param
import Xv6.Library.ByteField
import Xv6.Library.Wp

/-! # The file system: disk, inode cache and open files

The disk appears with the log already applied: a bitmap, an inode table and blocks of
bytes. An inode is named by its number, in the cache as well; a cached entry holds a
copy of the inode that is written back only on request. Strings and path names are the
bytes in front of their terminating zero.
-/
namespace Xv6.Fs
open ByteField

abbrev NPROC : ℕ := 64
abbrev NINODE : ℕ := 50
abbrev NDEV : ℕ := 10
abbrev CONSOLE : ℕ := 1
abbrev ROOTINO : ℕ := 1
abbrev DIRSIZ : ℕ := 14
abbrev DIRENT : ℕ := 2+DIRSIZ

class Superblock where
  size : ℕ
  nblocks : ℕ

abbrev Block := Bytes BSIZE
abbrev Path := List UInt8
abbrev Pid := Fin NPROC
abbrev Fd := Fin NOFILE
abbrev FileNo := Fin NFILE

def Superblock.datastart [sb : Superblock] : ℕ := sb.size-sb.nblocks

inductive FileType
  | free
  | dir
  | file
  | dev
  deriving DecidableEq

structure Dinode where
  type : FileType
  major : BitVec 16
  minor : BitVec 16
  nlink : ℤ
  size : ℕ
  addrs : Fin (NDIRECT+1) → ℕ

def Dinode.zero : Dinode := ⟨.free,0,0,0,0,fun _ => 0⟩

/-- An entry of the inode cache, with its copy of the inode. -/
structure Inode where
  ref : ℕ
  locked : Bool
  valid : Bool
  copy : Dinode

inductive FileKind
  | none
  | pipe (p : ℕ)
  | inode (ip : ℕ)
  deriving DecidableEq

structure File where
  kind : FileKind
  ref : ℕ
  readable : Bool
  writable : Bool
  off : ℕ

structure Pipe where
  readopen : Bool
  writeopen : Bool
  page : Bool
  deriving DecidableEq

/-- The whole system. `incore` counts the entries of the inode cache that are in use;
pipes are numbered in the order of their allocation; `answers` is what the console and
the other ends of pipes are going to deliver. A process without a current directory is
an unused slot. -/
structure Sys where
  used : ℕ → Bool
  block : ℕ → Block
  dinode : ℕ → Dinode
  cache : ℕ → Inode
  incore : ℕ
  file : FileNo → File
  ofile : Pid × Fd → Option FileNo
  cwd : Pid → Option ℕ
  pipe : ℕ → Pipe
  pipes : ℕ
  answers : List (Option (List UInt8))

/-- Why a call does not return: the panics of the source, a wait for a sleep lock that the
call itself holds, and a wait for the console or for a pipe. -/
inductive Stop
  | incorrectBlockno
  | ballocOutOfBlocks
  | freeingFreeBlock
  | igetNoInodes
  | ilock
  | ilockNoType
  | iunlock
  | bmapOutOfRange
  | dirlookupNotDir
  | dirlookupRead
  | dirlinkRead
  | dirlink
  | filewrite
  | shortFilewrite
  | deadlock
  | waiting
  deriving DecidableEq

abbrev FsM := EStateM Stop Sys

abbrev Name := { l : List UInt8 // l.length ≤ DIRSIZ ∧ 0 ∉ l }

def Name.ofBytes (l : List UInt8) : Name :=
  ⟨(l.takeWhile (· ≠ 0)).take DIRSIZ,List.length_take_le _ _,fun h => by
    simpa using List.mem_takeWhile_imp (List.mem_of_mem_take h)⟩

def Name.toBytes (name : Name) : List UInt8 := name.val ++ List.replicate (DIRSIZ-name.val.length) 0

def Name.dot : Name := ⟨[46],by decide⟩

structure Dirent where
  inum : ℕ
  name : Name
  deriving DecidableEq

def Dirent.ofBytes (l : List UInt8) : Dirent :=
  ⟨(l.getD 0 0).toNat+256*(l.getD 1 0).toNat,Name.ofBytes (l.drop 2)⟩

def Dirent.toBytes (de : Dirent) : List UInt8 :=
  UInt8.ofNat de.inum :: UInt8.ofNat (de.inum/256) :: de.name.toBytes

theorem Name.length_toBytes (name : Name) : name.toBytes.length = DIRSIZ := by
  have h := name.property.1
  simp only [Name.toBytes,List.length_append,List.length_replicate]
  omega

theorem Dirent.length_toBytes (de : Dirent) : de.toBytes.length = DIRENT := by
  have h := Name.length_toBytes de.name
  change (de.name.toBytes.length+1)+1 = 2+DIRSIZ
  omega

theorem Name.ofBytes_toBytes (name : Name) : Name.ofBytes name.toBytes = name := by
  apply Subtype.ext
  have hall : ∀ b ∈ name.val, decide (b ≠ 0) = true := by
    intro b hb
    exact decide_eq_true fun h => name.property.2 (h ▸ hb)
  have hzero : (List.replicate (DIRSIZ-name.val.length) (0 : UInt8)).takeWhile (· ≠ 0) = [] := by
    cases DIRSIZ-name.val.length <;> simp [List.replicate_succ]
  change (List.takeWhile _ (name.val ++ _)).take DIRSIZ = name.val
  rw [List.takeWhile_append_of_pos hall,hzero,List.append_nil,List.take_of_length_le name.property.1]

theorem Dirent.ofBytes_toBytes {de : Dirent} (h : de.inum < 65536) : Dirent.ofBytes de.toBytes = de := by
  have hinum : (UInt8.ofNat de.inum).toNat+256*(UInt8.ofNat (de.inum/256)).toNat = de.inum := by
    simp only [UInt8.toNat_ofNat']
    omega
  cases de with
  | mk inum name =>
    simp only [Dirent.ofBytes,Dirent.toBytes,Dirent.mk.injEq]
    exact ⟨hinum,Name.ofBytes_toBytes name⟩

def blit (b : Block) (off : ℕ) (src : List UInt8) : Block := fun i =>
  if off ≤ i.val then src.getD (i.val-off) (b i) else b i

def slice (b : Block) (off n : ℕ) : List UInt8 := (List.range n).map fun j => byteAt b (off+j)

def zeros : Block := fun _ => 0

def word (b : Block) (j : ℕ) : ℕ := getLE 4 b (4*j)

def setWord (b : Block) (j v : ℕ) : Block := putLE 4 b (4*j) v

end Xv6.Fs
