import Xv6.Fs.Entries

/-! # Names as bytes

The kernel compares names with `strncmp` and copies them with `strncpy`, in fields that need not end with
a zero. Both see the first `DIRSIZ` bytes only, so the functions on directories may as well work on names.
-/
namespace Xv6.Fs.Raw
open Program

section Strings
variable {p q : List UInt8} {n : ℕ}

def strncmp : List UInt8 → List UInt8 → ℕ → ℤ
  | _, _, 0 => 0
  | p, q, n + 1 =>
    if p.headD 0 ≠ 0 ∧ p.headD 0 = q.headD 0 then strncmp p.tail q.tail n
    else (p.headD 0).toNat-(q.headD 0).toNat

def namecmp (s t : List UInt8) : ℤ := strncmp s t DIRSIZ

def strncpy : List UInt8 → ℕ → List UInt8
  | _, 0 => []
  | t, n + 1 => if t.headD 0 = 0 then List.replicate (n+1) 0 else t.headD 0 :: strncpy t.tail n

theorem takeWhile_of_head (h : p.headD 0 = 0) : p.takeWhile (· ≠ 0) = [] := by
  cases p with
  | nil => rfl
  | cons b p =>
    obtain rfl : b = 0 := h
    rfl

theorem takeWhile_of_head_ne (h : p.headD 0 ≠ 0) :
    p.takeWhile (· ≠ 0) = p.headD 0 :: p.tail.takeWhile (· ≠ 0) := by
  cases p with
  | nil => exact absurd rfl h
  | cons b p => exact List.takeWhile_cons_of_pos (decide_eq_true h)

theorem byte_sub_eq_zero (a b : UInt8) : (a.toNat : ℤ)-b.toNat = 0 ↔ a = b := by
  rw [sub_eq_zero,Nat.cast_inj,UInt8.toNat_inj]

theorem strncmp_eq_zero : strncmp p q n = 0 ↔ (p.takeWhile (· ≠ 0)).take n = (q.takeWhile (· ≠ 0)).take n := by
  induction n generalizing p q with
  | zero => exact iff_of_true rfl rfl
  | succ n ih =>
    rw [strncmp]
    by_cases hp : p.headD 0 = 0
    · rw [if_neg fun hc => hc.1 hp,byte_sub_eq_zero,takeWhile_of_head hp,hp]
      by_cases hq : q.headD 0 = 0
      · rw [takeWhile_of_head hq]
        exact iff_of_true hq.symm rfl
      · rw [takeWhile_of_head_ne hq]
        exact iff_of_false (Ne.symm hq) nofun
    · rw [takeWhile_of_head_ne hp]
      by_cases he : p.headD 0 = q.headD 0
      · have hq : q.headD 0 ≠ 0 := he ▸ hp
        rw [if_pos ⟨hp,he⟩,ih,takeWhile_of_head_ne hq,he,List.take_succ_cons,List.take_succ_cons,List.cons_inj_right]
      · rw [if_neg fun hc => he hc.2,byte_sub_eq_zero]
        refine iff_of_false he fun hc => ?_
        by_cases hq : q.headD 0 = 0
        · rw [takeWhile_of_head hq] at hc
          cases hc
        · rw [takeWhile_of_head_ne hq,List.take_succ_cons,List.take_succ_cons] at hc
          exact he (List.cons.inj hc).1

theorem namecmp_eq_zero (s t : List UInt8) : namecmp s t = 0 ↔ Name.ofBytes s = Name.ofBytes t := by
  rw [namecmp,strncmp_eq_zero]
  exact (Subtype.ext_iff : Name.ofBytes s = Name.ofBytes t ↔ _).symm

theorem strncpy_eq (t : List UInt8) (n : ℕ) : strncpy t n = (t.takeWhile (· ≠ 0)).take n ++
    List.replicate (n-((t.takeWhile (· ≠ 0)).take n).length) 0 := by
  induction n generalizing t with
  | zero => rfl
  | succ n ih =>
    rw [strncpy]
    by_cases ht : t.headD 0 = 0
    · rw [if_pos ht,takeWhile_of_head ht]
      rfl
    · rw [if_neg ht,takeWhile_of_head_ne ht,ih,List.take_succ_cons,List.length_cons,Nat.succ_sub_succ]
      rfl

theorem strncpy_name (t : List UInt8) : strncpy t DIRSIZ = (Name.ofBytes t).toBytes := strncpy_eq t DIRSIZ

end Strings

section Directories
variable [sb : Superblock]

def dirscan (dp : ℕ) (what : Stop) (test : List UInt8 → Bool) : ℕ → ℕ → FsM (Option (ℕ × List UInt8))
  | 0, _ => pure none
  | n + 1, off => do
    if off < ((← get).cache dp).copy.size then
      match ← readi dp off DIRENT with
      | none => throw what
      | some de =>
        if de.length ≠ DIRENT then throw what
        else if test de then pure (some (off,de))
        else dirscan dp what test n (off+DIRENT)
    else pure none

def inum (de : List UInt8) : ℕ := (de.getD 0 0).toNat+256*(de.getD 1 0).toNat

def nameField (de : List UInt8) : List UInt8 := de.drop 2

def dirlookup (dp : ℕ) (name : List UInt8) : FsM (Option (ℕ × ℕ)) := do
  let d := ((← get).cache dp).copy
  if d.type ≠ .dir then throw .dirlookupNotDir
  else
    match ← dirscan dp .dirlookupRead (fun de => inum de ≠ 0 && namecmp name (nameField de) = 0) (rounds d.size) 0 with
    | none => pure none
    | some (off,de) =>
      iget (inum de)
      pure (some (inum de,off))

def dirent (inum : ℕ) (name : List UInt8) : List UInt8 :=
  UInt8.ofNat inum :: UInt8.ofNat (inum/256) :: strncpy name DIRSIZ

def dirlink (dp : ℕ) (name : List UInt8) (inum : ℕ) : FsM Bool := do
  match ← dirlookup dp name with
  | some (ip,_) =>
    iput ip
    pure false
  | none =>
    let size := ((← get).cache dp).copy.size
    let empty ← dirscan dp .dirlinkRead (fun de => Raw.inum de = 0) (rounds size) 0
    let off := match empty with
      | some (off,_) => off
      | none => DIRENT*rounds size
    let r ← writei dp (dirent inum name) off
    if r ≠ some DIRENT then throw .dirlink else pure true

theorem dirscan_eq (dp : ℕ) (what : Stop) (test : Dirent → Bool) (n off : ℕ) :
    Fs.dirscan dp what test n off = (do
      let r ← dirscan dp what (fun de => test (Dirent.ofBytes de)) n off
      pure (r.map fun e => (e.1,Dirent.ofBytes e.2))) := by
  induction n generalizing off with
  | zero => rfl
  | succ n ih =>
    funext s
    unfold Fs.dirscan dirscan
    rw [bind_assoc]
    rw [bind_of_ok (get_apply s),bind_of_ok (get_apply s)]
    by_cases hoff : off < (s.cache dp).copy.size
    · rw [if_pos hoff,if_pos hoff]
      unfold readDirent
      rw [bind_assoc,bind_assoc,bind_apply,bind_apply]
      cases readi dp off DIRENT s with
      | error e t => rfl
      | ok r t =>
        cases r with
        | none => rfl
        | some de =>
          dsimp only
          by_cases hlen : de.length ≠ DIRENT
          · rw [if_pos hlen,if_pos hlen]
            rfl
          · rw [if_neg hlen,if_neg hlen,pure_bind]
            by_cases htest : test (Dirent.ofBytes de) = true
            · rw [if_pos htest,if_pos htest]
              rfl
            · rw [if_neg htest,if_neg htest,ih]
    · rw [if_neg hoff,if_neg hoff]
      rfl

theorem dirlookup_eq (dp : ℕ) (name : List UInt8) : dirlookup dp name = Fs.dirlookup dp (Name.ofBytes name) := by
  have htest : (fun de => inum de ≠ 0 && namecmp name (nameField de) = 0) = fun de : List UInt8 =>
      (Dirent.ofBytes de).inum ≠ 0 && Fs.namecmp (Name.ofBytes name) (Dirent.ofBytes de).name := by
    funext de
    rw [decide_eq_decide.mpr (namecmp_eq_zero name (nameField de))]
    rfl
  unfold dirlookup Fs.dirlookup
  rw [htest]
  funext s
  rw [bind_of_ok (get_apply s),bind_of_ok (get_apply s)]
  by_cases htype : (s.cache dp).copy.type ≠ .dir
  · rw [if_pos htype,if_pos htype]
  · rw [if_neg htype,if_neg htype,dirscan_eq,bind_assoc]
    refine congrFun (bind_congr fun r => ?_) s
    cases r <;> rfl

theorem dirlink_eq (dp : ℕ) (name : List UInt8) (inum : ℕ) : dirlink dp name inum = Fs.dirlink dp (Name.ofBytes name) inum := by
  unfold dirlink Fs.dirlink
  rw [dirlookup_eq]
  refine bind_congr fun r => ?_
  cases r with
  | some e => rfl
  | none =>
    funext s
    dsimp only
    rw [bind_of_ok (get_apply s),bind_of_ok (get_apply s),dirscan_eq,bind_assoc]
    refine congrFun (bind_congr fun r => ?_) s
    unfold dirent
    rw [strncpy_name]
    cases r <;> rfl

end Directories
end Xv6.Fs.Raw
