import Xv6.Fs.Transaction
import Xv6.Fs.Chunks

/-! # A transaction of `filewrite` fits its reservation

A round of the loop writes at most four blocks of the file. At most three of them are new, since a
start in the middle of a block is a start in a block that the file has; each new block costs a block
of the bitmap. The indirect block, its own block of the bitmap and the inode make ten.
-/
namespace Xv6.Fs
open ByteField Program Function
variable {r r' : Recorded} {ip d n a : ℕ}

section Counting

/-- The record is in `d` data blocks, `n` bitmap blocks and two blocks for the indirect block. -/
def Covered (d n : ℕ) (r : Recorded) : Prop :=
  ∃ D B T : Finset ℕ, D.card ≤ d ∧ B.card ≤ n ∧ T.card ≤ 2 ∧ ∀ x ∈ r.log, x ∈ D ∨ x ∈ B ∨ x ∈ T

theorem Covered.mono {d' n' : ℕ} (h : Covered d n r) (hd : d ≤ d') (hn : n ≤ n') : Covered d' n' r := by
  obtain ⟨D,B,T,hD,hB,hT,hlog⟩ := h
  exact ⟨D,B,T,hD.trans hd,hB.trans hn,hT,hlog⟩

theorem Covered.bit (h : Covered d n r) {b : ℕ} (hlog : r'.log = r.log ++ [b]) : Covered d (n+1) r' := by
  obtain ⟨D,B,T,hD,hB,hT,hall⟩ := h
  refine ⟨D,insert b B,T,hD,(Finset.card_insert_le _ _).trans (by omega),hT,fun x hx => ?_⟩
  rw [hlog,List.mem_append,List.mem_singleton] at hx
  rcases hx with hx | rfl
  · exact (hall x hx).imp_right (.imp_left (Finset.mem_insert_of_mem ·))
  · exact .inr (.inl (Finset.mem_insert_self _ _))

theorem Covered.card_le (h : Covered d n r) : r.log.toFinset.card ≤ d+n+2 := by
  obtain ⟨D,B,T,hD,hB,hT,hall⟩ := h
  have hsub : r.log.toFinset ⊆ D ∪ B ∪ T := by
    intro x hx
    rcases hall x (List.mem_toFinset.mp hx) with h | h | h
    · exact Finset.mem_union_left _ (Finset.mem_union_left _ h)
    · exact Finset.mem_union_left _ (Finset.mem_union_right _ h)
    · exact Finset.mem_union_right _ h
  have h1 := Finset.card_le_card hsub
  have h2 := Finset.card_union_le (D ∪ B) T
  have h3 := Finset.card_union_le D B
  omega

variable [disk : Layout]

def OfTable (ip : ℕ) (s : Sys) (x : ℕ) : Prop :=
  (s.cache ip).copy.addrs indirect ≠ 0 ∧
    (x = (s.cache ip).copy.addrs indirect ∨ x = BBLOCK ((s.cache ip).copy.addrs indirect))

/-- `D` has the data blocks of the record and `B` the blocks of the bitmap. -/
structure Counted (ip d n : ℕ) (r : Recorded) (D B : Finset ℕ) : Prop where
  zero : r.sys.used 0 = true
  data : D.card ≤ d
  bitmap : B.card ≤ n
  log : ∀ x ∈ r.log, x ∈ D ∨ x ∈ B ∨ OfTable ip r.sys x

variable {D B : Finset ℕ}

theorem Counted.mono {d' n' : ℕ} (h : Counted ip d n r D B) (hd : d ≤ d') (hn : n ≤ n') : Counted ip d' n' r D B :=
  ⟨h.zero,h.data.trans hd,h.bitmap.trans hn,h.log⟩

theorem Counted.covered (h : Counted ip d n r D B) : Covered d n r := by
  refine ⟨D,B,{(r.sys.cache ip).copy.addrs indirect,BBLOCK ((r.sys.cache ip).copy.addrs indirect)},h.data,h.bitmap,
    Finset.card_le_two,fun x hx => ?_⟩
  rcases h.log x hx with hD | hB | ⟨-,hT⟩
  · exact .inl hD
  · exact .inr (.inl hB)
  · exact .inr (.inr (by simpa using hT))

end Counting

theorem rest_fits {off k : ℕ} {src : List UInt8} (hk : src ≠ [] → off%BSIZE+src.length ≤ 512*(k+1)) :
    src.drop (min src.length (BSIZE-off%BSIZE)) ≠ [] → (off+min src.length (BSIZE-off%BSIZE))%BSIZE+
      (src.drop (min src.length (BSIZE-off%BSIZE))).length ≤ 512*k := by
  intro hne
  have hB := BSIZE_eq
  have hmod : off%BSIZE < 512 := Nat.mod_lt _ (by decide)
  have hdiv : 512*(off/BSIZE)+off%BSIZE = off := Nat.div_add_mod off 512
  have hpos := List.length_pos_iff.mpr hne
  rw [List.length_drop] at hpos ⊢
  have hk := hk (List.length_pos_iff.mp (by omega))
  have hmin : min src.length (BSIZE-off%BSIZE) = 512-off%BSIZE := by omega
  have hstart : (off+(512-off%BSIZE))%BSIZE = 0 := by
    have hnext : off+(512-off%BSIZE) = 512*(off/BSIZE+1) := by omega
    rw [hnext]
    exact Nat.mul_mod_right 512 _
  rw [hmin,hstart]
  omega

section Blocks
variable [disk : Layout]

theorem logged_bread (b : ℕ) (r : Recorded) :
    Logged.bread b r = if disk.limit ≤ b then .error .incorrectBlockno r else .ok (r.sys.block b) r := by
  unfold Logged.bread
  split <;> rfl

theorem logged_bwrite (b : ℕ) (f : Block → Block) (r : Recorded) :
    Logged.bwrite b f r = if disk.limit ≤ b then .error .incorrectBlockno r else
      .ok () ⟨{ r.sys with block := Function.update r.sys.block b (f (r.sys.block b)) },r.log ++ [b]⟩ := by
  unfold Logged.bwrite
  by_cases hb : disk.limit ≤ b
  · rw [if_pos hb,bind_of_error ((logged_bread b r).trans (if_pos hb))]
  · rw [if_neg hb,bind_of_ok ((logged_bread b r).trans (if_neg hb))]
    rfl

theorem logged_balloc {b : ℕ} (hfind : ((List.range disk.size).find? fun b => !r.sys.used b) = some b) :
    Logged.balloc r = (do
      Logged.bwrite b fun _ => zeros
      pure b) ⟨{ r.sys with used := Function.update r.sys.used b true },r.log ++ [BBLOCK b]⟩ := by
  unfold Logged.balloc
  rw [bind_of_ok (get_apply r),hfind]
  rfl

theorem balloc_logged (hzero : r.sys.used 0 = true) :
    (∃ b r', Logged.balloc r = .ok b r' ∧ b ≠ 0 ∧ r'.log = r.log ++ [BBLOCK b,b] ∧ r'.sys.cache = r.sys.cache ∧
      r'.sys.used 0 = true) ∨
    ∃ e r', Logged.balloc r = .error e r' ∧ (r'.log = r.log ∨ ∃ b, r'.log = r.log ++ [BBLOCK b]) := by
  cases hfind : (List.range disk.size).find? fun b => !r.sys.used b with
  | none =>
    refine .inr ⟨.ballocOutOfBlocks,r,?_,.inl rfl⟩
    unfold Logged.balloc
    rw [bind_of_ok (get_apply r),hfind]
    rfl
  | some b =>
    have hfree : r.sys.used b = false := by simpa using List.find?_some hfind
    have hb : b ≠ 0 := by
      rintro rfl
      rw [hzero] at hfree
      cases hfree
    rw [logged_balloc hfind,bind_apply,logged_bwrite]
    by_cases hb' : disk.limit ≤ b
    · rw [if_pos hb']
      exact .inr ⟨_,_,rfl,.inr ⟨b,rfl⟩⟩
    · rw [if_neg hb']
      refine .inl ⟨b,_,rfl,hb,List.append_assoc _ _ _,rfl,?_⟩
      dsimp only
      rwa [update_of_ne hb.symm]

section Steps
variable {D B : Finset ℕ}

theorem Counted.grow {b : ℕ} (h : Counted ip d n r D B) (hlog : r'.log = r.log ++ [BBLOCK b,b])
    (htable : (r'.sys.cache ip).copy.addrs indirect = (r.sys.cache ip).copy.addrs indirect)
    (hzero : r'.sys.used 0 = true) : Counted ip (d+1) (n+1) r' (insert b D) (insert (BBLOCK b) B) := by
  refine ⟨hzero,(Finset.card_insert_le _ _).trans (Nat.succ_le_succ h.data),
    (Finset.card_insert_le _ _).trans (Nat.succ_le_succ h.bitmap),fun x hx => ?_⟩
  rw [hlog,List.mem_append,List.mem_cons,List.mem_singleton] at hx
  rcases hx with hx | rfl | rfl
  · rcases h.log x hx with hD | hB | hT
    · exact .inl (Finset.mem_insert_of_mem hD)
    · exact .inr (.inl (Finset.mem_insert_of_mem hB))
    · refine .inr (.inr ?_)
      unfold OfTable at hT ⊢
      rwa [htable]
  · exact .inr (.inl (Finset.mem_insert_self _ _))
  · exact .inl (Finset.mem_insert_self _ _)

theorem Counted.again (h : Counted ip d n r D B) (hlog : r'.log = r.log ++ [a])
    (ha : a ∈ D ∨ a ∈ B ∨ OfTable ip r.sys a) (hcache : r'.sys.cache = r.sys.cache) (hused : r'.sys.used = r.sys.used) :
    Counted ip d n r' D B := by
  refine ⟨by rw [hused]; exact h.zero,h.data,h.bitmap,fun x hx => ?_⟩
  unfold OfTable
  rw [hcache]
  rw [hlog,List.mem_append,List.mem_singleton] at hx
  rcases hx with hx | rfl
  · exact h.log x hx
  · exact ha

def CountedAt (ip d n a : ℕ) (r : Recorded) : Prop := ∃ D B, Counted ip d n r D B ∧ a ∈ D

theorem CountedAt.mono {d' n' : ℕ} (h : CountedAt ip d n a r) (hd : d ≤ d') (hn : n ≤ n') : CountedAt ip d' n' a r := by
  obtain ⟨D,B,hcount,ha⟩ := h
  exact ⟨D,B,hcount.mono hd hn,ha⟩

theorem Counted.hit (h : Counted ip d n r D B) (a : ℕ) : CountedAt ip (d+1) n a r := by
  refine ⟨insert a D,B,⟨h.zero,(Finset.card_insert_le _ _).trans (Nat.succ_le_succ h.data),h.bitmap,fun x hx => ?_⟩,
    Finset.mem_insert_self _ _⟩
  exact (h.log x hx).imp_left (Finset.mem_insert_of_mem ·)

theorem Covered.balloc_error {r' : Recorded} (h : Covered d n r)
    (hlog : r'.log = r.log ∨ ∃ b, r'.log = r.log ++ [BBLOCK b]) : Covered (d+1) (n+1) r' := by
  rcases hlog with hlog | ⟨b,hlog⟩
  · have hsame : Covered d n r' := by
      unfold Covered
      rw [hlog]
      exact h
    exact hsame.mono (Nat.le_succ d) (Nat.le_succ n)
  · exact (h.bit hlog).mono (Nat.le_succ d) (Nat.le_refl _)

abbrev Start (ip d n : ℕ) (r : Recorded) : Prop := ∃ D B, Counted ip d n r D B

theorem mapAddr_spec {k : Fin (NDIRECT+1)} (hk : k ≠ indirect) :
    Spec (Start ip d n) (Logged.mapAddr ip k) (CountedAt ip (d+1) (n+1)) fun _ => Covered (d+1) (n+1) := by
  rintro r ⟨D,B,h⟩
  unfold Logged.mapAddr
  rw [bind_of_ok (get_apply r)]
  by_cases hzero : (r.sys.cache ip).copy.addrs k = 0
  · rw [if_pos hzero]
    rcases balloc_logged h.zero with ⟨b,r₁,hrun,hb,hlog,hcache,hused⟩ | ⟨e,r₁,hrun,hlog⟩
    · rw [bind_of_ok hrun]
      refine ⟨insert b D,insert (BBLOCK b) B,h.grow hlog ?_ hused,Finset.mem_insert_self _ _⟩
      rw [← hcache]
      change (update r₁.sys.cache ip _ ip).copy.addrs indirect = _
      rw [update_self]
      exact update_of_ne hk.symm ..
    · rw [bind_of_error hrun]
      exact h.covered.balloc_error hlog
  · rw [if_neg hzero]
    exact (h.hit _).mono (Nat.le_refl _) (Nat.le_succ n)

theorem mapAddr_table : Spec (Start ip d n) (Logged.mapAddr ip indirect)
    (fun a r => Start ip d n r ∧ a = (r.sys.cache ip).copy.addrs indirect ∧ a ≠ 0) fun _ => Covered (d+1) (n+1) := by
  rintro r ⟨D,B,h⟩
  unfold Logged.mapAddr
  rw [bind_of_ok (get_apply r)]
  by_cases hzero : (r.sys.cache ip).copy.addrs indirect = 0
  · rw [if_pos hzero]
    rcases balloc_logged h.zero with ⟨b,r₁,hrun,hb,hlog,hcache,hused⟩ | ⟨e,r₁,hrun,hlog⟩
    · rw [bind_of_ok hrun]
      have htable : (update r₁.sys.cache ip { r₁.sys.cache ip with
          copy := setAddr indirect b (r₁.sys.cache ip).copy } ip).copy.addrs indirect = b := by
        rw [update_self]
        change update (r₁.sys.cache ip).copy.addrs indirect b indirect = b
        rw [update_self]
      refine ⟨⟨D,B,hused,h.data,h.bitmap,fun x hx => ?_⟩,htable.symm,hb⟩
      change x ∈ r₁.log at hx
      rw [hlog,List.mem_append,List.mem_cons,List.mem_singleton] at hx
      have hof : x = b ∨ x = BBLOCK b → OfTable ip { r₁.sys with
          cache := update r₁.sys.cache ip { r₁.sys.cache ip with
            copy := setAddr indirect b (r₁.sys.cache ip).copy } } x := by
        intro hx
        unfold OfTable
        dsimp only
        rw [htable]
        exact ⟨hb,hx⟩
      rcases hx with hx | hx | hx
      · rcases h.log x hx with hD | hB | hT
        · exact .inl hD
        · exact .inr (.inl hB)
        · exact absurd hzero hT.1
      · exact .inr (.inr (hof (.inr hx)))
      · exact .inr (.inr (hof (.inl hx)))
    · rw [bind_of_error hrun]
      exact h.covered.balloc_error hlog
  · rw [if_neg hzero]
    exact ⟨⟨D,B,h⟩,rfl,hzero⟩

theorem mapWord_spec (j : ℕ) : Spec (fun r => Start ip d n r ∧ a = (r.sys.cache ip).copy.addrs indirect ∧ a ≠ 0)
    (Logged.mapWord a j) (CountedAt ip (d+1) (n+1)) fun _ => Covered (d+1) (n+1) := by
  rintro r ⟨⟨D,B,h⟩,ha,hne⟩
  unfold Logged.mapWord
  rw [bind_apply,logged_bread]
  by_cases hlimit : disk.limit ≤ a
  · rw [if_pos hlimit]
    exact h.covered.mono (Nat.le_succ d) (Nat.le_succ n)
  · rw [if_neg hlimit]
    by_cases hzero : word (r.sys.block a) j = 0
    · dsimp only
      rw [if_pos hzero]
      rcases balloc_logged h.zero with ⟨b,r₁,hrun,hb,hlog,hcache,hused⟩ | ⟨e,r₁,hrun,hlog⟩
      · have hgrow := h.grow hlog (by rw [hcache]) hused
        rw [bind_of_ok hrun,bind_apply,logged_bwrite,if_neg hlimit]
        refine ⟨insert b D,insert (BBLOCK b) B,hgrow.again rfl (.inr (.inr ?_)) rfl rfl,Finset.mem_insert_self _ _⟩
        unfold OfTable
        rw [hcache,← ha]
        exact ⟨hne,.inl rfl⟩
      · rw [bind_of_error hrun]
        exact h.covered.balloc_error hlog
    · dsimp only
      rw [if_neg hzero]
      exact (h.hit _).mono (Nat.le_refl _) (Nat.le_succ n)

theorem bmap_spec (bn : ℕ) :
    Spec (Start ip d n) (Logged.bmap ip bn) (CountedAt ip (d+1) (n+1)) fun _ => Covered (d+1) (n+1) := by
  unfold Logged.bmap
  split
  · rename_i hbn
    refine mapAddr_spec fun he => ?_
    have hval := congrArg Fin.val he
    simp only [indirect,Fin.val_last] at hval
    omega
  · split
    · exact mapAddr_table.bind fun a => mapWord_spec _
    · rintro r ⟨D,B,h⟩
      exact h.covered.mono (Nat.le_succ d) (Nat.le_succ n)

theorem bwrite_spec (f : Block → Block) :
    Spec (CountedAt ip d n a) (Logged.bwrite a f) (fun _ => Start ip d n) fun _ => Covered d n := by
  rintro r ⟨D,B,h,ha⟩
  rw [logged_bwrite]
  by_cases hlimit : disk.limit ≤ a
  · rw [if_pos hlimit]
    exact h.covered
  · rw [if_neg hlimit]
    exact ⟨D,B,h.again rfl (.inl ha) rfl rfl⟩

theorem round_spec {P : Recorded → Prop} {fuel off k : ℕ} {src : List UInt8} (hnil : src ≠ [])
    (hmap : Spec P (Logged.bmap ip (off/BSIZE)) (CountedAt ip d n) fun _ => Covered d n)
    (hrest : Spec (Start ip d n) (Logged.writeBlocks ip fuel (off+min src.length (BSIZE-off%BSIZE))
        (src.drop (min src.length (BSIZE-off%BSIZE)))) (fun _ => Start ip (d+k) (n+k)) fun _ => Covered (d+k) (n+k)) :
    Spec P (Logged.writeBlocks ip (fuel+1) off src) (fun _ => Start ip (d+k) (n+k)) fun _ => Covered (d+k) (n+k) := by
  have hlater : ∀ (e : Stop) (r : Recorded), Covered d n r → Covered (d+k) (n+k) r :=
    fun _ _ h => h.mono (Nat.le_add_right d k) (Nat.le_add_right n k)
  unfold Logged.writeBlocks
  rw [if_neg hnil]
  refine Spec.bind (hmap.weaken (fun _ h => h) (fun _ _ h => h) hlater) fun a => ?_
  refine Spec.bind ((bwrite_spec _).weaken (fun _ h => h) (fun _ _ h => h) hlater) fun _ => ?_
  exact hrest

theorem writeBlocks_spec {fuel off k : ℕ} {src : List UInt8} (hk : src ≠ [] → off%BSIZE+src.length ≤ 512*k) :
    Spec (Start ip d n) (Logged.writeBlocks ip fuel off src) (fun _ => Start ip (d+k) (n+k)) fun _ => Covered (d+k) (n+k) := by
  induction fuel generalizing off src d n k with
  | zero =>
    rintro r ⟨D,B,h⟩
    exact ⟨D,B,h.mono (Nat.le_add_right d k) (Nat.le_add_right n k)⟩
  | succ fuel ih =>
    by_cases hnil : src = []
    · rw [Logged.writeBlocks,if_pos hnil]
      rintro r ⟨D,B,h⟩
      exact ⟨D,B,h.mono (Nat.le_add_right d k) (Nat.le_add_right n k)⟩
    · have hlen : 0 < src.length := List.length_pos_iff.mpr hnil
      obtain ⟨k,rfl⟩ : ∃ j, k = j+1 := ⟨k-1,by have := hk hnil; omega⟩
      rw [← Nat.add_assoc d,← Nat.add_assoc n,Nat.add_right_comm d,Nat.add_right_comm n]
      exact round_spec hnil (bmap_spec _) (ih (rest_fits hk))

theorem logged_bmap_hit {bn : ℕ} (hmax : bn < MAXFILE) (hne : blockAt r.sys.block (r.sys.cache ip).copy bn ≠ 0) :
    (∃ a, Logged.bmap ip bn r = .ok a r) ∨ ∃ e, Logged.bmap ip bn r = .error e r := by
  have hfile : MAXFILE = NDIRECT+NINDIRECT := rfl
  have hget : ∀ k, (r.sys.cache ip).copy.addrs k ≠ 0 → Logged.mapAddr ip k r = .ok ((r.sys.cache ip).copy.addrs k) r := by
    intro k hk
    unfold Logged.mapAddr
    rw [bind_of_ok (get_apply r),if_neg hk]
    rfl
  unfold Logged.bmap
  by_cases hbn : bn < NDIRECT
  · rw [dif_pos hbn]
    rw [blockAt,spotOf_own hbn] at hne
    exact .inl ⟨_,hget _ hne⟩
  · rw [dif_neg hbn,if_pos (by omega)]
    rw [blockAt,spotOf_entry hbn,addrAt] at hne
    have ha : (r.sys.cache ip).copy.addrs indirect ≠ 0 := fun hz => hne (if_pos hz)
    rw [if_neg ha] at hne
    rw [bind_of_ok (hget _ ha)]
    unfold Logged.mapWord
    rw [bind_apply,logged_bread]
    by_cases hlimit : disk.limit ≤ (r.sys.cache ip).copy.addrs indirect
    · rw [if_pos hlimit]
      exact .inr ⟨_,rfl⟩
    · rw [if_neg hlimit]
      dsimp only
      rw [if_neg hne]
      exact .inl ⟨_,rfl⟩

def Present (ip d n bn : ℕ) (r : Recorded) : Prop := Start ip d n r ∧ blockAt r.sys.block (r.sys.cache ip).copy bn ≠ 0

theorem bmap_present {bn : ℕ} (hmax : bn < MAXFILE) :
    Spec (Present ip d n bn) (Logged.bmap ip bn) (CountedAt ip (d+1) n) fun _ => Covered (d+1) n := by
  rintro r ⟨⟨D,B,h⟩,hne⟩
  rcases logged_bmap_hit hmax hne with ⟨a,hrun⟩ | ⟨e,hrun⟩
  · rw [hrun]
    exact h.hit a
  · rw [hrun]
    exact h.covered.mono (Nat.le_succ d) (Nat.le_refl n)

/-- A loop that starts in a block that the file has: the first round adds no bit. -/
theorem writeBlocks_present {fuel off k : ℕ} {src : List UInt8} (hmax : off/BSIZE < MAXFILE)
    (hk : src ≠ [] → off%BSIZE+src.length ≤ 512*(k+1)) :
    Spec (Present ip d n (off/BSIZE)) (Logged.writeBlocks ip fuel off src) (fun _ => Start ip (d+1+k) (n+k))
      fun _ => Covered (d+1+k) (n+k) := by
  have hstay : Spec (Present ip d n (off/BSIZE)) (pure () : LogM Unit) (fun _ => Start ip (d+1+k) (n+k))
      fun _ => Covered (d+1+k) (n+k) := by
    rintro r ⟨⟨D,B,h⟩,-⟩
    exact ⟨D,B,h.mono (by omega) (by omega)⟩
  cases fuel with
  | zero => exact hstay
  | succ fuel =>
    by_cases hnil : src = []
    · rw [Logged.writeBlocks,if_pos hnil]
      exact hstay
    · exact round_spec hnil (bmap_present hmax) (writeBlocks_spec (rest_fits hk))

end Steps
end Blocks

section Chunk
variable {α : Type} {m off : ℕ} {src : List UInt8} {f : FileNo} {s : Sys}

def Logs (m : ℕ) (r : Recorded) : Prop := r.log.toFinset.card ≤ m

theorem logs_nil (m : ℕ) (hlog : r.log = []) : Logs m r := by
  rw [Logs,hlog]
  exact Nat.zero_le m

theorem unlogged_spec (x : FsM α) : Spec (Logs m) (unlogged x) (fun _ => Logs m) fun _ => Logs m := by
  intro r h
  unfold unlogged
  cases x r.sys with
  | ok a s => exact h
  | error e s => exact h

variable [disk : Layout]

theorem store_spec (f : Dinode → Dinode) :
    Spec (Covered d n) (Logged.store ip f) (fun _ => Logs (d+n+3)) fun _ => Logs (d+n+3) := by
  intro r h
  change (r.log ++ [IBLOCK ip]).toFinset.card ≤ d+n+3
  have hcard := h.card_le
  have hlast := Finset.card_union_le r.log.toFinset [IBLOCK ip].toFinset
  have hone : [IBLOCK ip].toFinset.card = 1 := rfl
  rw [List.toFinset_append]
  omega

/-- A buffer of at most three blocks of bytes touches three blocks, or a block that the file has and three more. -/
theorem writeBlocks_chunk (fuel off : ℕ) (hlog : r.log = []) (hzero : r.sys.used 0 = true)
    (hholes : ∀ bn, bn*BSIZE < (r.sys.cache ip).copy.size → blockAt r.sys.block (r.sys.cache ip).copy bn ≠ 0)
    (hoff : off ≤ (r.sys.cache ip).copy.size) (hmax : off+src.length ≤ MAXFILE*BSIZE) (hlen : src.length ≤ maxWrite) :
    Spec (· = r) (Logged.writeBlocks ip fuel off src) (fun _ => Covered 4 3) fun _ => Covered 4 3 := by
  have hstart : Start ip 0 0 r := ⟨∅,∅,hzero,Nat.le_refl 0,Nat.le_refl 0,by rw [hlog]; nofun⟩
  have hwrite : maxWrite = 1536 := rfl
  have hfile : MAXFILE*BSIZE = 512*MAXFILE := rfl
  have hmod : off%BSIZE < 512 := Nat.mod_lt _ (by decide)
  have hdiv : 512*(off/BSIZE)+off%BSIZE = off := Nat.div_add_mod off 512
  by_cases haligned : off%BSIZE = 0
  · refine (writeBlocks_spec (k := 3) fun _ => by omega).weaken (fun r' he => he ▸ hstart) (fun _ r' h => ?_)
      fun _ _ h => h.mono (by decide) (by decide)
    obtain ⟨D,B,h⟩ := h
    exact h.covered.mono (by decide) (by decide)
  · have hhere : blockAt r.sys.block (r.sys.cache ip).copy (off/BSIZE) ≠ 0 := by
      refine hholes _ ?_
      change off/BSIZE*512 < _
      omega
    refine (writeBlocks_present (k := 3) (by omega) fun _ => by omega).weaken (fun r' he => he ▸ ⟨hstart,hhere⟩)
      (fun _ r' h => ?_) fun _ _ h => h
    obtain ⟨D,B,h⟩ := h
    exact h.covered

theorem writei_logs (hlog : r.log = []) (hzero : r.sys.used 0 = true)
    (hholes : ∀ bn, bn*BSIZE < (r.sys.cache ip).copy.size → blockAt r.sys.block (r.sys.cache ip).copy bn ≠ 0)
    (hlen : src.length ≤ maxWrite) :
    Spec (· = r) (Logged.writei ip src off) (fun _ => Logs MAXOPBLOCKS) fun _ => Logs MAXOPBLOCKS := by
  rintro r' rfl
  unfold Logged.writei
  rw [bind_of_ok (get_apply r')]
  have hnone : ∀ a, Spec (· = r') (pure a : LogM (Option ℕ)) (fun _ => Logs MAXOPBLOCKS) fun _ => Logs MAXOPBLOCKS :=
    fun a => Spec.pure fun _ he => he ▸ logs_nil _ hlog
  by_cases hdev : (r'.sys.cache ip).copy.type = .dev
  · rw [if_pos hdev]
    by_cases hdriver : hasDriver (r'.sys.cache ip).copy = true
    · rw [if_pos hdriver]
      exact hnone (some src.length) r' rfl
    · rw [if_neg hdriver]
      exact hnone none r' rfl
  · rw [if_neg hdev]
    by_cases hbad : (r'.sys.cache ip).copy.size < off ∨ (off+src.length)%2^32 < off
    · rw [if_pos hbad]
      exact hnone none r' rfl
    · rw [if_neg hbad]
      by_cases hbig : MAXFILE*BSIZE < off+src.length
      · rw [if_pos hbig]
        exact hnone none r' rfl
      · rw [if_neg hbig]
        have hblocks := writeBlocks_chunk src.length off hlog hzero hholes (by omega) (by omega) hlen
        have hsize (c : Prop) [Decidable c] (f : Dinode → Dinode) : Spec (Covered 4 3) (Logged.onlyIf c (Logged.store ip f))
            (fun _ => Logs MAXOPBLOCKS) fun _ => Logs MAXOPBLOCKS := by
          unfold Logged.onlyIf
          split
          · exact store_spec f
          · exact Spec.pure fun _ h => h.card_le.trans (by decide)
        refine Spec.bind (P := (· = r')) (E := fun _ => Logs MAXOPBLOCKS) (Q := fun _ => Logs MAXOPBLOCKS)
          (R := fun _ => Covered 4 3) ?_ (fun _ => ?_) r' rfl
        · exact hblocks.weaken (fun _ h => h) (fun _ _ h => h) fun _ _ h => h.card_le.trans (by decide)
        · exact (hsize _ _).bind fun _ => Spec.pure fun _ h => h

theorem erases_writeChunk (hlimit : disk.limit = FSSIZE) (f : FileNo) (ip : ℕ) (src : List UInt8) :
    Erases (Logged.writeChunk f ip src) (writeChunk f ip src) := by
  refine (Erases.unlogged _).bind fun _ => .get fun r => (erases_writei hlimit _ _ _).bind fun a => ?_
  exact (Erases.unlogged _).bind fun _ => (Erases.unlogged _).bind fun _ => .pure a

def logOf : EStateM.Result Stop Recorded α → List ℕ
  | .ok _ r => r.log
  | .error _ r => r.log

/-- A round of the loop of `filewrite` or `overwrite_file` on a file without holes logs at most as many blocks
as its transaction has reserved, whatever the layout of the disk is and however the round ends. -/
theorem writeChunk_fits (f : FileNo) (s : Sys) (hzero : s.used 0 = true)
    (hholes : ∀ bn, bn*BSIZE < (s.inode ip).size → blockAt s.block (s.inode ip) bn ≠ 0) (hlen : src.length ≤ maxWrite) :
    (logOf (Logged.writeChunk f ip src ⟨s,[]⟩)).toFinset.card ≤ MAXOPBLOCKS := by
  have hrun : Spec (· = ⟨s,[]⟩) (Logged.writeChunk f ip src) (fun _ => Logs MAXOPBLOCKS) fun _ => Logs MAXOPBLOCKS := by
    rintro r rfl
    unfold Logged.writeChunk
    rcases ilock_cases ip s with ⟨hlock,-⟩ | ⟨e,hlock⟩
    · have hfirst : unlogged (ilock ip) ⟨s,[]⟩ = .ok () ⟨s.lock ip,[]⟩ := by rw [unlogged,hlock]
      have hcopy : ((s.lock ip).cache ip).copy = s.inode ip := by rw [s.lock_self]
      rw [bind_of_ok hfirst,bind_of_ok (get_apply _)]
      refine Spec.bind (P := (· = ⟨s.lock ip,[]⟩)) (E := fun _ => Logs MAXOPBLOCKS) (Q := fun _ => Logs MAXOPBLOCKS)
        (R := fun _ => Logs MAXOPBLOCKS) ?_ (fun a => ?_) _ rfl
      · exact writei_logs rfl hzero (by rw [hcopy]; exact hholes) hlen
      · exact (unlogged_spec _).bind fun _ => (unlogged_spec _).bind fun _ => Spec.pure fun _ h => h
    · have hfirst : unlogged (ilock ip) ⟨s,[]⟩ = .error e ⟨s,[]⟩ := by rw [unlogged,hlock]
      rw [bind_of_error hfirst]
      exact logs_nil _ rfl
  cases hout : Logged.writeChunk f ip src ⟨s,[]⟩ with
  | ok a r => exact hrun.ok rfl hout
  | error e r => exact hrun.error rfl hout

end Chunk

section Instances

@[reducible] def smallLayout : Layout := { smallDisk with inodestart := 2, bmapstart := 3, limit := FSSIZE }

theorem writeChunk_fits_oneFile : ∃ (_ : Layout), oneFile.used 0 = true ∧
    (logOf (Logged.writeChunk 0 2 [1,2,3] ⟨oneFile,[]⟩)).toFinset.card ≤ MAXOPBLOCKS := by
  let := smallLayout
  refine ⟨smallLayout,rfl,writeChunk_fits 0 oneFile rfl (fun bn hbn => ?_) (by decide)⟩
  rw [size_oneFile] at hbn
  omega

end Instances
end Xv6.Fs
