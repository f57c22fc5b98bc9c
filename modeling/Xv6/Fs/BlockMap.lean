import Xv6.Fs.Volume

/-! # Finding the block of a file

`bmap` finds the address of a block of a file, or hands out a free block for it, and one more for the
addresses where the file has outgrown its inode. It fails only when the disk is full.
-/
namespace Xv6.Fs
open ByteField Ownership Program Function
variable [sb : Superblock] {s s' s'' : Sys} {ip b : ℕ} {p : Spot}

abbrev Sys.Consistent (s : Sys) : Prop := Fs.Consistent s.block s.inode s.used

section Steps

/-- A new block has been put at a spot of the file, and no contents have changed. -/
structure Handed (ip : ℕ) (p : Spot) (b : ℕ) (s s' : Sys) : Prop where
  consistent : s'.Consistent
  cached : s'.Cached ip
  self : ∃ a, s'.inode = Function.update s.inode ip { s.inode ip with addrs := a }
  bytes : ∀ j, (s.inode j).type ≠ .free → byteOf s'.block (s'.inode j) = byteOf s.block (s.inode j)
  addrs : addrAt s'.block (s'.inode ip) = Function.update (addrAt s.block (s.inode ip)) p b
  fresh : b ≠ 0
  left : free s'.used+1 = free s.used

theorem balloc_cases (h : s.Consistent) :
    (∃ b, balloc s = .ok b { s with used := Function.update s.used b true, block := Function.update s.block b zeros } ∧
      s.used b = false ∧ b < sb.size) ∨
    balloc s = .error .ballocOutOfBlocks s ∧ free s.used = 0 := by
  cases hfind : (List.range sb.size).find? fun b => !s.used b with
  | none =>
    refine .inr ⟨?_,?_⟩
    · unfold balloc
      rw [bind_of_ok (get_apply s),hfind]
      rfl
    · refine Finset.card_eq_zero.mpr (Finset.filter_eq_empty_iff.mpr fun b hb => ?_)
      have hused := List.find?_eq_none.mp hfind b (List.mem_range.mpr (Finset.mem_range.mp hb))
      simpa using hused
  | some b =>
    have hlt : b < sb.size := List.mem_range.mp (List.mem_of_find?_eq_some hfind)
    have hfree : s.used b = false := by simpa using List.find?_some hfind
    have hlimit := h.limit
    refine .inl ⟨b,?_,hfree,hlt⟩
    unfold balloc
    rw [bind_of_ok (get_apply s),hfind]
    dsimp only
    unfold bzero bwrite
    rw [if_neg (by omega)]
    rfl

variable (h : s.Consistent) (htype : (s.inode ip).type ≠ .free)
include h htype

theorem handed_of_slots (hslot : slotAddr s'.block s'.inode = Function.update (slotAddr s.block s.inode) (ip,p) b)
    (hempty : addrAt s.block (s.inode ip) p = 0) (hb : s.used b = false) (hlt : b < sb.size)
    (hused : s'.used = Function.update s.used b true) (hcached' : s'.Cached ip)
    (hself : ∃ a, s'.inode = Function.update s.inode ip { s.inode ip with addrs := a }) (hzero : s'.block b = zeros)
    (hdata : ∀ c, c ≠ b → c ≠ (s.inode ip).addrs indirect → s'.block c = s.block c) : Handed ip p b s s' := by
  obtain ⟨a,hself⟩ := hself
  have hsame : ∀ j, (s'.inode j).type = (s.inode j).type ∧ (s'.inode j).size = (s.inode j).size := by
    intro j
    rw [hself]
    by_cases hj : j = ip
    · rw [hj,update_self]
      exact ⟨rfl,rfl⟩
    · rw [update_of_ne hj]
      exact ⟨rfl,rfl⟩
  have hx : slotAddr s.block s.inode (ip,p) = 0 := (slotAddr_of_type htype p).trans hempty
  refine ⟨?_,hcached',⟨a,hself⟩,fun j hj => ?_,?_,h.fresh_ne hb,?_⟩
  · unfold Sys.Consistent
    rw [hused]
    exact h.assign hslot hx hb hlt (fun j => (hsame j).1) fun j => (hsame j).2
  · funext n
    refine byteOf_assign hslot hx hzero (hsame j).1 hj (fun bn hne => hdata _ ?_ (data_ne h.owned hj hne htype).symm) n
    exact fun he => h.unnamed hb (j,spotOf bn) ((slotAddr_of_type hj _).trans he)
  · funext q
    have hq := congrFun hslot (ip,q)
    rw [slotAddr_of_type (by rw [(hsame ip).1]; exact htype)] at hq
    rw [hq]
    by_cases hqp : q = p
    · rw [hqp,update_self,update_self]
    · rw [update_of_ne hqp,update_of_ne fun he => hqp (Prod.ext_iff.mp he).2,slotAddr_of_type htype]
  · rw [hused]
    exact free_update hb hlt

variable (hcached : s.Cached ip)
include hcached

theorem handed_own {k : Fin (NDIRECT+1)} (hk : (s.inode ip).addrs k = 0) (hb : s.used b = false) (hlt : b < sb.size)
    (hused : s'.used = Function.update s.used b true) (hblock : s'.block = Function.update s.block b zeros)
    (hcache : s'.cache = Function.update s.cache ip { s.cache ip with copy := setAddr k b (s.inode ip) })
    (hdinode : s'.dinode = s.dinode) : Handed ip (.own k) b s s' := by
  have hino := hcached.inode_update hcache fun j _ => congrFun hdinode j
  have hunnamed : ∀ x, slotAddr s.block s.inode x = b → b = 0 := fun x hx => absurd hx (h.unnamed hb x)
  have hslot : slotAddr s'.block s'.inode = update (slotAddr s.block s.inode) (ip,.own k) b := by
    rw [hino,hblock,slotAddr_setAddr htype fun _ => ⟨hk,fun _ => update_self ..⟩,slotAddr_update_unnamed hunnamed]
  refine handed_of_slots h htype hslot hk hb hlt hused (hcached.update hcache) ⟨_,hino⟩ ?_ fun c hcb _ => ?_
  · rw [hblock,update_self]
  · rw [hblock,update_of_ne hcb]

theorem handed_entry {k : ℕ} (ha : (s.inode ip).addrs indirect ≠ 0) (hk : k < NINDIRECT)
    (hempty : word (s.block ((s.inode ip).addrs indirect)) k = 0) (hb : s.used b = false) (hlt : b < sb.size)
    (hused : s'.used = Function.update s.used b true)
    (hblock : s'.block = Function.update (Function.update s.block b zeros) ((s.inode ip).addrs indirect)
      (setWord (s.block ((s.inode ip).addrs indirect)) k b))
    (hcache : s'.cache = s.cache) (hdinode : s'.dinode = s.dinode) : Handed ip (.entry k) b s s' := by
  have hino : s'.inode = s.inode := by
    funext j
    unfold Sys.inode
    rw [hcache,hdinode]
  have hne : (s.inode ip).addrs indirect ≠ b := fun he => h.unnamed hb (ip,.own indirect) ((slotAddr_of_type htype _).trans he)
  have hunnamed : ∀ x, slotAddr s.block s.inode x = b → b = 0 := fun x hx => absurd hx (h.unnamed hb x)
  have hslot₀ := slotAddr_update_unnamed (v := zeros) hunnamed
  have hlimit := h.limit
  have hbound : b < 2^32 := by
    have := FSSIZE_eq
    omega
  have hslot : slotAddr s'.block s'.inode = update (slotAddr s.block s.inode) (ip,.entry k) b := by
    have howned := h.owned
    rw [← hslot₀] at howned
    have hset := slotAddr_setWord howned htype ha hk hbound
    rw [update_of_ne hne] at hset
    rw [hino,hblock,hset,hslot₀]
  refine handed_of_slots h htype hslot ?_ hb hlt hused ⟨by rw [hcache]; exact hcached.ref,by rw [hcache]; exact hcached.valid⟩
    ⟨_,by rw [hino,update_eq_self]⟩ ?_ fun c hcb hca => ?_
  · rw [addrAt,if_neg ha,hempty]
  · rw [hblock,update_of_ne hne.symm,update_self]
  · rw [hblock,update_of_ne hca,update_of_ne hcb]

theorem mapAddr_cases (k : Fin (NDIRECT+1)) :
    ((s.inode ip).addrs k ≠ 0 ∧ mapAddr ip k s = .ok ((s.inode ip).addrs k) s) ∨
    (s.inode ip).addrs k = 0 ∧
      ((∃ b s', mapAddr ip k s = .ok b s' ∧ Handed ip (.own k) b s s') ∨
        ∃ s', mapAddr ip k s = .error .ballocOutOfBlocks s' ∧ free s.used = 0) := by
  unfold mapAddr
  rw [bind_of_ok (get_apply s),← hcached.inode]
  by_cases hk : (s.inode ip).addrs k = 0
  · refine .inr ⟨hk,?_⟩
    rw [if_pos hk]
    rcases balloc_cases h with ⟨b,hrun,hb,hlt⟩ | ⟨hrun,hfull⟩
    · rw [bind_of_ok hrun]
      refine .inl ⟨b,_,rfl,handed_own h htype hcached hk hb hlt rfl rfl ?_ rfl⟩
      rw [hcached.inode]
    · rw [bind_of_error hrun]
      exact .inr ⟨s,rfl,hfull⟩
  · rw [if_neg hk]
    exact .inl ⟨hk,rfl⟩

theorem mapWord_cases (ha : (s.inode ip).addrs indirect ≠ 0) {k : ℕ} (hk : k < NINDIRECT) :
    (addrAt s.block (s.inode ip) (.entry k) ≠ 0 ∧
      mapWord ((s.inode ip).addrs indirect) k s = .ok (addrAt s.block (s.inode ip) (.entry k)) s) ∨
    addrAt s.block (s.inode ip) (.entry k) = 0 ∧
      ((∃ b s', mapWord ((s.inode ip).addrs indirect) k s = .ok b s' ∧ Handed ip (.entry k) b s s') ∨
        ∃ s', mapWord ((s.inode ip).addrs indirect) k s = .error .ballocOutOfBlocks s' ∧ free s.used = 0) := by
  have hword : addrAt s.block (s.inode ip) (.entry k) = word (s.block ((s.inode ip).addrs indirect)) k := if_neg ha
  have hlt : (s.inode ip).addrs indirect < FSSIZE := h.named_lt (p := .own indirect) htype ha
  have hread : bread ((s.inode ip).addrs indirect) s = .ok (s.block ((s.inode ip).addrs indirect)) s := by
    unfold bread
    rw [if_neg (by omega)]
    rfl
  unfold mapWord
  rw [bind_of_ok hread,hword]
  by_cases hzero : word (s.block ((s.inode ip).addrs indirect)) k = 0
  · refine .inr ⟨hzero,?_⟩
    rw [if_pos hzero]
    rcases balloc_cases h with ⟨b,hrun,hb,hblt⟩ | ⟨hrun,hfull⟩
    · have hne : (s.inode ip).addrs indirect ≠ b := fun he =>
        h.unnamed hb (ip,.own indirect) ((slotAddr_of_type htype _).trans he)
      rw [bind_of_ok hrun]
      unfold bwrite
      rw [if_neg (by omega)]
      refine .inl ⟨b,_,rfl,handed_entry h htype hcached ha hk hzero hb hblt rfl ?_ rfl rfl⟩
      dsimp only
      rw [update_of_ne hne]
    · rw [bind_of_error hrun]
      exact .inr ⟨s,rfl,hfull⟩
  · rw [if_neg hzero]
    exact .inl ⟨hzero,rfl⟩

end Steps

section Map

def cost (blk : ℕ → Block) (d : Dinode) (bn : ℕ) : ℕ :=
  (if blockAt blk d bn = 0 then 1 else 0)+if NDIRECT ≤ bn ∧ d.addrs indirect = 0 then 1 else 0

/-- `bmap` has found or allocated `b` for the block `bn`, and no contents have changed. -/
structure Mapped (ip bn b : ℕ) (s s' : Sys) : Prop where
  consistent : s'.Consistent
  cached : s'.Cached ip
  self : ∃ a, s'.inode = Function.update s.inode ip { s.inode ip with addrs := a }
  bytes : ∀ j, (s.inode j).type ≠ .free → byteOf s'.block (s'.inode j) = byteOf s.block (s.inode j)
  here : blockAt s'.block (s'.inode ip) bn = b
  found : b ≠ 0
  others : ∀ m, m ≠ bn ∨ blockAt s.block (s.inode ip) bn ≠ 0 →
    blockAt s'.block (s'.inode ip) m = blockAt s.block (s.inode ip) m
  table : (s'.inode ip).addrs indirect = 0 ↔ (s.inode ip).addrs indirect = 0 ∧ bn < NDIRECT
  left : free s'.used+cost s.block (s.inode ip) bn = free s.used

variable {bn : ℕ}

theorem Mapped.refl (h : s.Consistent) (hcached : s.Cached ip) (hb : blockAt s.block (s.inode ip) bn = b) (hne : b ≠ 0)
    (hindirect : NDIRECT ≤ bn → (s.inode ip).addrs indirect ≠ 0) : Mapped ip bn b s s := by
  refine ⟨h,hcached,⟨_,(update_eq_self _ _).symm⟩,fun _ _ => rfl,hb,hne,fun _ _ => rfl,⟨fun hz => ⟨hz,?_⟩,And.left⟩,?_⟩
  · by_contra hle
    exact hindirect (by omega) hz
  · rw [cost,if_neg (by rw [hb]; exact hne),if_neg fun hc => hindirect hc.1 hc.2]
    rfl

theorem Handed.mapped (h : Handed ip (spotOf bn) b s s') (hempty : blockAt s.block (s.inode ip) bn = 0)
    (hindirect : NDIRECT ≤ bn → (s.inode ip).addrs indirect ≠ 0) : Mapped ip bn b s s' := by
  have hfree := h.left
  refine ⟨h.consistent,h.cached,h.self,h.bytes,?_,h.fresh,fun m hm => ?_,?_,?_⟩
  · rw [blockAt,h.addrs,update_self]
  · have hne : m ≠ bn := hm.resolve_right fun hc => hc hempty
    rw [blockAt,h.addrs,update_of_ne fun he => hne (spotOf_injective he)]
    rfl
  · have hsame := congrFun h.addrs (.own indirect)
    rw [update_of_ne (spotOf_ne_indirect bn).symm] at hsame
    change (s'.inode ip).addrs _ = (s.inode ip).addrs _ at hsame
    rw [hsame]
    refine ⟨fun hz => ⟨hz,?_⟩,And.left⟩
    by_contra hle
    exact hindirect (by omega) hz
  · rw [cost,if_pos hempty,if_neg fun hc => hindirect hc.1 hc.2]
    omega

section Table
variable {c : ℕ} (h : Handed ip (.own indirect) c s s'')
include h

theorem Handed.table : (s''.inode ip).addrs indirect = c := by
  have hsame := congrFun h.addrs (.own indirect)
  rwa [update_self] at hsame

theorem Handed.type : (s''.inode ip).type = (s.inode ip).type := by
  obtain ⟨a,ha⟩ := h.self
  rw [ha,update_self]

theorem Handed.blockAt_eq (m : ℕ) : blockAt s''.block (s''.inode ip) m = blockAt s.block (s.inode ip) m := by
  rw [blockAt,h.addrs,update_of_ne (spotOf_ne_indirect m)]
  rfl

theorem Handed.cost_eq (hempty : (s.inode ip).addrs indirect = 0) (hbn : NDIRECT ≤ bn) :
    cost s.block (s.inode ip) bn = cost s''.block (s''.inode ip) bn+1 := by
  have hnow : ¬ (NDIRECT ≤ bn ∧ (s''.inode ip).addrs indirect = 0) := fun hz => h.fresh (h.table.symm.trans hz.2)
  have hthen : NDIRECT ≤ bn ∧ (s.inode ip).addrs indirect = 0 := ⟨hbn,hempty⟩
  rw [cost,cost,h.blockAt_eq,if_pos hthen,if_neg hnow]

/-- A block is handed out for the addresses, and then the block `bn` is found. -/
theorem Handed.trans (h' : Mapped ip bn b s'' s') (hempty : (s.inode ip).addrs indirect = 0) (hbn : NDIRECT ≤ bn) :
    Mapped ip bn b s s' := by
  obtain ⟨a,ha⟩ := h.self
  obtain ⟨a',ha'⟩ := h'.self
  have hleft := h.left
  have hleft' := h'.left
  have hcost := h.cost_eq hempty hbn
  refine ⟨h'.consistent,h'.cached,⟨a',by rw [ha',ha,update_idem,update_self]⟩,fun j hj => ?_,h'.here,
    h'.found,fun m hm => ?_,?_,by omega⟩
  · rw [h'.bytes j ?_,h.bytes j hj]
    rw [ha]
    by_cases hji : j = ip
    · rw [hji,update_self]
      rwa [hji] at hj
    · rwa [update_of_ne hji]
  · rw [h'.others m (by rwa [h.blockAt_eq]),h.blockAt_eq]
  · rw [h'.table,h.table]
    exact ⟨fun hz => absurd hz.1 h.fresh,fun hz => absurd hz.2 (by omega)⟩

end Table

theorem mapWord_mapped (h : s.Consistent) (htype : (s.inode ip).type ≠ .free) (hcached : s.Cached ip)
    (hbn : ¬ bn < NDIRECT) (hmax : bn < MAXFILE) (ha : (s.inode ip).addrs indirect ≠ 0) :
    (∃ b s', mapWord ((s.inode ip).addrs indirect) (bn-NDIRECT) s = .ok b s' ∧ Mapped ip bn b s s') ∨
    ∃ s', mapWord ((s.inode ip).addrs indirect) (bn-NDIRECT) s = .error .ballocOutOfBlocks s' ∧
      free s.used < cost s.block (s.inode ip) bn := by
  have hfile : MAXFILE = NDIRECT+NINDIRECT := rfl
  have hk : bn-NDIRECT < NINDIRECT := by omega
  have hat : addrAt s.block (s.inode ip) (.entry (bn-NDIRECT)) = blockAt s.block (s.inode ip) bn := by
    rw [blockAt,spotOf_entry hbn]
  rcases mapWord_cases h htype hcached ha hk with ⟨hne,hrun⟩ | ⟨hzero,⟨b,s',hrun,hhand⟩ | ⟨s',hrun,hfull⟩⟩
  · exact .inl ⟨_,s,hrun,.refl h hcached hat.symm hne fun _ => ha⟩
  · rw [← spotOf_entry hbn] at hhand
    exact .inl ⟨b,s',hrun,hhand.mapped (hat.symm.trans hzero) fun _ => ha⟩
  · refine .inr ⟨s',hrun,?_⟩
    rw [cost,if_pos (hat.symm.trans hzero)]
    omega

theorem bmap_cases (h : s.Consistent) (htype : (s.inode ip).type ≠ .free) (hcached : s.Cached ip) (hmax : bn < MAXFILE) :
    (∃ b s', bmap ip bn s = .ok b s' ∧ Mapped ip bn b s s') ∨
    ∃ s', bmap ip bn s = .error .ballocOutOfBlocks s' ∧ free s.used < cost s.block (s.inode ip) bn := by
  have hfile : MAXFILE = NDIRECT+NINDIRECT := rfl
  unfold bmap
  by_cases hbn : bn < NDIRECT
  · rw [dif_pos hbn]
    have hat : (s.inode ip).addrs ⟨bn,by omega⟩ = blockAt s.block (s.inode ip) bn := by
      rw [blockAt,spotOf_own hbn]
      rfl
    have hdirect : NDIRECT ≤ bn → (s.inode ip).addrs indirect ≠ 0 := fun hle => absurd hle (by omega)
    rcases mapAddr_cases h htype hcached ⟨bn,by omega⟩ with ⟨hne,hrun⟩ | ⟨hzero,⟨b,s',hrun,hhand⟩ | ⟨s',hrun,hfull⟩⟩
    · exact .inl ⟨_,s,hrun,.refl h hcached hat.symm hne hdirect⟩
    · rw [← spotOf_own hbn] at hhand
      exact .inl ⟨b,s',hrun,hhand.mapped (hat.symm.trans hzero) hdirect⟩
    · refine .inr ⟨s',hrun,?_⟩
      rw [cost,if_pos (hat.symm.trans hzero)]
      omega
  · rw [dif_neg hbn,if_pos (by omega)]
    rcases mapAddr_cases h htype hcached indirect with ⟨hne,hrun⟩ | ⟨hzero,⟨c,s₁,hrun,hhand⟩ | ⟨s₁,hrun,hfull⟩⟩
    · rw [bind_of_ok hrun]
      exact mapWord_mapped h htype hcached hbn hmax hne
    · rw [bind_of_ok hrun]
      have hmapped := mapWord_mapped hhand.consistent (by rw [hhand.type]; exact htype) hhand.cached hbn hmax
        (by rw [hhand.table]; exact hhand.fresh)
      rw [hhand.table] at hmapped
      rcases hmapped with ⟨b,s',hrun',hmap⟩ | ⟨s',hrun',hfull⟩
      · exact .inl ⟨b,s',hrun',hhand.trans hmap hzero (by omega)⟩
      · refine .inr ⟨s',hrun',?_⟩
        rw [hhand.cost_eq hzero (by omega),← hhand.left]
        omega
    · rw [bind_of_error hrun]
      refine .inr ⟨s₁,rfl,?_⟩
      rw [cost,if_pos (⟨by omega,hzero⟩ : NDIRECT ≤ bn ∧ (s.inode ip).addrs indirect = 0)]
      omega

end Map
end Xv6.Fs
