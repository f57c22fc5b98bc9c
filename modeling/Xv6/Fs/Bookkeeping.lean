import Xv6.Fs.Calls

/-! # What the inode layer changes

Reading and writing the contents of a locked inode changes its copy and its place on disk
only; the tables of files, descriptors and pipes stay.
-/
namespace Xv6.Fs
open Program Function
variable {s t u : Sys} {ip : ℕ}

/-- Open files, working directories, pipes and the inodes besides `ip` stay. -/
structure Touched (ip : ℕ) (s t : Sys) : Prop where
  cache : ∃ d, d.type = (s.cache ip).copy.type ∧ t.cache = Function.update s.cache ip { s.cache ip with copy := d }
  dinode : t.dinode = s.dinode ∨
    ∃ d, d.type = (s.cache ip).copy.type ∧ t.dinode = Function.update s.dinode ip d
  file : t.file = s.file
  ofile : t.ofile = s.ofile
  cwd : t.cwd = s.cwd
  pipe : t.pipe = s.pipe
  pipes : t.pipes = s.pipes

namespace Touched

theorem of_cache (hcache : t.cache = s.cache) (hdinode : t.dinode = s.dinode) (hfile : t.file = s.file)
    (hofile : t.ofile = s.ofile) (hcwd : t.cwd = s.cwd) (hpipe : t.pipe = s.pipe) (hpipes : t.pipes = s.pipes) :
    Touched ip s t where
  cache := ⟨_,rfl,by rw [hcache,update_eq_self]⟩
  dinode := .inl hdinode
  file := hfile
  ofile := hofile
  cwd := hcwd
  pipe := hpipe
  pipes := hpipes

theorem trans (h : Touched ip s t) (h' : Touched ip t u) : Touched ip s u := by
  obtain ⟨d,hd,hc⟩ := h.cache
  obtain ⟨d',hd',hc'⟩ := h'.cache
  have htype : (t.cache ip).copy.type = (s.cache ip).copy.type := by rw [hc,update_self,hd]
  refine ⟨⟨d',hd'.trans htype,?_⟩,?_,h'.file.trans h.file,h'.ofile.trans h.ofile,h'.cwd.trans h.cwd,
    h'.pipe.trans h.pipe,h'.pipes.trans h.pipes⟩
  · rw [hc',hc,update_idem,update_self]
  · rcases h'.dinode with he' | ⟨e',ht',he'⟩
    · rw [he']
      exact h.dinode
    · refine .inr ⟨e',ht'.trans htype,?_⟩
      rcases h.dinode with he | ⟨e,_,he⟩
      · rw [he',he]
      · rw [he',he,update_idem]

instance : IsPreorder Sys (Touched ip) where
  refl _ := of_cache rfl rfl rfl rfl rfl rfl rfl
  trans _ _ _ := trans

end Touched

section Contents
variable {R : Sys → Sys → Prop}

/-- A preorder that changes to blocks and to the inode `ip` respect. -/
class InContents (ip : ℕ) (R : Sys → Sys → Prop) extends IsPreorder Sys R where
  block : ∀ s blk, R s { s with block := blk }
  used : ∀ s used, R s { s with used := used }
  answers : ∀ s answers, R s { s with answers := answers }
  copy : ∀ s d, d.type = (s.cache ip).copy.type →
    R s { s with cache := Function.update s.cache ip { s.cache ip with copy := d } }
  dinode : ∀ s, R s { s with dinode := Function.update s.dinode ip (s.cache ip).copy }

instance : InContents ip (Touched ip) where
  block _ _ := .of_cache rfl rfl rfl rfl rfl rfl rfl
  used _ _ := .of_cache rfl rfl rfl rfl rfl rfl rfl
  answers _ _ := .of_cache rfl rfl rfl rfl rfl rfl rfl
  copy _ d hd := ⟨⟨d,hd,rfl⟩,.inl rfl,rfl,rfl,rfl,rfl,rfl⟩
  dinode _ := ⟨⟨_,rfl,(Function.update_eq_self _ _).symm⟩,.inr ⟨_,rfl,rfl⟩,rfl,rfl,rfl,rfl,rfl⟩

theorem within_onlyIf [IsPreorder Sys R] {c : Prop} [Decidable c] {x : FsM Unit} (h : Within R x) :
    Within R (onlyIf c x) := .ite (fun _ => h) fun _ => .pure _

variable (ip) [hR : InContents ip R]

omit ip hR in
theorem within_bread [IsPreorder Sys R] (b : ℕ) : Within R (bread b) :=
  .ite (fun _ => .throw _) fun _ => .get fun _ => .pure _

include hR

theorem within_bwrite (b : ℕ) (f : Block → Block) : Within R (bwrite b f) :=
  .ite (fun _ => .throw _) fun _ => .modify fun s => hR.block s _

theorem within_assign {f : Dinode → Dinode} (hf : ∀ d, (f d).type = d.type) : Within R (assign ip f) := by
  refine .read fun s _ t h => ?_
  cases h
  exact hR.copy s _ (hf _)

theorem within_store {f : Dinode → Dinode} (hf : ∀ d, (f d).type = d.type) : Within R (store ip f) :=
  (within_assign ip hf).bind fun _ => .modify hR.dinode

omit ip hR in
theorem balloc_ok [sb : Superblock] {b : ℕ} (h : balloc s = .ok b t) : s.used b = false ∧ b < sb.size ∧ b < FSSIZE ∧
    t = { s with used := Function.update s.used b true, block := Function.update s.block b zeros } := by
  rw [balloc,bind_eq_ok] at h
  obtain ⟨_,_,hget,h⟩ := h
  cases hget
  cases hf : (List.range sb.size).find? fun b => !s.used b with
  | none =>
    simp only [hf] at h
    cases h
  | some c =>
    simp only [hf] at h
    rw [bind_eq_ok] at h
    obtain ⟨_,u,hu,h⟩ := h
    rw [bind_eq_ok] at h
    obtain ⟨_,v,hv,h⟩ := h
    cases hu
    cases h
    have hused := List.find?_some hf
    have hmem := List.mem_of_find?_eq_some hf
    unfold bzero bwrite at hv
    split at hv
    · cases hv
    · cases hv
      exact ⟨by simpa using hused,by simpa using hmem,by omega,rfl⟩

variable [sb : Superblock]

theorem within_balloc : Within R balloc := by
  intro s b t h
  obtain ⟨_,_,_,rfl⟩ := balloc_ok h
  exact IsTrans.trans _ _ _ (hR.used s (update s.used b true)) (hR.block _ _)

theorem within_mapAddr (k : Fin (NDIRECT+1)) : Within R (mapAddr ip k) :=
  .get fun _ => .ite (fun _ => (within_balloc ip).bind fun b =>
    .bind (within_assign ip (f := setAddr k b) fun _ => rfl) fun _ => .pure _) fun _ => .pure _

theorem within_mapWord (addr j : ℕ) : Within R (mapWord addr j) :=
  (within_bread _).bind fun _ => .ite (fun _ => (within_balloc ip).bind fun _ => (within_bwrite ip _ _).bind fun _ => .pure _)
    fun _ => .pure _

theorem within_bmap (bn : ℕ) : Within R (bmap ip bn) := by
  unfold bmap
  split
  · exact within_mapAddr ip _
  · exact .ite (fun _ => (within_mapAddr ip _).bind fun _ => within_mapWord ip _ _) fun _ => .throw _

theorem within_writeBlocks (fuel off : ℕ) (src : List UInt8) : Within R (writeBlocks ip fuel off src) := by
  induction fuel generalizing off src with
  | zero => exact .pure _
  | succ fuel ih =>
    exact .ite (fun _ => .pure _) fun _ => (within_bmap ip _).bind fun _ => (within_bwrite ip _ _).bind fun _ => ih _ _

theorem within_writei (src : List UInt8) (off : ℕ) : Within R (writei ip src off) := by
  refine .get fun s => .ite (fun _ => .ite (fun _ => .pure _) fun _ => .pure _) fun _ => ?_
  refine .ite (fun _ => .pure _) fun _ => .ite (fun _ => .pure _) fun _ => ?_
  refine (within_writeBlocks ip _ _ _).bind fun _ => .bind (within_onlyIf ?_) fun _ => .pure _
  exact within_store ip fun _ => rfl

end Contents

end Xv6.Fs
