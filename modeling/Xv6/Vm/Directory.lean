import Xv6.Kernel.PageMap
import Xv6.Library.Inventory

/-! # The frames of an address space

A page directory names frames in three kinds of places: its own frame, the frames of its
page tables, and the frames behind the present pages of the user's half. The pages of the
kernel's half are mapped to frames that belong to nobody.
-/
namespace Xv6.Vm
open Wmap Kernel Inventory Function
variable {a x : Word} {pd : PageDir} {pte : Pte} {f : Frame}

abbrev UPAGES : ℕ := 2^19

inductive Place
  | directory
  | table (d : Fin NPDENTRIES)
  | page (k : Fin UPAGES)
  deriving DecidableEq, Fintype

noncomputable def places : List Place := Finset.univ.toList

def frameOf (o : Option Pte) : Option Frame := o.bind fun pte => if pte.p then some pte.frame else none

def holds (pd : PageDir) : Place → Option Frame
  | .directory => some pd.frame
  | .table d => (pd.pde d).map Prod.fst
  | .page k => frameOf (walkpgdir pd (pageAt 0 k.val))

noncomputable def owned (pd : PageDir) : List Frame := items places (holds pd)

section Places

theorem nodup_places : places.Nodup := Finset.nodup_toList _

theorem mem_places (p : Place) : p ∈ places := Finset.mem_toList.mpr (Finset.mem_univ p)

/-- The places in the order in which an address space is torn down. -/
theorem places_perm : places.Perm
    ((List.finRange UPAGES).map .page ++ ((List.finRange NPDENTRIES).map .table ++ [.directory])) := by
  refine (List.perm_ext_iff_of_nodup nodup_places ?_).mpr fun p => iff_of_true (mem_places p) ?_
  · refine List.nodup_append.mpr ⟨?_,List.nodup_append.mpr ⟨?_,List.nodup_singleton _,?_⟩,?_⟩
    · exact (List.nodup_finRange _).map fun _ _ h => Place.page.inj h
    · exact (List.nodup_finRange _).map fun _ _ h => Place.table.inj h
    · intro p hp q hq
      obtain ⟨d,-,rfl⟩ := List.mem_map.mp hp
      rw [List.mem_singleton.mp hq]
      exact Place.noConfusion
    · intro p hp q hq
      obtain ⟨k,-,rfl⟩ := List.mem_map.mp hp
      rcases List.mem_append.mp hq with hq | hq
      · obtain ⟨d,-,rfl⟩ := List.mem_map.mp hq
        exact Place.noConfusion
      · rw [List.mem_singleton.mp hq]
        exact Place.noConfusion
  · cases p with
    | directory => exact List.mem_append_right _ (List.mem_append_right _ (List.mem_singleton_self _))
    | table d =>
      exact List.mem_append_right _ (List.mem_append_left _ (List.mem_map_of_mem (List.mem_finRange d)))
    | page k => exact List.mem_append_left _ (List.mem_map_of_mem (List.mem_finRange k))

def pageFrames (pd : PageDir) : List Frame := items (List.finRange UPAGES) fun k => holds pd (.page k)

def tableFrames (pd : PageDir) : List Frame := items (List.finRange NPDENTRIES) fun d => (pd.pde d).map Prod.fst

theorem owned_split (pd : PageDir) : (owned pd).Perm (pageFrames pd ++ (tableFrames pd ++ [pd.frame])) := by
  have hperm : (owned pd).Perm (items ((List.finRange UPAGES).map Place.page ++
      ((List.finRange NPDENTRIES).map Place.table ++ [.directory])) (holds pd)) := List.Perm.filterMap _ places_perm
  rw [items_append,items_append,items_map,items_map,items_cons] at hperm
  exact hperm

theorem mem_owned : f ∈ owned pd ↔ ∃ p, holds pd p = some f := by
  rw [owned,mem_items]
  exact ⟨fun ⟨p,_,hp⟩ => ⟨p,hp⟩,fun ⟨p,hp⟩ => ⟨p,mem_places p,hp⟩⟩

theorem frameOf_eq_some {o : Option Pte} : frameOf o = some f ↔ ∃ pte, o = some pte ∧ pte.p = true ∧ pte.frame = f := by
  unfold frameOf
  cases o with
  | none => simp
  | some pte =>
    by_cases hp : pte.p = true
    · simp [hp]
    · simp [hp]

theorem frameOf_zero : frameOf (some Pte.zero) = none := rfl

theorem frameOf_mapped (f : Frame) (w u : Bool) : frameOf (some ⟨f,true,w,u⟩) = some f := rfl

def pageOf (a : Word) (h : a.toNat < 2^31) : Place := .page ⟨a.toNat/4096,by
  have : UPAGES = 2^19 := rfl
  omega⟩

theorem pageAt_page (k : Fin UPAGES) : (pageAt 0 k.val).toNat = 4096*k.val := by
  have := k.isLt
  have hpages : UPAGES = 2^19 := rfl
  have hzero : (0 : Word).toNat = 0 := rfl
  rw [pageAt_toNat (by omega)]
  omega

theorem holds_pageOf (h : a.toNat < 2^31) : holds pd (pageOf a h) = frameOf (walkpgdir pd a) := by
  have hnum := pageAt_page ⟨a.toNat/4096,by
    have : UPAGES = 2^19 := rfl
    omega⟩
  exact congrArg frameOf (walkpgdir_page (by rw [hnum]; dsimp only; omega))

end Places

section Changes

theorem holds_setPte (ha : a.toNat < 2^31) (htable : (pd.pde (PDX a)).isSome) (pte : Pte) :
    holds (pd.setPte a pte) = Function.update (holds pd) (pageOf a ha) (frameOf (some pte)) := by
  funext p
  cases p with
  | directory =>
    rw [update_of_ne (by simp [pageOf])]
    exact congrArg some (frame_setPte pd a pte)
  | table d =>
    rw [update_of_ne (by simp [pageOf])]
    obtain ⟨t,ht⟩ := Option.isSome_iff_exists.mp htable
    by_cases hd : d = PDX a
    · simp [holds,PageDir.setPte,ht,hd]
    · simp [holds,PageDir.setPte,ht,hd]
  | page k =>
    have hnum := pageAt_page k
    rw [holds,walkpgdir_setPte]
    by_cases hk : Place.page k = pageOf a ha
    · have hval : k.val = a.toNat/4096 := congrArg Fin.val (Place.page.inj hk)
      obtain ⟨hd,ht⟩ := page_indices (show (pageAt 0 k.val).toNat/4096 = a.toNat/4096 by omega)
      rw [if_pos ⟨hd,ht,htable⟩,hk,update_self]
    · have hne : ¬ (PDX (pageAt 0 k.val) = PDX a ∧ PTX (pageAt 0 k.val) = PTX a ∧ (pd.pde (PDX a)).isSome) := by
        rintro ⟨hd,ht,-⟩
        have hpage := same_page hd ht
        exact hk (congrArg Place.page (Fin.ext (by dsimp only; omega)))
      rw [if_neg hne,update_of_ne hk]
      rfl

theorem tables_setPte (pd : PageDir) (a : Word) (pte : Pte) (d : Fin NPDENTRIES) :
    ((pd.setPte a pte).pde d).map Prod.fst = (pd.pde d).map Prod.fst := by
  unfold PageDir.setPte
  cases htable : pd.pde (PDX a) with
  | none => rfl
  | some t =>
    by_cases hd : d = PDX a
    · simp [hd,htable]
    · simp [hd]

theorem holds_setPte_upper (ha : 2^31 ≤ a.toNat) (pte : Pte) : holds (pd.setPte a pte) = holds pd := by
  funext p
  cases p with
  | directory => exact congrArg some (frame_setPte pd a pte)
  | table d => exact tables_setPte pd a pte d
  | page k =>
    have hnum := pageAt_page k
    have hlt := k.isLt
    have hpages : UPAGES = 2^19 := rfl
    rw [holds,walkpgdir_setPte,if_neg]
    · rfl
    · rintro ⟨hd,ht,-⟩
      have hpage := same_page hd ht
      omega

theorem walkpgdir_addTable (pd : PageDir) (a x : Word) (f : Frame) :
    walkpgdir (pd.addTable a f) x = if PDX x = PDX a then some .zero else walkpgdir pd x := by
  by_cases hd : PDX x = PDX a
  · simp [walkpgdir,PageDir.addTable,hd]
  · simp [walkpgdir,PageDir.addTable,hd]

theorem holds_addTable (hnone : pd.pde (PDX a) = none) (f : Frame) :
    holds (pd.addTable a f) = Function.update (holds pd) (.table (PDX a)) (some f) := by
  funext p
  cases p with
  | directory => rfl
  | table d =>
    by_cases hd : d = PDX a
    · rw [hd,update_self]
      simp [holds,PageDir.addTable]
    · rw [update_of_ne (fun he => hd (Place.table.inj he))]
      simp [holds,PageDir.addTable,hd]
  | page k =>
    rw [update_of_ne (by simp),holds,walkpgdir_addTable,holds]
    split
    · rename_i hd
      rw [walkpgdir,hd,hnone]
      rfl
    · rfl

theorem owned_map (ha : a.toNat < 2^31) (htable : (pd.pde (PDX a)).isSome) (hfree : frameOf (walkpgdir pd a) = none)
    (f : Frame) (w u : Bool) : (owned (pd.setPte a ⟨f,true,w,u⟩)).Perm (f :: owned pd) := by
  rw [owned,holds_setPte ha htable,frameOf_mapped]
  exact items_put nodup_places (mem_places _) ((holds_pageOf ha).trans hfree) f

theorem owned_unmap (ha : a.toNat < 2^31) (hf : frameOf (walkpgdir pd a) = some f) :
    (owned pd).Perm (f :: owned (pd.setPte a .zero)) := by
  obtain ⟨pte,hpte,-⟩ := frameOf_eq_some.mp hf
  rw [owned,owned,holds_setPte ha (table_of_walk hpte),frameOf_zero]
  exact items_take nodup_places (mem_places _) ((holds_pageOf ha).trans hf)

theorem owned_addTable (hnone : pd.pde (PDX a) = none) (f : Frame) : (owned (pd.addTable a f)).Perm (f :: owned pd) := by
  rw [owned,holds_addTable hnone]
  exact items_put nodup_places (mem_places _) (by rw [holds,hnone]; rfl) f

theorem owned_upper (ha : 2^31 ≤ a.toNat) (pte : Pte) : owned (pd.setPte a pte) = owned pd := by
  rw [owned,holds_setPte_upper ha,owned]

end Changes
end Xv6.Vm
