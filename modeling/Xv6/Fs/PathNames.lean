import Xv6.Fs.Paths

/-! # The components of a path

`skipelem` takes the components of a path off its front, one by one.
-/
namespace Xv6.Fs
variable {path rest : Path} {name : Name}

def components (path : Path) : List Name := ((path.splitOn slash).filter (· ≠ [])).map Name.ofBytes

theorem components_slash (path : Path) : components (slash :: path) = components path := by
  unfold components List.splitOn
  rw [List.splitOnP_cons_eq_if_modifyHead,if_pos (beq_self_eq_true slash),List.filter_cons_of_neg (by decide)]

theorem components_dropWhile (path : Path) : components (path.dropWhile (· = slash)) = components path := by
  induction path with
  | nil => rfl
  | cons c path ih =>
    by_cases hc : c = slash
    · rw [List.dropWhile_cons_of_pos (by exact decide_eq_true hc),ih,hc,components_slash]
    · rw [List.dropWhile_cons_of_neg (by rwa [decide_eq_true_iff])]

theorem components_takeWhile (hne : path ≠ []) (hhead : path.head hne ≠ slash) :
    components path = Name.ofBytes (path.takeWhile (· ≠ slash)) :: components (path.dropWhile (· ≠ slash)) := by
  have hsplit : path.takeWhile (· ≠ slash) ++ path.dropWhile (· ≠ slash) = path := List.takeWhile_append_dropWhile
  obtain ⟨w,hw⟩ : ∃ w, w = path.takeWhile (· ≠ slash) := ⟨_,rfl⟩
  have hword : ∀ c ∈ w, (c == slash) = false := by
    intro c hc
    rw [hw] at hc
    have hne := List.mem_takeWhile_imp hc
    exact beq_eq_false_iff_ne.mpr (of_decide_eq_true hne)
  have hwne : w ≠ [] := by
    obtain ⟨c,cs,rfl⟩ := List.exists_cons_of_ne_nil hne
    rw [hw,List.takeWhile_cons_of_pos (by exact decide_eq_true hhead)]
    nofun
  rw [← hw] at hsplit ⊢
  cases hd : path.dropWhile (· ≠ slash) with
  | nil =>
    rw [hd,List.append_nil] at hsplit
    rw [← hsplit]
    unfold components List.splitOn
    rw [List.splitOnP_eq_singleton hword,List.filter_cons_of_pos (by exact decide_eq_true hwne)]
    rfl
  | cons c cs =>
    have hc : c = slash := by
      have hhead := List.head?_dropWhile_not (fun b : UInt8 => decide (b ≠ slash)) path
      rw [hd] at hhead
      exact not_not.mp (of_decide_eq_false hhead)
    rw [hd] at hsplit
    rw [hc,components_slash,← hsplit,hc]
    unfold components List.splitOn
    rw [List.splitOnP_append_cons_of_forall_mem hword slash (beq_self_eq_true slash),
      List.filter_cons_of_pos (by exact decide_eq_true hwne)]
    rfl

theorem skipelem_none : skipelem path = none ↔ components path = [] := by
  rw [← components_dropWhile]
  unfold skipelem
  dsimp only
  by_cases hnil : path.dropWhile (· = slash) = []
  · rw [if_pos hnil,hnil]
    exact iff_of_true rfl rfl
  · have hhead := List.head_dropWhile_not (fun b : UInt8 => decide (b = slash)) hnil
    rw [if_neg hnil,components_takeWhile hnil (of_decide_eq_false hhead)]
    exact iff_of_false nofun nofun

theorem skipelem_some (h : skipelem path = some (name,rest)) : components path = name :: components rest := by
  rw [← components_dropWhile]
  unfold skipelem at h
  dsimp only at h
  by_cases hnil : path.dropWhile (· = slash) = []
  · rw [if_pos hnil] at h
    cases h
  · have hhead := List.head_dropWhile_not (fun b : UInt8 => decide (b = slash)) hnil
    rw [if_neg hnil] at h
    cases h
    rw [components_takeWhile hnil (of_decide_eq_false hhead),components_dropWhile]

theorem skipelem_rest (h : skipelem path = some (name,rest)) : rest = [] ↔ components rest = [] := by
  unfold skipelem at h
  dsimp only at h
  split at h
  · cases h
  · cases h
    obtain ⟨tail,ht⟩ : ∃ tail, tail = ((path.dropWhile (· = slash)).dropWhile (· ≠ slash)) := ⟨_,rfl⟩
    rw [← ht]
    refine ⟨fun hc => by rw [hc]; rfl,fun hc => ?_⟩
    by_contra hnil
    have hhead := List.head_dropWhile_not (fun b : UInt8 => decide (b = slash)) hnil
    rw [components_takeWhile hnil (of_decide_eq_false hhead)] at hc
    cases hc

end Xv6.Fs
