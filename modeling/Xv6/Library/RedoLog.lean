import Mathlib

/-! # Redo logs over an arbitrary block device

A device maps addresses to contents and is changed by single-block writes. A
redo log keeps a header, which decodes to the list of home addresses it commits,
and one slot for each of them. `replay` is the device as recovery would leave it;
every write of the commit protocol and of recovery itself either keeps `replay`
on the home blocks or is the one write of a non-empty header.
-/
namespace Xv6.RedoLog
open Function
variable {A B : Type*} [DecidableEq A]

def applyWrites (d : A → B) : List (A × B) → A → B
  | [] => d
  | w :: ws => applyWrites (update d w.1 w.2) ws

@[simp] theorem applyWrites_nil (d : A → B) : applyWrites d [] = d := rfl
@[simp] theorem applyWrites_cons (d : A → B) (w : A × B) (ws : List (A × B)) :
    applyWrites d (w :: ws) = applyWrites (update d w.1 w.2) ws := rfl

theorem applyWrites_append (d : A → B) (ws vs : List (A × B)) :
    applyWrites d (ws ++ vs) = applyWrites (applyWrites d ws) vs := by
  induction ws generalizing d with
  | nil => rfl
  | cons w ws ih => exact ih _

theorem applyWrites_of_notMem {d : A → B} {ws : List (A × B)} {a : A}
    (h : ∀ w ∈ ws, w.1 ≠ a) : applyWrites d ws a = d a := by
  induction ws generalizing d with
  | nil => rfl
  | cons w ws ih =>
    have hw := h w List.mem_cons_self
    rw [applyWrites_cons,ih (fun v hv => h v (List.mem_cons_of_mem _ hv)),update_of_ne hw.symm]

/-- An address holds its old contents or those of some write to it. -/
theorem applyWrites_cases (d : A → B) (ws : List (A × B)) (a : A) :
    applyWrites d ws a = d a ∨ ∃ w ∈ ws, w.1 = a ∧ applyWrites d ws a = w.2 := by
  induction ws generalizing d with
  | nil => exact Or.inl rfl
  | cons w ws ih =>
    rcases ih (update d w.1 w.2) with h | ⟨v,hv,hva,he⟩
    · by_cases hw : w.1 = a
      · right
        refine ⟨w,List.mem_cons_self,hw,?_⟩
        rw [applyWrites_cons,h,← hw,update_self]
      · left
        rw [applyWrites_cons,h,update_of_ne (Ne.symm hw)]
    · exact Or.inr ⟨v,List.mem_cons_of_mem _ hv,hva,he⟩

/-- A written address does not remember what it held before the writes. -/
theorem applyWrites_congr {d e : A → B} {ws : List (A × B)} {a : A}
    (h : (∃ w ∈ ws, w.1 = a) ∨ d a = e a) : applyWrites d ws a = applyWrites e ws a := by
  induction ws generalizing d e with
  | nil =>
    rcases h with ⟨w,hw,_⟩ | h
    · simp at hw
    · exact h
  | cons w ws ih =>
    apply ih
    by_cases hwa : w.1 = a
    · right
      simp [hwa]
    · rcases h with ⟨v,hv,hva⟩ | h
      · rcases List.mem_cons.mp hv with rfl | hv
        · exact absurd hva hwa
        · exact Or.inl ⟨v,hv,hva⟩
      · right
        simp [update_of_ne (Ne.symm hwa),h]

/-- Repeating all writes after an initial part of them changes nothing. -/
theorem applyWrites_take_all (d : A → B) (ws : List (A × B)) (k : ℕ) :
    applyWrites (applyWrites d (ws.take k)) ws = applyWrites d ws := by
  funext a
  apply applyWrites_congr
  by_cases h : ∃ w ∈ ws, w.1 = a
  · exact Or.inl h
  · right
    apply applyWrites_of_notMem
    intro w hw hwa
    exact h ⟨w,List.mem_of_mem_take hw,hwa⟩

theorem applyWrites_of_mem {d : A → B} {ws : List (A × B)} (hnd : (ws.map Prod.fst).Nodup)
    {w : A × B} (hw : w ∈ ws) : applyWrites d ws w.1 = w.2 := by
  induction ws generalizing d with
  | nil => simp at hw
  | cons v ws ih =>
    simp only [List.map_cons,List.nodup_cons] at hnd
    rw [applyWrites_cons]
    rcases List.mem_cons.mp hw with rfl | hw
    · have hne : ∀ u ∈ ws, u.1 ≠ w.1 := fun u hu he => hnd.1 (List.mem_map.mpr ⟨u,hu,he⟩)
      rw [applyWrites_of_notMem hne,update_self]
    · exact ih hnd.2 hw

structure Layout (A B : Type*) where
  header : A
  slot : ℕ → A
  capacity : ℕ
  entries : B → List A
  slot_ne_header : ∀ i < capacity, slot i ≠ header
  slot_inj : ∀ i < capacity, ∀ j < capacity, slot i = slot j → i = j

namespace Layout
variable (L : Layout A B)

def Home (a : A) : Prop := a ≠ L.header ∧ ∀ i < L.capacity, a ≠ L.slot i

def HomeEq (d e : A → B) : Prop := ∀ a, L.Home a → d a = e a

omit [DecidableEq A] in
theorem HomeEq.trans {L : Layout A B} {d e f : A → B} (h : L.HomeEq d e) (h' : L.HomeEq e f) :
    L.HomeEq d f := fun a ha => (h a ha).trans (h' a ha)

def copies (d : A → B) (es : List A) : List (A × B) := es.zipIdx.map (fun e => (e.1,d (L.slot e.2)))

def installs (d : A → B) : List (A × B) := L.copies d (L.entries (d L.header))

def replay (d : A → B) : A → B := applyWrites d (L.installs d)

def Ready (d : A → B) : Prop :=
  (L.entries (d L.header)).length ≤ L.capacity ∧ ∀ a ∈ L.entries (d L.header), L.Home a

omit [DecidableEq A] in
theorem copies_fst_mem {d : A → B} {es : List A} {w : A × B} (hw : w ∈ L.copies d es) : w.1 ∈ es := by
  obtain ⟨e,he,rfl⟩ := List.mem_map.mp hw
  exact List.fst_mem_of_mem_zipIdx he

omit [DecidableEq A] in
theorem copies_congr {d e : A → B} {es : List A} (hlen : es.length ≤ L.capacity)
    (h : ∀ i < L.capacity, d (L.slot i) = e (L.slot i)) : L.copies d es = L.copies e es := by
  apply List.map_congr_left
  intro p hp
  have hi : p.2 < es.length := by simpa using List.snd_lt_of_mem_zipIdx hp
  rw [h p.2 (by omega)]

omit [DecidableEq A] in
theorem Ready.installs_home {L : Layout A B} {d : A → B} (h : L.Ready d) {w : A × B}
    (hw : w ∈ L.installs d) : L.Home w.1 := h.2 _ (L.copies_fst_mem hw)

theorem log_of_home_writes {d : A → B} {ws : List (A × B)} (h : ∀ w ∈ ws, L.Home w.1) :
    applyWrites d ws L.header = d L.header ∧
      ∀ i < L.capacity, applyWrites d ws (L.slot i) = d (L.slot i) := by
  refine ⟨applyWrites_of_notMem (fun w hw => (h w hw).1),?_⟩
  intro i hi
  exact applyWrites_of_notMem (fun w hw => (h w hw).2 i hi)

theorem Ready.of_home_writes {L : Layout A B} {d : A → B} {ws : List (A × B)} (hd : L.Ready d)
    (h : ∀ w ∈ ws, L.Home w.1) : L.Ready (applyWrites d ws) := by
  unfold Ready
  rw [(L.log_of_home_writes h).1]
  exact hd

theorem installs_of_home_writes {d : A → B} {ws : List (A × B)} (hd : L.Ready d)
    (h : ∀ w ∈ ws, L.Home w.1) : L.installs (applyWrites d ws) = L.installs d := by
  obtain ⟨hh,hs⟩ := L.log_of_home_writes (d := d) h
  unfold installs
  rw [hh]
  exact L.copies_congr hd.1 hs

theorem replay_of_entries_nil {d : A → B} (h : L.entries (d L.header) = []) : L.replay d = d := by
  simp [replay,installs,copies,h]

/-- Installing any initial part of the committed blocks does not move `replay`. -/
theorem replay_installed {d : A → B} (hd : L.Ready d) (k : ℕ) :
    L.replay (applyWrites d ((L.installs d).take k)) = L.replay d := by
  have hw : ∀ w ∈ (L.installs d).take k, L.Home w.1 :=
    fun w hw => hd.installs_home (List.mem_of_mem_take hw)
  unfold replay
  rw [L.installs_of_home_writes hd hw]
  exact applyWrites_take_all d (L.installs d) k

def recoverWrites (d : A → B) (cleared : B) : List (A × B) := L.installs d ++ [(L.header,cleared)]

theorem recover_home {d : A → B} {cleared : B} :
    L.HomeEq (applyWrites d (L.recoverWrites d cleared)) (L.replay d) := by
  intro a ha
  rw [recoverWrites,applyWrites_append]
  simp only [applyWrites_cons,applyWrites_nil]
  exact update_of_ne ha.1 _ _

theorem recover_header (d : A → B) (cleared : B) :
    applyWrites d (L.recoverWrites d cleared) L.header = cleared := by
  rw [recoverWrites,applyWrites_append]
  simp

/-- A recovery cut off after any number of its writes loses nothing. -/
theorem recover_crash {d : A → B} (hd : L.Ready d) {cleared : B} (hc : L.entries cleared = []) (k : ℕ) :
    L.Ready (applyWrites d ((L.recoverWrites d cleared).take k)) ∧
      L.HomeEq (L.replay (applyWrites d ((L.recoverWrites d cleared).take k))) (L.replay d) := by
  by_cases hk : k ≤ (L.installs d).length
  · rw [recoverWrites,List.take_append_of_le_length hk]
    refine ⟨hd.of_home_writes (fun w hw => hd.installs_home (List.mem_of_mem_take hw)),?_⟩
    rw [L.replay_installed hd]
    exact fun _ _ => rfl
  · have hfull : (L.recoverWrites d cleared).take k = L.recoverWrites d cleared := by
      apply List.take_of_length_le
      simp only [recoverWrites,List.length_append,List.length_singleton]
      omega
    have he : L.entries (applyWrites d (L.recoverWrites d cleared) L.header) = [] := by
      rw [L.recover_header,hc]
    rw [hfull]
    refine ⟨by simp [Ready,he],?_⟩
    rw [L.replay_of_entries_nil he]
    exact L.recover_home

section Commit
variable (group : List (A × B)) (committed cleared : B)

def logWrites : List (A × B) := group.zipIdx.map (fun e => (L.slot e.2,e.1.2))

def commitWrites : List (A × B) :=
  L.logWrites group ++ (L.header,committed) :: (group ++ [(L.header,cleared)])

theorem commit_writes (d : A → B) : applyWrites d (L.commitWrites group committed cleared) =
    update (applyWrites (update (applyWrites d (L.logWrites group)) L.header committed) group) L.header cleared := by
  rw [commitWrites,applyWrites_append,applyWrites_cons,applyWrites_append]
  rfl

omit [DecidableEq A] in
theorem length_logWrites : (L.logWrites group).length = group.length := by simp [logWrites]

omit [DecidableEq A] in
theorem logWrites_fst {w : A × B} (hw : w ∈ L.logWrites group) :
    ∃ i < group.length, w.1 = L.slot i := by
  obtain ⟨e,he,rfl⟩ := List.mem_map.mp hw
  exact ⟨e.2,by simpa using List.snd_lt_of_mem_zipIdx he,rfl⟩

variable {group} (hlen : group.length ≤ L.capacity)
include hlen

theorem log_phase {d : A → B} {ws : List (A × B)} (hws : ∀ w ∈ ws, w ∈ L.logWrites group) :
    applyWrites d ws L.header = d L.header ∧ L.HomeEq (applyWrites d ws) d := by
  refine ⟨applyWrites_of_notMem ?_,fun a ha => applyWrites_of_notMem ?_⟩
  · intro w hw
    obtain ⟨i,hi,he⟩ := L.logWrites_fst group (hws w hw)
    rw [he]
    exact L.slot_ne_header i (by omega)
  · intro w hw
    obtain ⟨i,hi,he⟩ := L.logWrites_fst group (hws w hw)
    rw [he]
    exact (ha.2 i (by omega)).symm

/-- After the first phase slot `i` holds the contents of the group's block `i`. -/
theorem slot_after_log (d : A → B) {i : ℕ} (hi : i < group.length) :
    applyWrites d (L.logWrites group) (L.slot i) = (group[i]).2 := by
  have hnd : ((L.logWrites group).map Prod.fst).Nodup := by
    rw [logWrites,List.map_map]
    apply List.Nodup.map_on
    · intro x hx y hy he
      have hx' : x.2 < group.length := by simpa using List.snd_lt_of_mem_zipIdx hx
      have hy' : y.2 < group.length := by simpa using List.snd_lt_of_mem_zipIdx hy
      have hxy := L.slot_inj x.2 (by omega) y.2 (by omega) he
      have hgx := List.mem_zipIdx' hx
      have hgy := List.mem_zipIdx' hy
      refine Prod.ext ?_ hxy
      rw [hgx.2,hgy.2]
      simp only [hxy]
    · exact List.Nodup.of_map Prod.snd (by simp [List.nodup_range'])
  have hm : (L.slot i,(group[i]).2) ∈ L.logWrites group := by
    apply List.mem_map.mpr
    exact ⟨(group[i],i),by simp [List.mk_mem_zipIdx_iff_getElem?,hi],rfl⟩
  exact applyWrites_of_mem hnd hm

variable {committed cleared} (hhome : ∀ w ∈ group, L.Home w.1)
  (hcommitted : L.entries committed = group.map Prod.fst) (hcleared : L.entries cleared = [])

omit hcleared in
include hhome hcommitted in
/-- Once the header is written, recovery would install exactly the group. -/
theorem installs_committed (d : A → B) :
    L.Ready (update (applyWrites d (L.logWrites group)) L.header committed) ∧
      L.installs (update (applyWrites d (L.logWrites group)) L.header committed) = group := by
  constructor
  · unfold Ready
    rw [update_self,hcommitted]
    refine ⟨by simpa using hlen,?_⟩
    intro a ha
    obtain ⟨w,hw,rfl⟩ := List.mem_map.mp ha
    exact hhome w hw
  · unfold installs
    rw [update_self,hcommitted]
    apply List.ext_getElem
    · simp [copies]
    · intro i hi hi'
      simp only [copies,List.getElem_map,List.getElem_zipIdx,Nat.zero_add]
      rw [update_of_ne (L.slot_ne_header i (by omega)),L.slot_after_log hlen d hi']

include hhome hcommitted hcleared in
/-- A commit cut off after any number of its writes leaves a device from which
recovery produces either the old home blocks or the group's. -/
theorem commit_crash {d : A → B} (hd : L.entries (d L.header) = []) (k : ℕ) :
    L.Ready (applyWrites d ((L.commitWrites group committed cleared).take k)) ∧
      (L.HomeEq (L.replay (applyWrites d ((L.commitWrites group committed cleared).take k))) d ∨
       L.HomeEq (L.replay (applyWrites d ((L.commitWrites group committed cleared).take k)))
        (applyWrites d group)) := by
  have hl := L.length_logWrites group
  by_cases hk : k ≤ group.length
  · have hpre : (L.commitWrites group committed cleared).take k = (L.logWrites group).take k := by
      rw [commitWrites,List.take_append_of_le_length (by omega)]
    obtain ⟨hh,he⟩ := L.log_phase hlen (d := d) (fun w (hw : w ∈ (L.logWrites group).take k) =>
      List.mem_of_mem_take hw)
    rw [hpre]
    have hnil : L.entries (applyWrites d ((L.logWrites group).take k) L.header) = [] := by rw [hh,hd]
    refine ⟨by simp [Ready,hnil],Or.inl ?_⟩
    rw [L.replay_of_entries_nil hnil]
    exact he
  · obtain ⟨hr,hi⟩ := L.installs_committed hlen hhome hcommitted d
    obtain ⟨j,rfl⟩ : ∃ j, k = (L.logWrites group).length + (j+1) := ⟨k-group.length-1,by omega⟩
    have hpost : applyWrites d ((L.commitWrites group committed cleared).take
        ((L.logWrites group).length + (j+1))) =
        applyWrites (update (applyWrites d (L.logWrites group)) L.header committed)
          ((L.recoverWrites (update (applyWrites d (L.logWrites group)) L.header committed)
            cleared).take j) := by
      rw [commitWrites,List.take_length_add_append,applyWrites_append,List.take_succ_cons,
        applyWrites_cons,recoverWrites,hi]
    rw [hpost]
    obtain ⟨hready,hsame⟩ := L.recover_crash hr hcleared j
    refine ⟨hready,Or.inr (hsame.trans ?_)⟩
    intro a ha
    rw [replay,hi]
    apply applyWrites_congr
    right
    rw [update_of_ne ha.1]
    exact (L.log_phase hlen (fun w hw => hw)).2 a ha

/-- A commit that is not cut off brings the group home. -/
theorem commit_home (d : A → B) :
    L.HomeEq (applyWrites d (L.commitWrites group committed cleared)) (applyWrites d group) := by
  intro a ha
  rw [commit_writes,update_of_ne ha.1]
  apply applyWrites_congr
  right
  rw [update_of_ne ha.1]
  exact (L.log_phase hlen (fun w hw => hw)).2 a ha

end Commit
end Layout
end Xv6.RedoLog
