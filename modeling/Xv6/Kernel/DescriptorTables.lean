import Xv6.Kernel.WindowTables

/-! # The files behind mappings

Every node of the table carries the descriptor that its mapping was made with. The
mapping itself was made for one open file. Both stay together while pages are loaded and
mappings are made; a removal that moves an address up to the inline node of its slot
leaves the descriptor behind.
-/
namespace Xv6.Kernel
open Wmap Program Relation Function
variable {ι : Type} {t t' : Table} {a : Word} {F : Word → Option ι} {origin : Ptr → Option ι}

def OfFile (e : Entry) : Prop := e.flags &&& MAP_ANONYMOUS = 0

instance (e : Entry) : Decidable (OfFile e) := inferInstanceAs (Decidable (_ = _))

/-- The descriptor of every file mapping stands for the file that the mapping was made for. -/
def ValidOn (t : Table) (F : Word → Option ι) (origin : Ptr → Option ι) : Prop :=
  t.hashInit ≠ -1 → ∀ p ∈ t.allNodes, OfFile (t.entry p) → ∃ file, F (t.entry p).fd = some file ∧ origin p = some file

def PlainOn (t : Table) (origin : Ptr → Option ι) : Prop :=
  t.hashInit ≠ -1 → ∀ j, .pool j ∈ t.allNodes → ¬ OfFile (t.entry (.pool j)) → origin (.pool j) = none

section Loading

/-- The same mappings of the same files. -/
structure SameFiles (t t' : Table) : Prop where
  retouched : Retouched t t'
  fd : ∀ p, (t'.entry p).fd = (t.entry p).fd
  flags : ∀ p, (t'.entry p).flags = (t.entry p).flags

theorem SameFiles.refl (t : Table) : SameFiles t t := ⟨.refl t,fun _ => rfl,fun _ => rfl⟩

theorem SameFiles.trans {u : Table} (h : SameFiles t u) (h' : SameFiles u t') : SameFiles t t' :=
  ⟨h.retouched.trans h'.retouched,fun p => (h'.fd p).trans (h.fd p),fun p => (h'.flags p).trans (h.flags p)⟩

theorem Bump.sameFiles (h : Bump t t') : SameFiles t t' := by
  refine ⟨h.retouched,?_,?_⟩
  all_goals
    obtain ⟨q⟩ := h
    intro p
    rw [Table.entry,deref_setNode]
    split
    · rename_i hp
      rw [hp]
      rfl
    · rfl

theorem bumps_sameFiles (h : Bumps t t') : SameFiles t t' := by
  induction h with
  | refl => exact .refl t
  | tail _ hstep ih => exact ih.trans hstep.sameFiles

theorem SameFiles.ofFile (h : SameFiles t t') (p : Ptr) : OfFile (t'.entry p) ↔ OfFile (t.entry p) := by
  rw [OfFile,OfFile,h.flags]

theorem SameFiles.validOn (h : SameFiles t t') : ValidOn t' F origin ↔ ValidOn t F origin := by
  unfold ValidOn
  rw [h.retouched.hashInit,h.retouched.allNodes]
  simp only [h.ofFile,h.fd]

theorem SameFiles.plainOn (h : SameFiles t t') : PlainOn t' origin ↔ PlainOn t origin := by
  unfold PlainOn
  rw [h.retouched.hashInit,h.retouched.allNodes]
  simp only [h.ofFile]

end Loading

section Removal

def moved (t : Table) (a : Word) (origin : Ptr → Option ι) : Ptr → Option ι :=
  match slotOf a with
  | .ok i => if (t.table i).startAddress = a then
      match (t.table i).next with
      | some k => Function.update origin (.slot i) (origin (.pool k))
      | none => origin
    else origin
  | .error _ => origin

/-- If the head of a chain is removed and is of a file, the next entry is of the same file. -/
def UnmixedOn (t : Table) (F : Word → Option ι) (a : Word) : Prop :=
  t.hashInit ≠ -1 → ∀ i k, slotOf a = .ok i → (t.table i).startAddress = a → (t.table i).next = some k →
    OfFile (t.entry (.slot i)) → OfFile (t.entry (.pool k)) ∧ F (t.entry (.slot i)).fd = F (t.entry (.pool k)).fd

theorem SameFiles.moved (h : SameFiles t t') (a : Word) (origin : Ptr → Option ι) :
    moved t' a origin = moved t a origin := by
  have hstart (i : Slot) : (t'.table i).startAddress = (t.table i).startAddress := h.retouched.start (.slot i)
  have hnext (i : Slot) : (t'.table i).next = (t.table i).next := h.retouched.next (.slot i)
  unfold Kernel.moved
  simp only [hstart,hnext]

theorem SameFiles.unmixedOn (h : SameFiles t t') : UnmixedOn t' F a ↔ UnmixedOn t F a := by
  have hstart (i : Slot) : (t'.table i).startAddress = (t.table i).startAddress := h.retouched.start (.slot i)
  have hnext (i : Slot) : (t'.table i).next = (t.table i).next := h.retouched.next (.slot i)
  unfold UnmixedOn
  rw [h.retouched.hashInit]
  simp only [hstart,hnext,h.ofFile,h.fd]

theorem moved_cases (t : Table) (a : Word) (origin : Ptr → Option ι) :
    (moved t a origin = origin ∧ ∀ i k, slotOf a = .ok i → (t.table i).startAddress = a → (t.table i).next ≠ some k) ∨
    ∃ i k, slotOf a = .ok i ∧ (t.table i).startAddress = a ∧ (t.table i).next = some k ∧
      moved t a origin = Function.update origin (.slot i) (origin (.pool k)) := by
  unfold moved
  cases hi : slotOf a with
  | error e => exact .inl ⟨rfl,nofun⟩
  | ok i =>
    dsimp only
    by_cases hstart : (t.table i).startAddress = a
    · rw [if_pos hstart]
      cases hnext : (t.table i).next with
      | none =>
        refine .inl ⟨rfl,fun i' k hi' _ hk => ?_⟩
        cases hi'
        rw [hnext] at hk
        cases hk
      | some k => exact .inr ⟨i,k,rfl,hstart,hnext,rfl⟩
    · rw [if_neg hstart]
      refine .inl ⟨rfl,fun i' k hi' hs => ?_⟩
      cases hi'
      exact absurd hs hstart

theorem removed_files {i : Slot} {r : ℤ} (h : Removed t t' a i r) (p : Ptr) :
    (OfFile (t'.entry p) ↔ OfFile (t.entry p)) ∧ (t'.entry p).fd = (t.entry p).fd := by
  have hpay := h.payload p
  have hflags : (t'.entry p).flags = (t.entry p).flags := (Entry.mk.inj hpay).2.2.2.2.1
  have hfd : (t'.entry p).fd = (t.entry p).fd := (Entry.mk.inj hpay).2.2.2.1
  exact ⟨by rw [OfFile,OfFile,hflags],hfd⟩

theorem plainOn_remove {r : ℤ} (hw : WF t) (hp : PlainOn t origin) (h : removeValue t a = .ok (r,t')) :
    PlainOn t' (moved t a origin) := by
  obtain ⟨i,-,hspec⟩ := removeValue_removed hw h
  intro hinit j hj hanon
  have hold := hp (hspec.hashInit ▸ hinit) j (removeValue_nodes hw h hj) fun hfile =>
    hanon ((removed_files hspec _).1.mpr hfile)
  rcases moved_cases t a origin with ⟨hsame,-⟩ | ⟨i',k,-,-,-,hmoved⟩
  · rw [hsame]
    exact hold
  · rw [hmoved,update_of_ne (Ne.symm (by nofun))]
    exact hold

theorem removeValue_shift {i : Slot} {k : PoolIdx} {r : ℤ} (hw : WF t) (hi : slotOf a = .ok i)
    (hstart : (t.table i).startAddress = a) (hnext : (t.table i).next = some k)
    (h : removeValue t a = .ok (r,t')) : (t'.table i).startAddress ≠ EMPTY := by
  have hlive : (t.table i).startAddress ≠ EMPTY := fun he => ne_empty_of_slotOf hi (hstart.symm.trans he)
  have hmem := hw.next_mem (slot_mem_nodes hlive) hnext
  rw [nodes_of_live hlive] at hmem
  have hk : k ∈ t.chain i := by simpa using hmem
  obtain ⟨i',hi',h⟩ := bind_ok h
  rw [hi] at hi'
  cases hi'
  dsimp only at h
  rw [if_pos hstart,hnext] at h
  cases h
  simpa [Table.setSlot] using hw.live i k hk

/-- A removal keeps files and mappings together if and only if it does not mix two of them. -/
theorem validOn_remove {r : ℤ} (hw : WF t) (hp : PlainOn t origin) (hv : ValidOn t F origin)
    (h : removeValue t a = .ok (r,t')) : ValidOn t' F (moved t a origin) ↔ UnmixedOn t F a := by
  obtain ⟨i₀,-,hspec⟩ := removeValue_removed hw h
  rcases moved_cases t a origin with ⟨hsame,hnone⟩ | ⟨i,k,hi,hstart,hnext,hmoved⟩
  · rw [hsame]
    refine ⟨fun _ _ i k hi hs hk => absurd hk (hnone i k hi hs),fun _ hinit p hlive hfile => ?_⟩
    obtain ⟨hf,hfd⟩ := removed_files hspec p
    rw [hfd]
    exact hv (hspec.hashInit ▸ hinit) p (removeValue_nodes hw h hlive) (hf.mp hfile)
  · have hlive : (t.table i).startAddress ≠ EMPTY := fun he => ne_empty_of_slotOf hi (hstart.symm.trans he)
    have hslot := mem_allNodes_of_nodes (slot_mem_nodes hlive)
    have hpool := mem_allNodes_of_nodes (hw.next_mem (slot_mem_nodes hlive) hnext)
    rw [hmoved]
    constructor
    · intro hv' hinit i' k' hi' _ hk' hfile
      rw [hi] at hi'
      cases hi'
      rw [hnext] at hk'
      cases hk'
      have hslot' := mem_allNodes_of_nodes (slot_mem_nodes (removeValue_shift hw hi hstart hnext h))
      obtain ⟨hf,hfd⟩ := removed_files hspec (.slot i)
      obtain ⟨file,h1,h2⟩ := hv' (hspec.hashInit ▸ hinit) (.slot i) hslot' (hf.mpr hfile)
      rw [update_self] at h2
      have hof : OfFile (t.entry (.pool k)) := by
        by_contra hanon
        rw [hp hinit k hpool hanon] at h2
        cases h2
      obtain ⟨file',h3,h4⟩ := hv hinit (.pool k) hpool hof
      rw [h2,Option.some.injEq] at h4
      rw [hfd] at h1
      exact ⟨hof,by rw [h1,h3,h4]⟩
    · intro hmix hinit p hlive' hfile
      obtain ⟨hf,hfd⟩ := removed_files hspec p
      have hinit' : t.hashInit ≠ -1 := hspec.hashInit ▸ hinit
      rw [hfd]
      by_cases hps : p = .slot i
      · subst hps
        obtain ⟨hof,hsame⟩ := hmix hinit' i k hi hstart hnext (hf.mp hfile)
        rw [update_self,hsame]
        exact hv hinit' (.pool k) hpool hof
      · rw [update_of_ne hps]
        exact hv hinit' p (removeValue_nodes hw h hlive') (hf.mp hfile)

end Removal

section Insertion
variable {len np fd fl : Word}

def noted (t : Table) (origin : Ptr → Option ι) (file : Option ι) : Ptr → Option ι :=
  match t.mostRecent with
  | some q => Function.update origin q file
  | none => origin

theorem validOn_insert (hw : WF t) (hinit : t.hashInit ≠ -1) (hv : ValidOn t F origin)
    (h : hashInsert t a len np fd fl = .ok t') :
    ValidOn t' F (noted t' origin (if fl &&& MAP_ANONYMOUS = 0 then F fd else none)) ↔
      (fl &&& MAP_ANONYMOUS = 0 → F fd ≠ none) := by
  obtain ⟨q,hq,hnew,hperm,hentry⟩ := hashInsert_newest hw h
  have hkept := (hashInsert_inserted hw h).kept
  obtain ⟨-,-,-,-,-,hinit',-⟩ := hashInsert_ok hw h
  rw [noted,hq]
  dsimp only
  constructor
  · intro hv' hfl hnone
    obtain ⟨file,h1,-⟩ := hv' (hinit' ▸ hinit) q (hperm.mem_iff.mpr List.mem_cons_self) (by rw [hentry]; exact hfl)
    rw [hentry] at h1
    dsimp only at h1
    rw [hnone] at h1
    cases h1
  · intro hfd _ p hp hfile
    rcases List.mem_cons.mp (hperm.mem_iff.mp hp) with rfl | hold
    · rw [hentry] at hfile ⊢
      obtain ⟨file,hsome⟩ := Option.ne_none_iff_exists'.mp (hfd hfile)
      refine ⟨file,hsome,?_⟩
      rw [update_self,← hsome]
      exact if_pos hfile
    · have hne : p ≠ q := fun he => hnew (he ▸ hold)
      rw [hkept p hold] at hfile ⊢
      rw [update_of_ne hne]
      exact hv hinit p hold hfile

theorem plainOn_insert (hw : WF t) (hp : PlainOn t origin) (h : hashInsert t a len np fd fl = .ok t') :
    PlainOn t' (noted t' origin (if fl &&& MAP_ANONYMOUS = 0 then F fd else none)) := by
  obtain ⟨q,hq,hnew,hperm,hentry⟩ := hashInsert_newest hw h
  have hkept := (hashInsert_inserted hw h).kept
  obtain ⟨-,-,-,-,-,hinit',-⟩ := hashInsert_ok hw h
  intro hinit j hj hanon
  rw [noted,hq]
  dsimp only
  rcases List.mem_cons.mp (hperm.mem_iff.mp hj) with rfl | hold
  · rw [hentry] at hanon
    rw [update_self]
    exact if_neg hanon
  · have hne : .pool j ≠ q := fun he => hnew (he ▸ hold)
    rw [hkept _ hold] at hanon
    rw [update_of_ne hne]
    exact hp (hinit' ▸ hinit) j hold hanon

end Insertion
end Xv6.Kernel
