import Xv6.Kernel.DescriptorTables
import Xv6.Kernel.OpenFiles

/-! # Descriptors of mappings

A process maps and unmaps memory, takes page faults, opens and closes files and exits.
The descriptor of a mapping is looked up when one of its pages is loaded and when it is
unmapped. A step keeps the descriptors of all mappings valid exactly when it keeps to
three rules.
-/
namespace Xv6.Kernel
open Wmap Program

section World

abbrev FileId := Fin NFILE × ℕ

/-- A process with the history of its files: how often each entry of the file table has been taken,
and the open file that each mapping was made for. In the loop of `sys_exit` there is the node that
comes next. -/
structure World where
  ctx : Ctx
  taken : Fin NFILE → ℕ
  origin : Ptr → Option FileId
  leaving : Option (Option Ptr)

def World.fileAt (w : World) (fd : Word) : Option FileId := (opened w.ctx fd).map fun k => (k,w.taken k)

inductive Act
  | wmap (addr length flags fd : Word)
  | wunmap (addr : Word)
  | fault (x : Word)
  | openFile (found : Option ℕ) (omode : Word)
  | close (fd : Word)
  | exit
  | round

def World.unmap (w : World) (addr : Word) : Option World :=
  match Kernel.wunmap addr w.ctx with
  | .ok _ s => some { w with ctx := s, origin := moved w.ctx.tab addr w.origin }
  | .error _ _ => none

def World.next (w : World) (c : Act) : Option World :=
  match w.leaving, c with
  | none, .wmap addr length flags fd =>
    match Kernel.wmap addr length flags fd w.ctx with
    | .ok r s => some { w with
        ctx := s
        origin := if r = -1 then w.origin
          else noted s.tab w.origin (if flags &&& MAP_ANONYMOUS = 0 then w.fileAt fd else none) }
    | .error _ _ => none
  | none, .wunmap addr => w.unmap addr
  | none, .fault x =>
    match pageFault x w.ctx with
    | .ok _ s => some { w with ctx := s }
    | .error _ _ => none
  | none, .openFile found omode =>
    match sysOpen found omode w.ctx with
    | .ok r s => some { w with
        ctx := s
        taken := if r = -1 then w.taken else fun k => if freeEntry w.ctx = some k then w.taken k+1 else w.taken k }
    | .error _ _ => none
  | none, .close fd =>
    match sysClose fd w.ctx with
    | .ok _ s => some { w with ctx := s }
    | .error _ _ => none
  | none, .exit => some { w with leaving := some (some (.slot 0)) }
  | some (some p), .round => (w.unmap (w.ctx.tab.deref p).startAddress).map fun w' =>
      { w' with leaving := some ((w.ctx.tab.deref p).next.map .pool) }
  | _, _ => none

def World.Valid (w : World) : Prop := ValidOn w.ctx.tab w.fileAt w.origin

/-- The table is well formed, references are counted, and anonymous pool nodes have no file. -/
structure World.Inv (w : World) : Prop where
  wf : WF w.ctx.tab
  counted : FilesCounted w.ctx
  plain : PlainOn w.ctx.tab w.origin

def Places (s : Ctx) (addr length flags : Word) : Prop := 0 < length.toInt ∧
  ∃ a u, place (PGROUNDDOWN addr) length flags s.initialised = .ok (some a) u

def Unmixed (s : Ctx) (addr : Word) : Prop := UnmixedOn s.tab (opened s) addr

/-- The rules: a file is mapped through a descriptor that is open, a descriptor is not closed while
a mapping names it, and an unmapping does not mix mappings. -/
def World.Meets (w : World) : Act → Prop
  | .wmap addr length flags fd => Places w.ctx addr length flags → flags &&& MAP_ANONYMOUS = 0 → opened w.ctx fd ≠ none
  | .wunmap addr => Unmixed w.ctx addr
  | .close fd => w.ctx.tab.hashInit ≠ -1 → ∀ p ∈ w.ctx.tab.allNodes, OfFile (w.ctx.tab.entry p) →
      (w.ctx.tab.entry p).fd ≠ fd
  | .round => ∀ p, w.leaving = some (some p) → Unmixed w.ctx (w.ctx.tab.deref p).startAddress
  | _ => True

end World

section Steps
variable {w w' : World} {s : Ctx}

theorem fileAt_congr {o : Ptr → Option FileId} {l : Option (Option Ptr)}
    (h : Keeps w.ctx s) : World.fileAt ⟨s,w.taken,o,l⟩ = w.fileAt := by
  funext fd
  unfold World.fileAt
  rw [h.opened]

theorem fileAt_eq_iff (w : World) (fd fd' : Word) : w.fileAt fd = w.fileAt fd' ↔ opened w.ctx fd = opened w.ctx fd' := by
  unfold World.fileAt
  refine ⟨fun h => Option.map_injective (fun k k' hk => (Prod.mk.inj hk).1) h,fun h => by rw [h]⟩

theorem unmixed_iff (w : World) (addr : Word) : UnmixedOn w.ctx.tab w.fileAt addr ↔ Unmixed w.ctx addr := by
  unfold Unmixed UnmixedOn
  simp only [fileAt_eq_iff]

theorem step_fault {x : Word} (hI : w.Inv) (h : pageFault x w.ctx = .ok () s) :
    World.Inv { w with ctx := s } ∧ (World.Valid { w with ctx := s } ↔ w.Valid) := by
  have hkeeps := (faulting_keeps.pageFault x).ok h
  have hsame := bumps_sameFiles ((dropping_pageFault x).ok h)
  refine ⟨⟨hsame.retouched.wf hI.wf,hkeeps.filesCounted hI.counted,hsame.plainOn.mpr hI.plain⟩,?_⟩
  unfold World.Valid
  rw [fileAt_congr hkeeps]
  exact hsame.validOn

theorem start_ne_of_missing {t : Table} {a : Word} {i : Slot} (h : pageInMappings t a = .ok none)
    (hi : slotOf a = .ok i) : (t.table i).startAddress ≠ a := by
  intro hstart
  have hsearch : hashSearch t a = .ok (some (.slot i)) := by
    unfold hashSearch searchSlot
    rw [hi]
    exact if_pos (decide_eq_true hstart)
  unfold pageInMappings at h
  rw [hsearch] at h
  cases h

theorem step_unmap {addr : Word} (hI : w.Inv) (hV : w.Valid) (h : w.unmap addr = some w') :
    w'.Inv ∧ w'.leaving = w.leaving ∧ (w'.Valid ↔ Unmixed w.ctx addr) := by
  unfold World.unmap at h
  split at h
  · rename_i r s hrun
    cases h
    have hkeeps := keeps_wunmap hrun
    have hfile := fileAt_congr (o := moved w.ctx.tab addr w.origin) (l := w.leaving) hkeeps
    rw [← unmixed_iff,World.Valid,hfile]
    rcases wunmap_ok hrun with ⟨hnone,-,rfl⟩ | ⟨p,t₁,r',t₂,-,-,hb₁,hrem,hb₂⟩
    · have hmissing (i : Slot) := start_ne_of_missing (i := i) hnone
      rcases moved_cases w.ctx.tab addr w.origin with ⟨hsame,-⟩ | ⟨i,k,hi,hstart,-,-⟩
      · rw [hsame]
        exact ⟨hI,rfl,fun _ _ i k hi hs => absurd hs (hmissing i hi),fun _ => hV⟩
      · exact absurd hstart (hmissing i hi)
    · have h₁ := bumps_sameFiles hb₁
      have h₂ := bumps_sameFiles hb₂
      have hw₁ := h₁.retouched.wf hI.wf
      obtain ⟨i,-,hspec⟩ := removeValue_removed hw₁ hrem
      have hp₁ := h₁.plainOn.mpr hI.plain
      refine ⟨⟨h₂.retouched.wf hspec.wf,hkeeps.filesCounted hI.counted,?_⟩,rfl,?_⟩
      · rw [h₂.plainOn,← h₁.moved]
        exact plainOn_remove hw₁ hp₁ hrem
      · rw [h₂.validOn,← h₁.moved,validOn_remove hw₁ hp₁ (h₁.validOn.mpr hV) hrem,h₁.unmixedOn]
  · cases h

theorem allNodes_initHashTable (t : Table) (v : ℤ) : Table.allNodes { initHashTable t with hashInit := v } = [] := by
  rw [Table.allNodes,List.flatMap_eq_nil_iff]
  exact fun i _ => if_pos rfl

theorem one_ne_neg_one : (1 : ℤ) ≠ -1 := by decide

theorem initialised_files {ι : Type} {t : Table} {F : Word → Option ι} {origin : Ptr → Option ι} (hw : WF t)
    (hp : PlainOn t origin) (hv : ValidOn t F origin) : WF (initialised t) ∧ (initialised t).hashInit ≠ -1 ∧
      PlainOn (initialised t) origin ∧ ValidOn (initialised t) F origin := by
  unfold initialised
  split
  · refine ⟨wf_of_unlinked fun _ => rfl,one_ne_neg_one,fun _ j hj => ?_,fun _ p hp => ?_⟩
    · rw [allNodes_initHashTable] at hj
      cases hj
    · rw [allNodes_initHashTable] at hp
      cases hp
  · rename_i hinit
    exact ⟨hw,hinit,hp,hv⟩

theorem step_wmap {addr length flags fd r : Word} (hI : w.Inv) (hV : w.Valid)
    (h : wmap addr length flags fd w.ctx = .ok r s) :
    let origin := if r = -1 then w.origin
      else noted s.tab w.origin (if flags &&& MAP_ANONYMOUS = 0 then w.fileAt fd else none)
    World.Inv { w with ctx := s, origin } ∧
      (World.Valid { w with ctx := s, origin } ↔ w.Meets (.wmap addr length flags fd)) := by
  intro origin
  have hkeeps := keeps_wmap h
  have hcounted := hkeeps.filesCounted hI.counted
  obtain ⟨hw₀,hinit₀,hp₀,hv₀⟩ := initialised_files hI.wf hI.plain hV
  unfold World.Valid
  rw [fileAt_congr hkeeps]
  rw [wmap_apply] at h
  split at h
  · rename_i hlen
    cases h
    refine ⟨⟨hw₀,hcounted,hp₀⟩,fun _ hplaces => ?_,fun _ => hv₀⟩
    have := hplaces.1
    omega
  · rename_i hlen
    cases hp : place (PGROUNDDOWN addr) length flags w.ctx.initialised with
    | error e u =>
      rw [hp] at h
      cases h
    | ok a u =>
      have hsame := bumps_sameFiles ((dropping_place _ _ _).ok hp)
      have hw₁ := hsame.retouched.wf hw₀
      have hp₁ := hsame.plainOn.mpr hp₀
      have hv₁ := hsame.validOn.mpr hv₀
      rw [hp] at h
      cases a with
      | none =>
        cases h
        refine ⟨⟨hw₁,hcounted,hp₁⟩,fun _ hplaces => ?_,fun _ => hv₁⟩
        obtain ⟨-,a,u',hplaced⟩ := hplaces
        rw [hp] at hplaced
        cases hplaced
      | some a =>
        dsimp only at h
        split at h
        · cases h
        · rename_i t hins
          cases h
          obtain ⟨i,hi,-⟩ := bind_ok hins
          have horigin : origin = noted t w.origin (if flags &&& MAP_ANONYMOUS = 0 then w.fileAt fd else none) :=
            if_neg (ne_empty_of_slotOf hi)
          obtain ⟨-,-,hwf,-⟩ := hashInsert_ok hw₁ hins
          have hinit₁ : u.tab.hashInit ≠ -1 := hsame.retouched.hashInit ▸ hinit₀
          have hplaces : Places w.ctx addr length flags := ⟨by omega,_,_,hp⟩
          have hnone : w.fileAt fd ≠ none ↔ opened w.ctx fd ≠ none := by rw [World.fileAt,Ne,Option.map_eq_none_iff]
          rw [horigin]
          refine ⟨⟨hwf,hcounted,plainOn_insert hw₁ hp₁ hins⟩,?_⟩
          dsimp only
          rw [validOn_insert hw₁ hinit₁ hv₁ hins,hnone]
          exact ⟨fun hfd _ => hfd,fun hfd => hfd hplaces⟩

theorem step_open {found : Option ℕ} {omode r : Word} (hI : w.Inv) (hV : w.Valid)
    (h : sysOpen found omode w.ctx = .ok r s) :
    let taken := if r = -1 then w.taken else fun k => if freeEntry w.ctx = some k then w.taken k+1 else w.taken k
    World.Inv { w with ctx := s, taken } ∧ World.Valid { w with ctx := s, taken } := by
  intro taken
  have hopen := sysOpen_ok h
  have hcounted := sysOpen_counted hI.counted hopen
  cases hopen with
  | failed hr htab hkeeps =>
    have htaken : taken = w.taken := if_pos hr
    refine ⟨⟨htab ▸ hI.wf,hcounted,htab ▸ hI.plain⟩,?_⟩
    unfold World.Valid
    rw [htaken,fileAt_congr hkeeps,htab]
    exact hV
  | done f j hr htab hfree hj hofile href =>
    refine ⟨⟨htab ▸ hI.wf,hcounted,htab ▸ hI.plain⟩,?_⟩
    have htaken : taken = fun k => if freeEntry w.ctx = some k then w.taken k+1 else w.taken k := if_neg hr
    unfold World.Valid
    rw [htab]
    intro hinit p hp hfile
    obtain ⟨file,h1,h2⟩ := hV hinit p hp hfile
    refine ⟨file,?_,h2⟩
    -- an open file has a reference, so that its entry is not the one that was taken
    unfold World.fileAt at h1 ⊢
    obtain ⟨k,hk,rfl⟩ := Option.map_eq_some_iff.mp h1
    have hpos := hI.counted.ref_pos hk
    have hne : freeEntry w.ctx ≠ some k := fun he => by
      have := freeEntry_ref he
      omega
    have hk' : opened s (w.ctx.tab.entry p).fd = some k := by
      unfold opened at hk ⊢
      split at hk
      · rename_i hlt
        rw [dif_pos hlt,hofile,Function.update_apply,if_neg]
        · exact hk
        · intro he
          rw [he,hj] at hk
          cases hk
      · cases hk
    rw [hk',htaken,Option.map_some]
    dsimp only
    rw [if_neg hne]

theorem step_close {fd r : Word} (hI : w.Inv) (hV : w.Valid) (h : sysClose fd w.ctx = .ok r s) :
    World.Inv { w with ctx := s } ∧ (World.Valid { w with ctx := s } ↔ w.Meets (.close fd)) := by
  have hcounted := sysClose_counted hI.counted h
  rcases sysClose_ok h with ⟨hnone,rfl⟩ | ⟨k,hk,htab,-,hofile,-⟩
  · refine ⟨hI,fun _ hinit p hp hfile he => ?_,fun _ => hV⟩
    obtain ⟨file,h1,-⟩ := hV hinit p hp hfile
    rw [World.fileAt,he,hnone] at h1
    cases h1
  · have hother {fd' : Word} (hne : fd' ≠ fd) : World.fileAt { w with ctx := s } fd' = w.fileAt fd' := by
      have : fd'.toNat ≠ fd.toNat := fun he => hne (BitVec.eq_of_toNat_eq he)
      unfold World.fileAt opened
      rw [hofile]
      split
      · dsimp only
        rw [if_neg this]
      · rfl
    have hsame : World.fileAt { w with ctx := s } fd = none := by
      unfold World.fileAt opened
      rw [hofile]
      split
      · dsimp only
        rw [if_pos rfl]
        rfl
      · rfl
    refine ⟨⟨htab ▸ hI.wf,hcounted,htab ▸ hI.plain⟩,?_⟩
    unfold World.Valid
    rw [htab]
    constructor
    · intro hv hinit p hp hfile he
      obtain ⟨file,h1,-⟩ := hv hinit p hp hfile
      rw [he,hsame] at h1
      cases h1
    · intro hrule hinit p hp hfile
      rw [hother (hrule hinit p hp hfile)]
      exact hV hinit p hp hfile

/-- A step from a valid state leads to a valid state if and only if it keeps to the rules. -/
theorem step_valid {c : Act} (hI : w.Inv) (hV : w.Valid) (h : w.next c = some w') :
    w'.Inv ∧ (w'.Valid ↔ w.Meets c) := by
  unfold World.next at h
  split at h
  · split at h
    · rename_i hrun
      cases h
      exact step_wmap hI hV hrun
    · cases h
  · obtain ⟨h1,-,h2⟩ := step_unmap hI hV h
    exact ⟨h1,h2⟩
  · split at h
    · rename_i hrun
      cases h
      obtain ⟨h1,h2⟩ := step_fault hI hrun
      exact ⟨h1,fun _ => trivial,fun _ => h2.mpr hV⟩
    · cases h
  · split at h
    · rename_i hrun
      cases h
      obtain ⟨h1,h2⟩ := step_open hI hV hrun
      exact ⟨h1,fun _ => trivial,fun _ => h2⟩
    · cases h
  · split at h
    · rename_i hrun
      cases h
      exact step_close hI hV hrun
    · cases h
  · cases h
    exact ⟨⟨hI.wf,hI.counted,hI.plain⟩,fun _ => trivial,fun _ => hV⟩
  · rename_i p hleaving
    obtain ⟨w₁,h1,rfl⟩ := Option.map_eq_some_iff.mp h
    obtain ⟨hI',-,hiff⟩ := step_unmap hI hV h1
    refine ⟨⟨hI'.wf,hI'.counted,hI'.plain⟩,?_⟩
    refine Iff.trans (b := Unmixed w.ctx (w.ctx.tab.deref p).startAddress) hiff ⟨fun hu q hq => ?_,fun hu => hu p hleaving⟩
    rw [hleaving] at hq
    cases hq
    exact hu
  · cases h

end Steps
end Xv6.Kernel
