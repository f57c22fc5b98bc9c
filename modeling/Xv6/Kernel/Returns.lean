import Xv6.Kernel.CallEffects

/-! # What a call that returns has done to the table

One inversion lemma per call. Page faults on the way appear as sequences of loaded
pages; they change no address, length or page count.
-/
namespace Xv6.Kernel
open Wmap Program Relation
variable {α : Type} {s s' : Ctx} {t t' : Table}

abbrev Bumps := ReflTransGen Bump

def initialised (t : Table) : Table := if t.hashInit = -1 then { initHashTable t with hashInit := 1 } else t

def Ctx.initialised (s : Ctx) : Ctx := { s with tab := Kernel.initialised s.tab }

theorem initTable_apply (s : Ctx) : initTable s = .ok () s.initialised := by
  rw [initTable,modify_apply,Ctx.initialised,initialised]
  split <;> rfl

theorem onTable_eq_ok {g : Table → Except Stop α} {a : α} (h : onTable g s = .ok a s') :
    g s.tab = .ok a ∧ s' = s := by
  rw [onTable_apply] at h
  cases hg : g s.tab with
  | ok b =>
    rw [hg] at h
    cases h
    exact ⟨rfl,rfl⟩
  | error e =>
    rw [hg] at h
    cases h

theorem onTable_bind_ok {β : Type} {g : Table → Except Stop α} {f : α → KernelM β} {b : β}
    (h : (onTable g >>= f) s = .ok b s') : ∃ a, g s.tab = .ok a ∧ f a s = .ok b s' := by
  obtain ⟨a,u,ha,hf⟩ := bind_eq_ok.mp h
  obtain ⟨ha,hu⟩ := onTable_eq_ok ha
  exact ⟨a,ha,hu ▸ hf⟩

theorem get_bind_apply {β : Type} (f : Ctx → KernelM β) (s : Ctx) : (get >>= f) s = f s s := rfl

theorem setTable_bind_apply {β : Type} (t : Table) (f : Unit → KernelM β) (s : Ctx) :
    (setTable t >>= f) s = f () { s with tab := t } := rfl

inductive Placed (s s' : Ctx) (addr length flags a : Word) : Prop
  | fixed : flags &&& MAP_FIXED ≠ 0 → 0x60000000 ≤ addr → addr < 0x80000000 → s' = s → a = addr →
    pageInMappings s.tab addr = .ok none → Placed s s' addr length flags a
  | found (base : Word) : flags &&& MAP_FIXED = 0 → searchBase addr s = .ok base s' →
    placeLoop s'.tab (roundLength length) base (2^32) base = .ok a → Placed s s' addr length flags a

theorem place_ok {addr length flags : Word} {r : Option Word} (h : place addr length flags s = .ok r s') :
    (r = none ∧ s' = s) ∨ ∃ a, r = some a ∧ Placed s s' addr length flags a := by
  unfold place at h
  split at h
  · rename_i hfixed
    split at h
    · cases h
      exact .inl ⟨rfl,rfl⟩
    · rename_i hwin
      obtain ⟨p,hp,h'⟩ := onTable_bind_ok h
      cases p with
      | some p =>
        cases h'
        exact .inl ⟨rfl,rfl⟩
      | none =>
        cases h'
        rw [not_or,BitVec.not_lt,BitVec.not_le] at hwin
        exact .inr ⟨addr,rfl,.fixed hfixed hwin.1 hwin.2 rfl rfl hp⟩
  · rename_i hfixed
    obtain ⟨base,u,hbase,h'⟩ := bind_eq_ok.mp h
    obtain ⟨a,ha,h''⟩ := onTable_bind_ok h'
    cases h''
    exact .inr ⟨a,rfl,.found base (not_not.mp hfixed) hbase ha⟩

theorem wmap_ok {addr length flags fd v : Word} (h : wmap addr length flags fd s = .ok v s') :
    (v = -1 ∧ s' = s.initialised) ∨ ∃ u, 0 < length.toInt ∧
      Placed s.initialised u (PGROUNDDOWN addr) length flags v ∧
      hashInsert u.tab v length ((roundLength length).sdiv 4096) fd flags = .ok s'.tab ∧
      s' = { u with tab := s'.tab } := by
  unfold wmap at h
  rw [bind_of_ok (initTable_apply s)] at h
  split at h
  · cases h
    exact .inl ⟨rfl,rfl⟩
  · rename_i hlen
    obtain ⟨r,u,hr,h'⟩ := bind_eq_ok.mp h
    rcases place_ok hr with ⟨rfl,rfl⟩ | ⟨a,rfl,hplaced⟩
    · cases h'
      exact .inl ⟨rfl,rfl⟩
    · obtain ⟨t,ht,h''⟩ := onTable_bind_ok h'
      cases h''
      exact .inr ⟨u,by omega,hplaced,ht,rfl⟩

theorem wmap_apply (addr length flags fd : Word) (s : Ctx) : wmap addr length flags fd s =
    if length.toInt ≤ 0 then .ok (-1) s.initialised
    else match place (PGROUNDDOWN addr) length flags s.initialised with
      | .error e u => .error e u
      | .ok none u => .ok (-1) u
      | .ok (some a) u =>
        match hashInsert u.tab a length ((roundLength length).sdiv 4096) fd flags with
        | .error e => .error e u
        | .ok t => .ok a { u with tab := t } := by
  unfold wmap
  rw [bind_of_ok (initTable_apply s)]
  split
  · rfl
  · rw [bind_apply]
    cases place (PGROUNDDOWN addr) length flags s.initialised with
    | error e u => rfl
    | ok r u =>
      cases r with
      | none => rfl
      | some a =>
        dsimp only
        rw [bind_apply,onTable_apply]
        cases hashInsert u.tab a length ((roundLength length).sdiv 4096) fd flags <;> rfl

theorem wunmap_ok {addr v : Word} (h : wunmap addr s = .ok v s') :
    (pageInMappings s.tab addr = .ok none ∧ v = -1 ∧ s' = s) ∨
    ∃ p t₁ r t₂, pageInMappings s.tab addr = .ok (some p) ∧ v = 0 ∧ Bumps s.tab t₁ ∧
      removeValue t₁ addr = .ok (r,t₂) ∧ Bumps t₂ s'.tab := by
  obtain ⟨p,hp,h1⟩ := onTable_bind_ok h
  cases p with
  | none =>
    cases h1
    exact .inl ⟨hp,rfl,rfl⟩
  | some p =>
    dsimp only at h1
    rw [get_bind_apply] at h1
    obtain ⟨_,u₁,hback,h2⟩ := bind_eq_ok.mp h1
    obtain ⟨⟨r,t₂⟩,hrem,h3⟩ := onTable_bind_ok h2
    dsimp only at h3
    rw [setTable_bind_apply,get_bind_apply] at h3
    obtain ⟨_,u₂,hfree,h4⟩ := bind_eq_ok.mp h3
    obtain ⟨_,u₃,hclear,h5⟩ := bind_eq_ok.mp h4
    cases h5
    refine .inr ⟨p,u₁.tab,r,t₂,hp,rfl,(dropping_writeBack _).ok hback,hrem,?_⟩
    exact ((dropping_freeLoop _ _ _).ok hfree).trans ((dropping_clearLoop _ _ _).ok hclear)

/-- The mapping that `wremap` is called for, with its length. -/
structure Named (t : Table) (oldaddr oldsize : Word) (p : Ptr) : Prop where
  found : pageInMappings t oldaddr = .ok (some p)
  length : (t.deref p).length = oldsize

/-- A call of `wremap` that returns: it fails, it sets the length of the mapping it found, or it
makes a new mapping and removes the old one. -/
inductive Remapped (s s' : Ctx) (oldaddr oldsize newsize flags : Word) : Prop
  | failed : s'.tab = s.tab → Remapped s s' oldaddr oldsize newsize flags
  | resized (p : Ptr) : Named s.tab oldaddr oldsize p →
    newsize.toInt < oldsize.toInt ∨ canGrowInPlace s.tab oldaddr oldsize newsize = .ok true →
    s'.tab = s.tab.setNode p { s.tab.deref p with length := newsize } →
    Remapped s s' oldaddr oldsize newsize flags
  | moved (p : Ptr) (u v : Ctx) (newaddr r : Word) : Named s.tab oldaddr oldsize p →
    canGrowInPlace s.tab oldaddr oldsize newsize = .ok false → flags &&& MREMAP_MAYMOVE ≠ 0 →
    wmap MMAPBASE newsize ((s.tab.deref p).flags-MAP_FIXED) (s.tab.deref p).fd s = .ok newaddr u →
    newaddr ≠ -1 → Bumps u.tab v.tab → wunmap oldaddr v = .ok r s' →
    Remapped s s' oldaddr oldsize newsize flags
  | unmoved (p : Ptr) : Named s.tab oldaddr oldsize p →
    canGrowInPlace s.tab oldaddr oldsize newsize = .ok false → flags &&& MREMAP_MAYMOVE ≠ 0 →
    wmap MMAPBASE newsize ((s.tab.deref p).flags-MAP_FIXED) (s.tab.deref p).fd s = .ok (-1) s' →
    Remapped s s' oldaddr oldsize newsize flags

theorem wremap_ok {oldaddr oldsize newsize flags v : Word}
    (h : wremap oldaddr oldsize newsize flags s = .ok v s') : Remapped s s' oldaddr oldsize newsize flags := by
  obtain ⟨p,hp,h1⟩ := onTable_bind_ok h
  cases p with
  | none =>
    cases h1
    exact .failed rfl
  | some p =>
    dsimp only at h1
    rw [get_bind_apply] at h1
    split at h1
    · cases h1
      exact .failed rfl
    · rename_i hlen
      have hnamed : Named s.tab oldaddr oldsize p := ⟨hp,not_not.mp hlen⟩
      split at h1
      · rename_i hlt
        obtain ⟨_,u,hpart,h2⟩ := bind_eq_ok.mp h1
        have hu := (quiet_wunmapPartial _ _).ok hpart
        cases h2
        refine .resized p hnamed (.inl hlt) ?_
        dsimp only
        rw [hu]
      · split at h1
        · obtain ⟨grow,hgrow,h2⟩ := onTable_bind_ok h1
          cases grow with
          | true =>
            cases h2
            exact .resized p hnamed (.inr hgrow) rfl
          | false =>
            split at h2
            · rename_i hfalse
              cases hfalse
            · split at h2
              · rename_i hflag
                obtain ⟨newaddr,u,hmap,h3⟩ := bind_eq_ok.mp h2
                split at h3
                · rename_i hnew
                  obtain ⟨_,w,hmove,h4⟩ := bind_eq_ok.mp h3
                  obtain ⟨r,x,hunmap,h5⟩ := bind_eq_ok.mp h4
                  cases h5
                  exact .moved p u w _ r hnamed hgrow hflag hmap hnew ((dropping_memmove _ _ _).ok hmove) hunmap
                · rename_i hnew
                  rw [not_not.mp hnew] at hmap
                  cases h3
                  exact .unmoved p hnamed hgrow hflag hmap
              · cases h2
                exact .failed rfl
        · cases h1
          exact .failed rfl

theorem sysGetwmapinfo_ok {l : List Info} (h : sysGetwmapinfo s = .ok l s') :
    getwmapinfo s.tab = .ok (l,s'.tab) ∧ s' = { s with tab := s'.tab } := by
  obtain ⟨⟨infos,t⟩,hinfo,h1⟩ := onTable_bind_ok h
  cases h1
  exact ⟨hinfo,rfl⟩

end Xv6.Kernel
