import Xv6.Bio.System

/-! # The shared cache refines a plain array of blocks

Every section of the code changes one buffer, and the process that runs it is concerned with
that buffer alone. The count of a buffer is exact, so a buffer in use is never recycled.
-/
namespace Xv6.Bio.Shared
open Program Runs Tally Function

section Plain

inductive Plain : Disk → Event → Disk → Prop
  | read (V : Disk) (b : ℕ) : Plain V (.read b (V b)) V
  | store (V : Disk) (b : ℕ) (data : Block) : Plain V (.store b data) (Function.update V b data)

def Event.stores (b : ℕ) : Event → Option Block
  | .read _ _ => none
  | .store a data => if a = b then some data else none

def latest (d : Disk) (b : ℕ) (es : List Event) : Block := ((es.filterMap (Event.stores b)).getLast?).getD (d b)

variable {d V : Disk} {es rest : List Event} {b : ℕ} {data : Block}

theorem plain_latest (h : Run Plain d es V) : V b = latest d b es := by
  induction h with
  | nil => rfl
  | snoc _ hlast ih =>
    rw [latest,List.filterMap_append]
    cases hlast with
    | read a =>
      rw [ih,latest]
      simp [Event.stores]
    | store a v =>
      by_cases ha : a = b
      · subst ha
        simp [Event.stores]
      · rw [update_of_ne (Ne.symm ha),ih,latest]
        simp [Event.stores,ha]

theorem plain_read (h : Run Plain d es V) (hes : es = rest ++ [.read b data]) : data = latest d b rest := by
  cases h with
  | nil => simp at hes
  | snoc hrun hlast =>
    obtain ⟨rfl,he⟩ := List.append_inj' hes rfl
    cases List.singleton_inj.mp he
    cases hlast
    exact plain_latest hrun

end Plain

def uses (i : Fin NBUF) : Phase → Bool
  | .acquiring j _ => j = i
  | .releasing j => j = i
  | _ => false

def about : Phase → Option (Fin NBUF)
  | .idle => none
  | .acquiring i _ => some i
  | .reading i _ => some i
  | .releasing i => some i

theorem uses_about {i : Fin NBUF} {ph : Phase} (h : uses i ph = true) : about ph = some i := by
  cases ph with
  | idle => cases h
  | acquiring j b => simpa [uses,about] using h
  | reading j b => cases h
  | releasing j => simpa [uses,about] using h

variable {Pid : Type} [Fintype Pid] {s t : Sys Pid} {V W : Disk} {p q : Pid} {i j : Fin NBUF} {b : ℕ}

/-- What is known about buffer `i`, its holder `ho` and its mark `m` while the file system sees `V`. -/
structure Entry (V : Disk) (phase : Pid → Phase) (i : Fin NBUF) (n : Buf) (ho : Option Pid) (m : Bool) : Prop where
  locked : n.locked = ho.isSome
  refcnt : n.refcnt = tally phase (uses i)+ho.isSome.toNat
  dirty : n.dirty = true → n.dev = ROOTDEV ∧ n.valid = true
  data : n.dev = ROOTDEV → n.valid = true → m = false → n.data = V n.blockno
  modified : m = true → ho.isSome = true
  held : ∀ p, ho = some p → n.dev = ROOTDEV ∧ (n.valid = true ∨ ∃ b, phase p = .reading i b)

structure Coherent (V : Disk) (s : Sys Pid) : Prop where
  lru_nodup : s.cache.lru.Nodup
  mem_lru : ∀ i, i ∈ s.cache.lru
  unique : ∀ i j, (s.cache.buf i).dev = ROOTDEV → (s.cache.buf j).dev = ROOTDEV →
    (s.cache.buf i).blockno = (s.cache.buf j).blockno → i = j
  entry : ∀ i, Entry V s.phase i (s.cache.buf i) (s.holder i) (s.modified i)
  clean : ∀ b, (∀ i, (s.cache.buf i).dirty = true → (s.cache.buf i).blockno ≠ b) → s.cache.disk b = V b
  place : ∀ p i b, s.phase p = .acquiring i b ∨ s.phase p = .reading i b →
    (s.cache.buf i).dev = ROOTDEV ∧ (s.cache.buf i).blockno = b
  reading : ∀ p i b, s.phase p = .reading i b → s.holder i = some p ∧ s.modified i = false

theorem coherent_start (d : Disk) : Coherent d (start d : Sys Pid) where
  lru_nodup := (boot_indexed d).lru_nodup
  mem_lru := (boot_indexed d).mem_lru
  unique := (boot_indexed d).unique
  entry i := by
    refine ⟨rfl,?_,nofun,nofun,nofun,nofun⟩
    rw [tally_eq_zero fun _ => rfl]
    rfl
  clean b _ := rfl
  place := nofun
  reading := nofun

/-- A buffer that nobody uses is not held, and no call is about it. -/
theorem Coherent.unused (h : Coherent V s) (hi : (s.cache.buf i).refcnt = 0) :
    s.holder i = none ∧ ∀ p, about (s.phase p) ≠ some i := by
  have hcount := (h.entry i).refcnt
  have hholder : s.holder i = none := by
    cases hh : s.holder i with
    | none => rfl
    | some q =>
      rw [hh,hi] at hcount
      simp at hcount
  refine ⟨hholder,fun p hp => ?_⟩
  cases hph : s.phase p with
  | idle => simp [hph,about] at hp
  | reading j b =>
    simp only [hph,about,Option.some.injEq] at hp
    subst hp
    rw [(h.reading p j b hph).1] at hholder
    cases hholder
  | acquiring j b | releasing j =>
    simp only [hph,about,Option.some.injEq] at hp
    subst hp
    have hpos : 0 < tally s.phase (uses j) := tally_pos (i := p) (by simp [hph,uses])
    omega

/-- Process `p` goes on as `ph`. Buffer `i` becomes `n` with holder `ho` and mark `m`. -/
structure Change (s t : Sys Pid) (p : Pid) (ph : Phase) (i : Fin NBUF) (n : Buf) (ho : Option Pid) (m : Bool) : Prop where
  phase : ∀ q, q ≠ p → t.phase q = s.phase q
  others : ∀ j, j ≠ i → t.cache.buf j = s.cache.buf j ∧ t.holder j = s.holder j ∧ t.modified j = s.modified j
  here : t.phase p = ph
  buf : t.cache.buf i = n
  holder : t.holder i = ho
  modified : t.modified i = m

section Changes
variable {ph : Phase} {n : Buf} {ho : Option Pid} {m : Bool}

theorem Change.tally [DecidableEq Pid] (h : Change s t p ph i n ho m) (j : Fin NBUF) :
    tally t.phase (uses j)+(uses j (s.phase p)).toNat = tally s.phase (uses j)+(uses j ph).toNat := by
  have hphase : t.phase = update s.phase p ph := by
    funext q
    by_cases hq : q = p
    · subst hq
      rw [update_self,h.here]
    · rw [update_of_ne hq,h.phase q hq]
  rw [hphase]
  exact tally_update s.phase (uses j) p ph

omit [Fintype Pid] in
theorem Change.of [DecidableEq Pid] (hphase : t.phase = Function.update s.phase p ph)
    (hbuf : t.cache.buf = (s.cache.setBuf i n).buf) (hholder : t.holder = Function.update s.holder i ho)
    (hmodified : t.modified = Function.update s.modified i m) : Change s t p ph i n ho m where
  phase q hq := by rw [hphase,update_of_ne hq]
  others j hj := by
    rw [hbuf,hholder,hmodified,update_of_ne hj,update_of_ne hj]
    exact ⟨setBuf_ne _ hj _,rfl,rfl⟩
  here := by rw [hphase,update_self]
  buf := (congrFun hbuf i).trans (setBuf_self _ _ _)
  holder := by rw [hholder,update_self]
  modified := by rw [hmodified,update_self]

/-- The count stays exact if it changes by what the process and the holder do. -/
theorem Change.refcnt [DecidableEq Pid] (hc : Change s t p ph i n ho m)
    (he : Entry V s.phase i (s.cache.buf i) (s.holder i) (s.modified i))
    (hn : n.refcnt+(uses i (s.phase p)).toNat+(s.holder i).isSome.toNat =
      (s.cache.buf i).refcnt+(uses i ph).toNat+ho.isSome.toNat) :
    n.refcnt = Tally.tally t.phase (uses i)+ho.isSome.toNat := by
  have htally := hc.tally i
  have hcount := he.refcnt
  omega

theorem Change.held {a : Fin NBUF} (hc : Change s t p ph i n ho m)
    (he : Entry V s.phase a (s.cache.buf a) (s.holder a) (s.modified a)) (hp : ∀ b, s.phase p ≠ .reading a b) (q : Pid)
    (hq : s.holder a = some q) : (s.cache.buf a).dev = ROOTDEV ∧ ((s.cache.buf a).valid = true ∨ ∃ b, t.phase q = .reading a b) := by
  refine ⟨(he.held q hq).1,(he.held q hq).2.imp_right ?_⟩
  rintro ⟨b,hb⟩
  exact ⟨b,(hc.phase q fun hqp => hp b (hqp ▸ hb)).trans hb⟩

theorem Entry.unmodified {phase : Pid → Phase} (he : Entry V phase i n none m) : m = false :=
  Bool.eq_false_iff.mpr fun hm => nomatch he.modified hm

variable (hc : Change s t p ph i n ho m) (hbefore : ∀ j, about (s.phase p) = some j → j = i)
  (hafter : ∀ j, about ph = some j → j = i)
include hc hbefore hafter

theorem Change.entry [DecidableEq Pid] (hj : j ≠ i) (he : Entry V s.phase j (s.cache.buf j) (s.holder j) (s.modified j))
    (hV : (s.cache.buf j).dev = ROOTDEV → W (s.cache.buf j).blockno = V (s.cache.buf j).blockno) :
    Entry W t.phase j (s.cache.buf j) (s.holder j) (s.modified j) := by
  have hfalse : ∀ x, (∀ k, about x = some k → k = i) → uses j x = false :=
    fun x hx => Bool.eq_false_iff.mpr fun hu => hj (hx j (uses_about hu))
  have htally := hc.tally j
  rw [hfalse _ hbefore,hfalse _ hafter] at htally
  refine ⟨he.locked,he.refcnt.trans (congrArg (· + _) htally.symm),he.dirty,?_,he.modified,?_⟩
  · intro hdev hv hm
    rw [hV hdev]
    exact he.data hdev hv hm
  · exact hc.held he fun b hb => hj (hbefore j (by rw [hb,about]))

theorem Coherent.change [DecidableEq Pid] (h : Coherent V s) (hnodup : t.cache.lru.Nodup)
    (hmem : ∀ j, j ∈ t.cache.lru)
    (hunique : ∀ j, j ≠ i → n.dev = ROOTDEV → (s.cache.buf j).dev = ROOTDEV → (s.cache.buf j).blockno ≠ n.blockno)
    (hV : ∀ j, j ≠ i → (s.cache.buf j).dev = ROOTDEV → W (s.cache.buf j).blockno = V (s.cache.buf j).blockno)
    (hentry : Entry W t.phase i n ho m)
    (hclean : ∀ b, (n.dirty = true → n.blockno ≠ b) →
      (∀ j, j ≠ i → (s.cache.buf j).dirty = true → (s.cache.buf j).blockno ≠ b) → t.cache.disk b = W b)
    (hplace : ∀ q b, t.phase q = .acquiring i b ∨ t.phase q = .reading i b → n.dev = ROOTDEV ∧ n.blockno = b)
    (hreading : ∀ q b, t.phase q = .reading i b → ho = some q ∧ m = false) : Coherent W t := by
  have helse : ∀ q j, j ≠ i → about (t.phase q) = some j → t.phase q = s.phase q := by
    intro q j hj hq
    refine hc.phase q ?_
    rintro rfl
    rw [hc.here] at hq
    exact hj (hafter j hq)
  refine ⟨hnodup,hmem,?_,?_,?_,?_,?_⟩
  · intro j k hdj hdk hb
    by_cases hj : j = i
    · subst hj
      by_contra hk
      rw [hc.buf] at hdj hb
      rw [(hc.others k (Ne.symm hk)).1] at hdk hb
      exact hunique k (Ne.symm hk) hdj hdk hb.symm
    · rw [(hc.others j hj).1] at hdj hb
      by_cases hk : k = i
      · subst hk
        rw [hc.buf] at hdk hb
        exact absurd hb (hunique j hj hdk hdj)
      · rw [(hc.others k hk).1] at hdk hb
        exact h.unique j k hdj hdk hb
  · intro j
    by_cases hj : j = i
    · subst hj
      rw [hc.buf,hc.holder,hc.modified]
      exact hentry
    · obtain ⟨hbuf,hholder,hmodified⟩ := hc.others j hj
      rw [hbuf,hholder,hmodified]
      exact hc.entry hbefore hafter hj (h.entry j) (hV j hj)
  · intro b hb
    refine hclean b ?_ fun j hj => ?_
    · rw [← hc.buf]
      exact hb i
    · rw [← (hc.others j hj).1]
      exact hb j
  · intro q j b hq
    by_cases hj : j = i
    · subst hj
      rw [hc.buf]
      exact hplace q b hq
    · rw [(hc.others j hj).1]
      refine h.place q j b ?_
      rw [← helse q j hj (by rcases hq with hq | hq <;> rw [hq,about])]
      exact hq
  · intro q j b hq
    by_cases hj : j = i
    · subst hj
      rw [hc.holder,hc.modified]
      exact hreading q b hq
    · obtain ⟨_,hholder,hmodified⟩ := hc.others j hj
      rw [hholder,hmodified]
      exact h.reading q j b ((helse q j hj (by rw [hq,about])).symm.trans hq)

theorem Coherent.keep [DecidableEq Pid] (h : Coherent V s) (hnodup : t.cache.lru.Nodup)
    (hmem : ∀ j, j ∈ t.cache.lru) (hdev : n.dev = (s.cache.buf i).dev) (hblock : n.blockno = (s.cache.buf i).blockno)
    (hV : ∀ b, b ≠ n.blockno → W b = V b) (hentry : Entry W t.phase i n ho m)
    (hclean : ∀ b, (n.dirty = true → n.blockno ≠ b) →
      (∀ j, j ≠ i → (s.cache.buf j).dirty = true → (s.cache.buf j).blockno ≠ b) → t.cache.disk b = W b)
    (hplace : ∀ b, ph = .acquiring i b ∨ ph = .reading i b → n.dev = ROOTDEV ∧ n.blockno = b)
    (hreading : ∀ b, ph = .reading i b → ho = some p ∧ m = false)
    (hothers : ∀ q, q ≠ p → s.holder i = some q → ho = some q ∧ m = s.modified i) (hroot : n.dev = ROOTDEV) :
    Coherent W t := by
  have hunique : ∀ j, j ≠ i → (s.cache.buf j).dev = ROOTDEV → (s.cache.buf j).blockno ≠ n.blockno := by
    intro j hj hdj hb
    exact hj (h.unique j i hdj (hdev ▸ hroot) (hb.trans hblock))
  refine h.change hc hbefore hafter hnodup hmem (fun j hj _ => hunique j hj) ?_ hentry hclean ?_ ?_
  · exact fun j hj hdj => hV _ (hunique j hj hdj)
  · intro q b hq
    by_cases hqp : q = p
    · subst hqp
      rw [hc.here] at hq
      exact hplace b hq
    · rw [hc.phase q hqp] at hq
      rw [hdev,hblock]
      exact h.place q i b hq
  · intro q b hq
    by_cases hqp : q = p
    · subst hqp
      rw [hc.here] at hq
      exact hreading b hq
    · rw [hc.phase q hqp] at hq
      obtain ⟨hholder,hmodified⟩ := h.reading q i b hq
      obtain ⟨h1,h2⟩ := hothers q hqp hholder
      exact ⟨h1,h2.trans hmodified⟩

end Changes

end Xv6.Bio.Shared
