import Xv6.Bio.Coherence

/-! # Every section keeps the cache coherent

One lemma for each section of the code; the run lemma replays the recorded reads and stores
on the plain array.
-/
namespace Xv6.Bio.Shared
open Program Runs Tally Function
variable {Pid : Type} [Fintype Pid] [DecidableEq Pid] {s t : Sys Pid} {V W : Disk} {p q : Pid} {i j : Fin NBUF} {b : ℕ}

section Inversion
variable {c d : Bcache}

omit [Fintype Pid] in
theorem run_some {α : Type} {x : BioM α} {ph : α → Phase} (h : s.run x p ph = some t) :
    ∃ a c, x s.cache = .ok a c ∧ t = { s with cache := c, phase := Function.update s.phase p (ph a) } := by
  simp only [Sys.run] at h
  split at h
  · rename_i a c hx
    cases h
    exact ⟨a,c,hx,rfl⟩
  · cases h

omit [Fintype Pid] in
theorem run_bind_some {α : Type} {x : BioM α} {ph : α → Phase} {g : Sys Pid → Sys Pid}
    (h : (do let u ← s.run x p ph; some (g u)) = some t) :
    ∃ a c, x s.cache = .ok a c ∧ t = g { s with cache := c, phase := Function.update s.phase p (ph a) } := by
  obtain ⟨u,hu,ht⟩ := Option.bind_eq_some_iff.mp h
  obtain ⟨a,c,hc,rfl⟩ := run_some hu
  cases ht
  exact ⟨a,c,hc,rfl⟩

theorem lookup_ok (h : lookup b c = .ok i d) :
    (c.cached b i = true ∧ d = c.setBuf i { c.buf i with refcnt := (c.buf i).refcnt + 1 }) ∨
    (c.lru.find? (c.cached b) = none ∧ c.unused i = true ∧ d = c.setBuf i { c.buf i with
      dev := ROOTDEV, blockno := b, valid := false, dirty := false, refcnt := 1 }) := by
  simp only [lookup,bind_apply,get_apply] at h
  cases hf : c.lru.find? (c.cached b) with
  | some k =>
    simp only [hf,bind_apply,set_apply,pure_apply,EStateM.Result.ok.injEq] at h
    obtain ⟨rfl,rfl⟩ := h
    exact .inl ⟨List.find?_some hf,rfl⟩
  | none =>
    cases hr : c.lru.reverse.find? c.unused with
    | some k =>
      simp only [hf,hr,bind_apply,set_apply,pure_apply,EStateM.Result.ok.injEq] at h
      obtain ⟨rfl,rfl⟩ := h
      exact .inr ⟨rfl,List.find?_some hr,rfl⟩
    | none =>
      simp only [hf,hr,throw_apply] at h
      cases h

theorem fill_ok (hl : (c.buf i).locked = true) (hd : (c.buf i).dirty = true → (c.buf i).valid = true)
    (h : fill i c = .ok () d) :
    ((c.buf i).valid = true ∧ d = c) ∨ ((c.buf i).valid = false ∧ (c.buf i).dirty = false ∧ d = loaded c i) := by
  simp only [fill,bind_apply,get_apply] at h
  cases hv : (c.buf i).valid with
  | true =>
    simp only [hv,Bool.not_true,Bool.false_eq_true,↓reduceIte,pure_apply,EStateM.Result.ok.injEq,true_and] at h
    exact .inl ⟨rfl,h.symm⟩
  | false =>
    have hclean : (c.buf i).dirty = false := by
      refine Bool.eq_false_iff.mpr fun hdirty => ?_
      rw [hd hdirty] at hv
      cases hv
    simp only [hv,Bool.not_false,↓reduceIte,iderw_read hl hv hclean] at h
    split at h
    · cases h
    · cases h
      exact .inr ⟨rfl,hclean,rfl⟩

theorem bwrite_ok (h : bwrite i c = .ok () d) : d =
    { c.setBuf i { c.buf i with valid := true, dirty := false } with
      disk := Function.update c.disk (c.buf i).blockno (c.buf i).data
      issued := c.issued ++ [((c.buf i).blockno,(c.buf i).data)] } := by
  simp only [bwrite,iderw,bind_apply,get_apply] at h
  cases hl : (c.buf i).locked with
  | false =>
    simp only [hl,Bool.not_false,↓reduceIte,throw_apply] at h
    cases h
  | true =>
    simp only [hl,Bool.not_true,Bool.false_eq_true,↓reduceIte,bind_apply,set_apply,get_apply,setBuf_self,
      setBuf_setBuf,Bool.and_false] at h
    split at h
    · cases h
    · cases h
      rw [← hl]
      rfl

theorem unref_ok (h : unref i c = .ok () d) :
    d.buf = (c.setBuf i { c.buf i with refcnt := (c.buf i).refcnt - 1 }).buf ∧ d.disk = c.disk ∧
      (d.lru = c.lru ∨ d.lru = i :: c.lru.erase i) := by
  simp only [unref,bind_apply,get_apply] at h
  split at h
  · cases h
    exact ⟨rfl,rfl,.inr rfl⟩
  · cases h
    exact ⟨rfl,rfl,.inl rfl⟩

end Inversion

omit [Fintype Pid] in
theorem Change.ofRun (s : Sys Pid) (p : Pid) (ph : Phase) (i : Fin NBUF) {c : Bcache} {n : Buf}
    (hbuf : c.buf = (s.cache.setBuf i n).buf) :
    Change s { s with cache := c, phase := Function.update s.phase p ph } p ph i n (s.holder i) (s.modified i) :=
  .of rfl hbuf (update_eq_self _ _).symm (update_eq_self _ _).symm

omit [DecidableEq Pid] in
theorem Coherent.stillClean (h : Coherent V s) {n : Buf}
    (hn : (s.cache.buf i).dirty = true → n.dirty = true ∧ n.blockno = (s.cache.buf i).blockno) (b : ℕ)
    (hi : n.dirty = true → n.blockno ≠ b)
    (hothers : ∀ j, j ≠ i → (s.cache.buf j).dirty = true → (s.cache.buf j).blockno ≠ b) : s.cache.disk b = V b := by
  refine h.clean b fun j hj => ?_
  by_cases hji : j = i
  · subst hji
    rw [← (hn hj).2]
    exact hi (hn hj).1
  · exact hothers j hji hj

omit [DecidableEq Pid] [Fintype Pid] in
theorem holds_iff [DecidableEq Pid] : s.holds p i = true ↔ s.phase p = .idle ∧ s.holder i = some p := by
  simp [Sys.holds]

theorem Coherent.hit (h : Coherent V s) (hp : s.phase p = .idle) (hcb : s.cache.cached b i = true) :
    Coherent V { s with
      cache := s.cache.setBuf i { s.cache.buf i with refcnt := (s.cache.buf i).refcnt+1 }
      phase := Function.update s.phase p (.acquiring i b) } := by
  obtain ⟨hdev,hblock⟩ := cached_iff.mp hcb
  have he := h.entry i
  have hc := Change.ofRun s p (.acquiring i b) i
    (n := { s.cache.buf i with refcnt := (s.cache.buf i).refcnt+1 }) rfl
  refine h.keep hc (by simp [hp,about]) (by simp [about]) h.lru_nodup h.mem_lru rfl rfl (fun _ _ => rfl) ?_
    (h.stillClean fun hd => ⟨hd,rfl⟩) ?_ (by simp) (fun _ _ hq => ⟨hq,rfl⟩) hdev
  · exact ⟨he.locked,hc.refcnt he (by simp [hp,uses]),he.dirty,he.data,he.modified,hc.held he (by simp [hp])⟩
  · rintro a (ha | ha)
    · cases ha
      exact ⟨hdev,hblock⟩
    · cases ha

theorem Coherent.recycle (h : Coherent V s) (hp : s.phase p = .idle)
    (hf : s.cache.lru.find? (s.cache.cached b) = none) (hu : s.cache.unused i = true) :
    Coherent V { s with
      cache := s.cache.setBuf i { s.cache.buf i with
        dev := ROOTDEV, blockno := b, valid := false, dirty := false, refcnt := 1 }
      phase := Function.update s.phase p (.acquiring i b) } := by
  obtain ⟨h0,hclean⟩ := unused_iff.mp hu
  obtain ⟨hholder,habout⟩ := h.unused h0
  have he := h.entry i
  have hmodified : s.modified i = false := (hholder ▸ he).unmodified
  have hc := Change.ofRun s p (.acquiring i b) i (n := { s.cache.buf i with
    dev := ROOTDEV, blockno := b, valid := false, dirty := false, refcnt := 1 }) rfl
  have hfresh : ∀ j, (s.cache.buf j).dev = ROOTDEV → (s.cache.buf j).blockno ≠ b := by
    intro j hdj hb
    exact List.find?_eq_none.mp hf j (h.mem_lru j) (cached_iff.mpr ⟨hdj,hb⟩)
  have hmine : ∀ q ph, about ph = some i → update s.phase p (.acquiring i b) q = ph → ph = .acquiring i b := by
    intro q ph hph hq
    by_cases hqp : q = p
    · subst hqp
      rw [update_self] at hq
      exact hq.symm
    · rw [update_of_ne hqp] at hq
      rw [← hq] at hph
      exact absurd hph (habout q)
  refine h.change hc (by simp [hp,about]) (by simp [about]) h.lru_nodup h.mem_lru (fun j _ _ => hfresh j)
    (fun _ _ _ => rfl) ?_ (h.stillClean fun hd => ?_) ?_ ?_
  · have hrefcnt := hc.refcnt he (by simp [hp,uses,h0])
    have hlocked := he.locked
    rw [hholder] at hrefcnt hlocked
    rw [hholder,hmodified]
    exact ⟨hlocked,hrefcnt,by simp,by simp,by simp,by simp⟩
  · rw [hclean] at hd
    cases hd
  · rintro q a (hq | hq)
    · cases hmine q _ rfl hq
      exact ⟨rfl,rfl⟩
    · cases hmine q _ rfl hq
  · intro q a hq
    cases hmine q _ rfl hq

theorem Coherent.acquire (h : Coherent V s) (hp : s.phase p = .acquiring i b)
    (hl : (s.cache.buf i).locked = false) :
    Coherent V { s with
      cache := s.cache.setBuf i { s.cache.buf i with locked := true }
      phase := Function.update s.phase p (.reading i b)
      holder := Function.update s.holder i (some p) } := by
  have he := h.entry i
  obtain ⟨hdev,hblock⟩ := h.place p i b (.inl hp)
  have hholder : s.holder i = none := by
    rw [he.locked] at hl
    exact Option.not_isSome_iff_eq_none.mp (Bool.eq_false_iff.mp hl)
  have hmodified : s.modified i = false := (hholder ▸ he).unmodified
  have hc : Change s { s with
      cache := s.cache.setBuf i { s.cache.buf i with locked := true }
      phase := update s.phase p (.reading i b)
      holder := update s.holder i (some p) } p (.reading i b) i { s.cache.buf i with locked := true }
      (some p) (s.modified i) := .of rfl rfl rfl (update_eq_self _ _).symm
  refine h.keep hc (by simp [hp,about]) (by simp [about]) h.lru_nodup h.mem_lru rfl rfl (fun _ _ => rfl) ?_
    (h.stillClean fun hd => ⟨hd,rfl⟩) ?_ ?_ ?_ hdev
  · refine ⟨rfl,hc.refcnt he (by simp [hp,uses,hholder]),he.dirty,he.data,fun _ => rfl,?_⟩
    intro q hq
    cases hq
    exact ⟨hdev,.inr ⟨b,update_self _ _ _⟩⟩
  · rintro a (ha | ha)
    · cases ha
    · cases ha
      exact ⟨hdev,hblock⟩
  · exact fun a _ => ⟨rfl,hmodified⟩
  · intro q _ hq
    rw [hholder] at hq
    cases hq

theorem Coherent.fill (h : Coherent V s) (hp : s.phase p = .reading i b) {c : Bcache}
    (hc : Bio.fill i s.cache = .ok () c) :
    (c.buf i).data = V b ∧ Coherent V { s with cache := c, phase := Function.update s.phase p .idle } := by
  have he := h.entry i
  obtain ⟨hdev,hblock⟩ := h.place p i b (.inr hp)
  obtain ⟨hholder,hmodified⟩ := h.reading p i b hp
  have hlocked : (s.cache.buf i).locked = true := by
    rw [he.locked,hholder]
    rfl
  obtain ⟨n,hn,hvalid,hdirty,hsame,hdata,hdisk,hlru⟩ : ∃ n : Buf, c.buf = (s.cache.setBuf i n).buf ∧ n.valid = true ∧
      n.dirty = (s.cache.buf i).dirty ∧ (n.dev = (s.cache.buf i).dev ∧ n.blockno = (s.cache.buf i).blockno ∧
        n.locked = (s.cache.buf i).locked ∧ n.refcnt = (s.cache.buf i).refcnt) ∧ n.data = V b ∧
      c.disk = s.cache.disk ∧ c.lru = s.cache.lru := by
    rcases fill_ok hlocked (fun hd => (he.dirty hd).2) hc with ⟨hv,rfl⟩ | ⟨hv,hd,rfl⟩
    · refine ⟨s.cache.buf i,?_,hv,rfl,⟨rfl,rfl,rfl,rfl⟩,?_,rfl,rfl⟩
      · rw [Bcache.setBuf,update_eq_self]
      · rw [he.data hdev hv hmodified,hblock]
    · refine ⟨_,rfl,rfl,rfl,⟨rfl,rfl,rfl,rfl⟩,?_,rfl,rfl⟩
      rw [hblock]
      refine h.clean b fun j hj hb => ?_
      have hji := h.unique j i ((h.entry j).dirty hj).1 hdev (hb.trans hblock.symm)
      rw [hji,hd] at hj
      cases hj
  have hch := Change.ofRun s p .idle i hn
  refine ⟨?_,h.keep hch (by simp [hp,about]) (by simp [about]) (hlru ▸ h.lru_nodup) (hlru ▸ h.mem_lru) hsame.1 hsame.2.1
    (fun _ _ => rfl) ?_ ?_ (by simp) (by simp) (fun _ _ hq => ⟨hq,rfl⟩) (hsame.1.trans hdev)⟩
  · rw [congrFun hn i,setBuf_self]
    exact hdata
  · refine ⟨hsame.2.2.1.trans he.locked,hch.refcnt he (by simp [hp,uses,hsame]),
      fun _ => ⟨hsame.1.trans hdev,hvalid⟩,?_,he.modified,?_⟩
    · intro _ _ _
      rw [hsame.2.1,hblock]
      exact hdata
    · exact fun q _ => ⟨hsame.1.trans hdev,.inl hvalid⟩
  · intro a ha hothers
    change c.disk a = V a
    rw [hdisk]
    exact h.stillClean (n := n) (fun hd => ⟨hdirty.trans hd,hsame.2.1⟩) a ha hothers

theorem Coherent.holder (h : Coherent V s) (hh : s.holds p i = true) :
    (s.cache.buf i).dev = ROOTDEV ∧ (s.cache.buf i).valid = true := by
  obtain ⟨hp,hholder⟩ := holds_iff.mp hh
  obtain ⟨hdev,hv | ⟨b,hb⟩⟩ := (h.entry i).held p hholder
  · exact ⟨hdev,hv⟩
  · rw [hp] at hb
    cases hb

/-- What the holder of a buffer may do to it between two calls: other contents, other marks, and
contents that go to the disk. -/
theorem Coherent.own (h : Coherent V s) (hh : s.holds p i = true) {n : Buf} {m : Bool} {c : Bcache}
    {es : List Event} (hbuf : c.buf = (s.cache.setBuf i n).buf) (hlru : c.lru = s.cache.lru)
    (hn : n.dev = (s.cache.buf i).dev ∧ n.blockno = (s.cache.buf i).blockno ∧ n.locked = (s.cache.buf i).locked ∧
      n.refcnt = (s.cache.buf i).refcnt ∧ n.valid = true)
    (hV : ∀ b, b ≠ n.blockno → W b = V b) (hdata : m = false → n.data = W n.blockno)
    (hclean : ∀ b, (n.dirty = true → n.blockno ≠ b) →
      (∀ j, j ≠ i → (s.cache.buf j).dirty = true → (s.cache.buf j).blockno ≠ b) → c.disk b = W b) :
    Coherent W { s with
      cache := c
      phase := Function.update s.phase p .idle
      modified := Function.update s.modified i m
      events := es } := by
  obtain ⟨hdev,hblock,hlocked,hrefcnt,hvalid⟩ := hn
  obtain ⟨hroot,_⟩ := h.holder hh
  obtain ⟨hp,hholder⟩ := holds_iff.mp hh
  have he := h.entry i
  have hc : Change s { s with
      cache := c
      phase := update s.phase p .idle
      modified := update s.modified i m
      events := es } p .idle i n (s.holder i) m := .of rfl hbuf (update_eq_self _ _).symm rfl
  refine h.keep hc (by simp [hp,about]) (by simp [about]) (hlru ▸ h.lru_nodup) (hlru ▸ h.mem_lru) hdev hblock hV ?_ hclean
    (by simp) (by simp) ?_ (hdev.trans hroot)
  · refine ⟨hlocked.trans he.locked,hc.refcnt he (by simp [hp,uses,hrefcnt]),fun _ => ⟨hdev.trans hroot,hvalid⟩,
      fun _ _ => hdata,?_,?_⟩
    · intro _
      rw [hholder]
      rfl
    · exact fun q _ => ⟨hdev.trans hroot,.inl hvalid⟩
  · intro q hqp hq
    rw [hholder] at hq
    exact absurd (Option.some.inj hq).symm hqp

theorem Coherent.brelse (h : Coherent V s) (hh : s.holds p i = true) (hm : s.modified i = false) :
    Coherent V { s with
      cache := s.cache.setBuf i { s.cache.buf i with locked := false }
      phase := Function.update s.phase p (.releasing i)
      holder := Function.update s.holder i none } := by
  obtain ⟨hdev,_⟩ := h.holder hh
  obtain ⟨hp,hholder⟩ := holds_iff.mp hh
  have he := h.entry i
  have hc : Change s { s with
      cache := s.cache.setBuf i { s.cache.buf i with locked := false }
      phase := update s.phase p (.releasing i)
      holder := update s.holder i none } p (.releasing i) i { s.cache.buf i with locked := false }
      none (s.modified i) := .of rfl rfl rfl (update_eq_self _ _).symm
  refine h.keep hc (by simp [hp,about]) (by simp [about]) h.lru_nodup h.mem_lru rfl rfl (fun _ _ => rfl) ?_
    (h.stillClean fun hd => ⟨hd,rfl⟩) (by simp) (by simp) ?_ hdev
  · refine ⟨rfl,hc.refcnt he (by simp [hp,uses,hholder]),he.dirty,he.data,fun hm' => ?_,by simp⟩
    rw [hm] at hm'
    cases hm'
  · intro q hqp hq
    rw [hholder] at hq
    exact absurd (Option.some.inj hq).symm hqp

theorem Coherent.unref (h : Coherent V s) (hp : s.phase p = .releasing i) {c : Bcache}
    (hc : Bio.unref i s.cache = .ok () c) :
    Coherent V { s with cache := c, phase := Function.update s.phase p .idle } := by
  obtain ⟨hbuf,hdisk,hlru⟩ := unref_ok hc
  have he := h.entry i
  have hch := Change.ofRun s p .idle i hbuf
  have hpos : 0 < tally s.phase (uses i) := tally_pos (i := p) (by simp [hp,uses])
  have hcount := he.refcnt
  have hnodup : c.lru.Nodup ∧ ∀ j, j ∈ c.lru := by
    rcases hlru with hlru | hlru
    · rw [hlru]
      exact ⟨h.lru_nodup,h.mem_lru⟩
    · rw [hlru]
      refine ⟨List.nodup_cons.mpr ⟨h.lru_nodup.not_mem_erase,h.lru_nodup.erase i⟩,fun j => ?_⟩
      by_cases hj : j = i
      · subst hj
        exact List.mem_cons_self
      · exact List.mem_cons_of_mem _ ((List.mem_erase_of_ne hj).mpr (h.mem_lru j))
  refine h.change hch (by simp [hp,about]) (by simp [about]) hnodup.1 hnodup.2 ?_ (fun _ _ _ => rfl) ?_ ?_ ?_ ?_
  · intro j hj hdi hdj hb
    exact hj (h.unique j i hdj hdi hb)
  · refine ⟨he.locked,hch.refcnt he ?_,he.dirty,he.data,he.modified,hch.held he (by simp [hp])⟩
    simp only [hp,uses,decide_true,Bool.toNat_true,Bool.toNat_false]
    omega
  · intro a ha hothers
    change c.disk a = V a
    rw [hdisk]
    exact h.stillClean (fun hd => ⟨hd,rfl⟩) a ha hothers
  · intro q a hq
    have hqp : q ≠ p := by
      rintro rfl
      rw [hch.here] at hq
      simp at hq
    rw [hch.phase q hqp] at hq
    exact h.place q i a hq
  · intro q a hq
    have hqp : q ≠ p := by
      rintro rfl
      rw [hch.here] at hq
      cases hq
    rw [hch.phase q hqp] at hq
    exact h.reading q i a hq

section Stores
variable (h : Coherent V s) (hh : s.holds p i = true) {c : Bcache}
include h hh

theorem Coherent.modify {data : Block} (hc : setData i data s.cache = .ok () c) :
    Coherent V { s with
      cache := c, phase := Function.update s.phase p .idle, modified := Function.update s.modified i true } := by
  cases hc
  exact h.own hh rfl rfl ⟨rfl,rfl,rfl,rfl,(h.holder hh).2⟩ (fun _ _ => rfl) nofun
    (h.stillClean fun hd => ⟨hd,rfl⟩)

theorem Coherent.logWrite {g : Log.Geometry} {outstanding : ℤ} {lh lh' : Log.LogHeader}
    (hc : Log.logWrite g outstanding lh i s.cache = .ok lh' c) :
    Coherent (Function.update V (c.buf i).blockno (c.buf i).data)
      ({ s with cache := c, phase := Function.update s.phase p .idle }.stored i) := by
  obtain ⟨_,_,_,rfl⟩ := Log.logWrite_ok hc
  rw [setBuf_self]
  refine h.own hh rfl rfl ⟨rfl,rfl,rfl,rfl,(h.holder hh).2⟩ (fun b hb => update_of_ne hb _ _)
    (fun _ => by rw [update_self]) ?_
  intro b hb hothers
  rw [update_of_ne (Ne.symm (hb rfl))]
  exact h.stillClean (n := { s.cache.buf i with dirty := true }) (fun _ => ⟨rfl,rfl⟩) b hb hothers

theorem Coherent.bwrite (hc : Bio.bwrite i s.cache = .ok () c) :
    Coherent (Function.update V (c.buf i).blockno (c.buf i).data)
      ({ s with cache := c, phase := Function.update s.phase p .idle }.stored i) := by
  have hd := bwrite_ok hc
  have hbuf : c.buf = (s.cache.setBuf i { s.cache.buf i with valid := true, dirty := false }).buf := by
    rw [hd]
  have hself := (congrFun hbuf i).trans (setBuf_self _ _ _)
  rw [hself]
  refine h.own hh hbuf (by rw [hd]; rfl) ⟨rfl,rfl,rfl,rfl,rfl⟩ (fun b hb => update_of_ne hb _ _)
    (fun _ => by rw [update_self]) ?_
  intro b _ hothers
  rw [hd]
  change update s.cache.disk (s.cache.buf i).blockno (s.cache.buf i).data b =
    update V (s.cache.buf i).blockno (s.cache.buf i).data b
  by_cases hb : b = (s.cache.buf i).blockno
  · subst hb
    rw [update_self,update_self]
  · rw [update_of_ne hb,update_of_ne hb]
    refine h.clean b fun j hj => ?_
    by_cases hji : j = i
    · subst hji
      exact Ne.symm hb
    · exact hothers j hji hj

end Stores

def Keeps (c d : Bcache) : Prop :=
  ∀ i, 0 < (c.buf i).refcnt ∨ (c.buf i).dirty = true →
    (d.buf i).dev = (c.buf i).dev ∧ (d.buf i).blockno = (c.buf i).blockno

theorem keeps_setBuf {c d : Bcache} {n : Buf} (hbuf : d.buf = (c.setBuf i n).buf)
    (hn : 0 < (c.buf i).refcnt ∨ (c.buf i).dirty = true → n.dev = (c.buf i).dev ∧ n.blockno = (c.buf i).blockno) :
    Keeps c d := by
  intro j hj
  rw [hbuf]
  rcases setBuf_cases c i n j with ⟨rfl,he⟩ | ⟨_,he⟩
  · rw [he]
    exact hn hj
  · rw [he]
    exact ⟨rfl,rfl⟩

theorem keeps_fill {c d : Bcache} (hl : (c.buf i).locked = true)
    (hd : (c.buf i).dirty = true → (c.buf i).valid = true) (h : Bio.fill i c = .ok () d) : Keeps c d := by
  rcases fill_ok hl hd h with ⟨_,rfl⟩ | ⟨_,_,rfl⟩
  · exact fun _ _ => ⟨rfl,rfl⟩
  · exact keeps_setBuf rfl fun _ => ⟨rfl,rfl⟩

theorem keeps_unused {c d : Bcache} {n : Buf} (hbuf : d.buf = (c.setBuf i n).buf) (hu : c.unused i = true) :
    Keeps c d := by
  refine keeps_setBuf hbuf fun hused => ?_
  obtain ⟨h0,hclean⟩ := unused_iff.mp hu
  rcases hused with hpos | hdirty
  · omega
  · rw [hclean] at hdirty
    cases hdirty

/-- A step is either invisible to the plain array or one of its steps. -/
theorem Coherent.step {a : Action Pid} (h : Coherent V s) (hstep : Step s a t) :
    ∃ W, Coherent W t ∧ Keeps s.cache t.cache ∧
      ((t.events = s.events ∧ W = V) ∨ ∃ e, t.events = s.events ++ [e] ∧ Plain V e W) := by
  cases a <;> simp only [Step,next] at hstep
  case bget p b =>
    split at hstep
    · rename_i hp
      obtain ⟨i,c,hc,rfl⟩ := run_some hstep
      rcases lookup_ok hc with ⟨hcb,rfl⟩ | ⟨hf,hu,rfl⟩
      · exact ⟨V,h.hit hp hcb,keeps_setBuf rfl fun _ => ⟨rfl,rfl⟩,.inl ⟨rfl,rfl⟩⟩
      · exact ⟨V,h.recycle hp hf hu,keeps_unused rfl hu,.inl ⟨rfl,rfl⟩⟩
    · cases hstep
  case acquiresleep p =>
    split at hstep
    · rename_i i b hp
      obtain ⟨_,c,hc,rfl⟩ := run_bind_some hstep
      obtain ⟨hl,rfl⟩ := acquiresleep_ok hc
      exact ⟨V,h.acquire hp hl,keeps_setBuf rfl fun _ => ⟨rfl,rfl⟩,.inl ⟨rfl,rfl⟩⟩
    · cases hstep
  case fill p =>
    split at hstep
    · rename_i i b hp
      obtain ⟨_,c,hc,rfl⟩ := run_bind_some hstep
      obtain ⟨hdata,hcoh⟩ := h.fill hp hc
      have hlocked : (s.cache.buf i).locked = true := by
        rw [(h.entry i).locked,(h.reading p i b hp).1]
        rfl
      refine ⟨V,⟨hcoh.lru_nodup,hcoh.mem_lru,hcoh.unique,hcoh.entry,hcoh.clean,hcoh.place,hcoh.reading⟩,
        keeps_fill hlocked (fun hd => ((h.entry i).dirty hd).2) hc,.inr ⟨_,rfl,?_⟩⟩
      rw [hdata]
      exact .read V b
    · cases hstep
  case modify p i data =>
    split at hstep
    · rename_i hh
      obtain ⟨_,c,hc,rfl⟩ := run_bind_some hstep
      refine ⟨V,h.modify hh hc,?_,.inl ⟨rfl,rfl⟩⟩
      cases hc
      exact keeps_setBuf rfl fun _ => ⟨rfl,rfl⟩
    · cases hstep
  case logWrite p i g outstanding lh =>
    split at hstep
    · rename_i hh
      obtain ⟨_,c,hc,rfl⟩ := run_bind_some hstep
      refine ⟨_,h.logWrite hh hc,?_,.inr ⟨_,rfl,.store V _ _⟩⟩
      obtain ⟨_,_,_,rfl⟩ := Log.logWrite_ok hc
      exact keeps_setBuf rfl fun _ => ⟨rfl,rfl⟩
    · cases hstep
  case bwrite p i =>
    split at hstep
    · rename_i hh
      obtain ⟨_,c,hc,rfl⟩ := run_bind_some hstep
      refine ⟨_,h.bwrite hh hc,?_,.inr ⟨_,rfl,.store V _ _⟩⟩
      have hbuf : c.buf = (s.cache.setBuf i { s.cache.buf i with valid := true, dirty := false }).buf := by
        rw [bwrite_ok hc]
      exact keeps_setBuf hbuf fun _ => ⟨rfl,rfl⟩
    · cases hstep
  case brelse p i =>
    split at hstep
    · rename_i hh
      simp only [Bool.and_eq_true,Bool.not_eq_true'] at hh
      obtain ⟨_,c,hc,rfl⟩ := run_bind_some hstep
      cases hc
      exact ⟨V,h.brelse hh.1 hh.2,keeps_setBuf rfl fun _ => ⟨rfl,rfl⟩,.inl ⟨rfl,rfl⟩⟩
    · cases hstep
  case unref p =>
    split at hstep
    · rename_i i hp
      obtain ⟨_,c,hc,rfl⟩ := run_some hstep
      exact ⟨V,h.unref hp hc,keeps_setBuf (unref_ok hc).1 fun _ => ⟨rfl,rfl⟩,.inl ⟨rfl,rfl⟩⟩
    · cases hstep

theorem coherent_run {d : Disk} {acts : List (Action Pid)} (h : Run Step (start d) acts s) :
    ∃ V, Coherent V s ∧ Run Plain d s.events V := by
  refine h.invariant (I := fun _ u => ∃ V, Coherent V u ∧ Run Plain d u.events V) ⟨d,coherent_start d,.nil⟩ ?_
  rintro _ u a v _ ⟨V,hu,hplain⟩ hstep
  obtain ⟨W,hv,_,⟨he,rfl⟩ | ⟨e,he,hw⟩⟩ := hu.step hstep
  · exact ⟨W,hv,he ▸ hplain⟩
  · exact ⟨W,hv,he ▸ hplain.snoc hw⟩

/-- However the processes interleave: no block is cached twice, a referenced or dirty buffer is
not given to another block, and each `bread` returns what was last logged or written for its
block, or what the disk held at first. -/
theorem cache_coherent {d : Disk} {acts : List (Action Pid)} (h : Run Step (start d) acts s) :
    (∀ i j, (s.cache.buf i).dev = ROOTDEV → (s.cache.buf j).dev = ROOTDEV →
      (s.cache.buf i).blockno = (s.cache.buf j).blockno → i = j) ∧
    (∀ a t i, Step s a t → 0 < (s.cache.buf i).refcnt ∨ (s.cache.buf i).dirty = true →
      (t.cache.buf i).dev = (s.cache.buf i).dev ∧ (t.cache.buf i).blockno = (s.cache.buf i).blockno) ∧
    ∀ before b data after, s.events = before ++ .read b data :: after → data = latest d b before := by
  obtain ⟨V,hc,hplain⟩ := coherent_run h
  refine ⟨hc.unique,?_,?_⟩
  · intro a t i hstep hi
    obtain ⟨_,_,hkeeps,_⟩ := hc.step hstep
    exact hkeeps i hi
  · intro before b data after he
    have hpre : before ++ [.read b data] <+: s.events := ⟨after,by rw [he,List.append_assoc]; rfl⟩
    obtain ⟨W,hW⟩ := hplain.upto hpre
    exact plain_read hW rfl

def handOver (data : Block) : List (Action (Fin 2)) :=
  [Action.bget 0 7,Action.acquiresleep 0,Action.fill 0,Action.modify 0 0 data,Action.bget 1 7,Action.bwrite 0 0,
    Action.brelse 0 0,Action.acquiresleep 1,Action.fill 1]

theorem cache_coherent_handOver : ∃ s, Run Step (start fun _ _ => 0) (handOver fun _ => 1) s ∧
    ∃ before data, s.events = before ++ [.read 7 data] ∧ data = latest (fun _ _ => 0) 7 before ∧
      before = [.read 7 fun _ => 0,.store 7 fun _ => 1] := by
  obtain ⟨s,hs⟩ : ∃ s, (handOver fun _ => 1).foldlM next (start fun _ _ => 0) = some s := ⟨_,rfl⟩
  have hrun := Run.of_foldlM hs
  obtain ⟨data,he⟩ : ∃ data, s.events = [.read 7 fun _ => 0,.store 7 fun _ => 1] ++ [.read 7 data] := by
    cases hs
    exact ⟨_,rfl⟩
  exact ⟨s,hrun,_,data,he,(cache_coherent hrun).2.2 _ 7 data [] he,rfl⟩

end Xv6.Bio.Shared
