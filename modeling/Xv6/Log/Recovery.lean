import Xv6.Log.Commit

/-! # The writes of commit and of recovery

Each routine of the log is shown to issue exactly the writes of the abstract redo
log: `write_log` fills the slots, `write_head` replaces the header, `install_trans`
copies the slots home.
-/
namespace Xv6.Log
open Bio ByteField Program RedoLog Function

theorem two_breads {a b : ℕ} (hab : a ≠ b) {V V' : Disk} {w : ℕ × Block} {k : Fin NBUF → Fin NBUF → BioM Unit}
    (hk : ∀ c x y, Coherent c V → Held c x a → Held c y b → ∃ c', k x y c = .ok () c' ∧ Coherent c' V' ∧
      c'.disk = Function.update c.disk w.1 w.2 ∧ c'.issued = c.issued ++ [w] ∧
      ∀ held, (∀ j, j ∈ held ↔ j = x ∨ j = y) → Idle c held → Idle c' []) :
    Emits (do let x ← bread a; let y ← bread b; k x y) V [w] V' (fun _ => True) ∧
      (a < FSSIZE → b < FSSIZE → Returns (do let x ← bread a; let y ← bread b; k x y) V) := by
  constructor
  · intro c hc
    have hx := bread_spec hc a
    cases hxe : bread a c with
    | error e c1 =>
      rw [hxe] at hx
      rw [bind_of_error hxe]
      exact ⟨0,by simpa using hx.1,by simpa using hx.2⟩
    | ok x c1 =>
      rw [hxe] at hx
      obtain ⟨hc1,hx1,_,hs1,hi1⟩ := hx
      rw [bind_of_ok hxe]
      have hy := bread_spec hc1 b
      cases hye : bread b c1 with
      | error e c2 =>
        rw [hye] at hy
        rw [bind_of_error hye]
        have hs := hs1.trans hy
        exact ⟨0,by simpa using hs.1,by simpa using hs.2⟩
      | ok y c2 =>
        rw [hye] at hy
        obtain ⟨hc2,hy2,hk2,hs2,hi2⟩ := hy
        rw [bind_of_ok hye]
        obtain ⟨c3,he,hc3,hd,hi,hidle⟩ := hk c2 x y hc2 (hk2 x a hx1) hy2
        have hs := hs1.trans hs2
        rw [he]
        refine ⟨hc3,?_,?_,trivial,?_⟩
        · rw [hd,hs.1]
          rfl
        · rw [hi,hs.2]
        · intro h0
          exact hidle [y,x] (fun j => by simp [or_comm]) (hi2 _ (hi1 _ h0))
  · intro ha hb c hc h0
    obtain ⟨x,c1,hxe⟩ := bread_returns hc h0 (by simp) ha (by simp)
    have hx := bread_spec hc a
    rw [hxe] at hx
    obtain ⟨hc1,hx1,_,_,hi1⟩ := hx
    have hheld : ∀ i ∈ [x], (c1.buf i).blockno ≠ b := by
      intro i hi
      rw [List.mem_singleton.mp hi,hx1.blockno]
      exact hab
    obtain ⟨y,c2,hye⟩ := bread_returns hc1 (hi1 _ h0) (show 1 < NBUF by decide) hb hheld
    have hy := bread_spec hc1 b
    rw [hye] at hy
    obtain ⟨hc2,hy2,hk2,_,_⟩ := hy
    obtain ⟨c3,he,_⟩ := hk c2 x y hc2 (hk2 x a hx1) hy2
    refine ⟨(),c3,?_⟩
    rw [bind_of_ok hxe,bind_of_ok hye]
    exact he

theorem copy_to_first {a b : ℕ} (hab : a ≠ b) (V : Disk) :
    Emits (do let x ← bread a; let y ← bread b; copyBuf x y) V [(a,V b)]
        (Function.update V a (V b)) (fun _ => True) ∧
      (a < FSSIZE → b < FSSIZE → Returns (do let x ← bread a; let y ← bread b; copyBuf x y) V) := by
  apply two_breads hab
  intro c x y hc hx hy
  exact copyBuf_held hc hx hy hab

theorem copy_to_second {a b : ℕ} (hab : a ≠ b) (V : Disk) :
    Emits (do let x ← bread a; let y ← bread b; copyBuf y x) V [(b,V a)]
        (Function.update V b (V a)) (fun _ => True) ∧
      (a < FSSIZE → b < FSSIZE → Returns (do let x ← bread a; let y ← bread b; copyBuf y x) V) := by
  apply two_breads hab
  intro c x y hc hx hy
  obtain ⟨c',he,hc',hd,hi,hidle⟩ := copyBuf_held hc hy hx hab.symm
  exact ⟨c',he,hc',hd,hi,fun held hh => hidle held (fun j => by rw [hh j,or_comm])⟩

def Geometry.layout (g : Geometry) : Layout ℕ Block where
  header := g.start
  slot i := g.start+i+1
  capacity := g.size-1
  entries := diskBlocks
  slot_ne_header i _ := by omega
  slot_inj i _ j _ h := by omega

theorem Geometry.home_iff (g : Geometry) (b : ℕ) : g.layout.Home b ↔ g.Outside b := by
  have hs := g.size_pos
  simp only [Layout.Home,Geometry.layout,Geometry.Outside]
  constructor
  · rintro ⟨h0,hi⟩
    by_contra hc
    exact hi (b-g.start-1) (by omega) (by omega)
  · intro h
    exact ⟨by omega,fun i hi => by omega⟩

structure Logged (g : Geometry) (lh : LogHeader) : Prop where
  count : lh.n ≤ LOGSIZE
  room : lh.n ≤ g.size - 1
  outside : ∀ b ∈ lh.blocks, g.Outside b
  onDisk : ∀ b ∈ lh.blocks, b < FSSIZE

theorem LogHeader.blockAt_mem {lh : LogHeader} {i : ℕ} (hi : i < lh.n) : lh.blockAt i ∈ lh.blocks :=
  List.mem_map_of_mem (List.mem_range.mpr hi)

def groupOf (lh : LogHeader) (V : Disk) : List (ℕ × Block) := lh.blocks.map (fun b => (b,V b))

theorem logWrites_groupOf (g : Geometry) (lh : LogHeader) (V : Disk) :
    g.layout.logWrites (groupOf lh V) =
      (List.range lh.n).map (fun tail => (g.start+tail+1,V (lh.blockAt tail))) := by
  apply List.ext_getElem
  · simp [Layout.logWrites,groupOf]
  · intro i hi hi'
    simp [Layout.logWrites,groupOf,LogHeader.blocks,Geometry.layout]

theorem copies_blocks (g : Geometry) (lh : LogHeader) (V : Disk) :
    g.layout.copies V lh.blocks =
      (List.range lh.n).map (fun tail => (lh.blockAt tail,V (g.start+tail+1))) := by
  apply List.ext_getElem
  · simp [Layout.copies]
  · intro i hi hi'
    simp [Layout.copies,LogHeader.blocks,Geometry.layout]

section Routines
variable {g : Geometry} {lh : LogHeader}

theorem writeLog_emits (hl : Logged g lh) (V : Disk) :
    Emits (writeLog g lh) V (g.layout.logWrites (groupOf lh V))
      (applyWrites V (g.layout.logWrites (groupOf lh V))) (fun _ => True) := by
  rw [logWrites_groupOf]
  refine (Emits.forM (J := fun U => ∀ b ∈ lh.blocks, U b = V b) ?_ ?_ (fun _ _ => rfl)).1
  · intro tail ht U hU b hb
    have ho := hl.outside b hb
    have hr := hl.room
    have := List.mem_range.mp ht
    have hne : b ≠ g.start+tail+1 := by
      unfold Geometry.Outside at ho
      omega
    rw [update_of_ne hne]
    exact hU b hb
  · intro tail ht U hU
    have hm := LogHeader.blockAt_mem (List.mem_range.mp ht)
    have ho := hl.outside _ hm
    have hr := hl.room
    have := List.mem_range.mp ht
    have hf := g.fits
    have hab : g.start+tail+1 ≠ lh.blockAt tail := by
      unfold Geometry.Outside at ho
      omega
    have h := copy_to_first hab U
    rw [hU _ hm] at h
    exact ⟨h.1,h.2 (by omega) (hl.onDisk _ hm)⟩

theorem installTrans_emits (hl : Logged g lh) (V : Disk) :
    Emits (installTrans g lh) V (g.layout.copies V lh.blocks)
        (applyWrites V (g.layout.copies V lh.blocks)) (fun _ => True) ∧
      Returns (installTrans g lh) V := by
  rw [copies_blocks]
  refine Emits.forM (J := fun U => ∀ i < lh.n, U (g.start+i+1) = V (g.start+i+1)) ?_ ?_ (fun _ _ => rfl)
  · intro tail ht U hU i hi
    have ho := hl.outside _ (LogHeader.blockAt_mem (List.mem_range.mp ht))
    have hr := hl.room
    have hne : g.start+i+1 ≠ lh.blockAt tail := by
      unfold Geometry.Outside at ho
      omega
    rw [update_of_ne hne]
    exact hU i hi
  · intro tail ht U hU
    have hm := LogHeader.blockAt_mem (List.mem_range.mp ht)
    have ho := hl.outside _ hm
    have hr := hl.room
    have htn := List.mem_range.mp ht
    have hf := g.fits
    have hab : g.start+tail+1 ≠ lh.blockAt tail := by
      unfold Geometry.Outside at ho
      omega
    have h := copy_to_second hab U
    rw [hU tail htn] at h
    exact ⟨h.1,h.2 (by omega) (hl.onDisk _ hm)⟩

/-- A routine that reads the header block, works on it and releases it. -/
theorem header_emits {α : Type} (g : Geometry) {V V' : Disk} {ws : List (ℕ × Block)} {R : α → Prop} {r : α}
    {f : Fin NBUF → BioM α} {last : Bcache → Fin NBUF → Bcache} (hr : R r)
    (hstep : ∀ c i, Coherent c V → Held c i g.start → f i c = .ok r (last c i) ∧ Coherent (last c i) V' ∧
      (last c i).disk = applyWrites c.disk ws ∧ (last c i).issued = c.issued ++ ws ∧ (Idle c [i] → Idle (last c i) [])) :
    Emits (bread g.start >>= f) V ws V' R ∧ Returns (bread g.start >>= f) V := by
  constructor
  · intro c hc
    have hx := bread_spec hc g.start
    cases hxe : bread g.start c with
    | error e c1 =>
      rw [hxe] at hx
      rw [bind_of_error hxe]
      exact ⟨0,by simpa using hx.1,by simpa using hx.2⟩
    | ok i c1 =>
      rw [hxe] at hx
      obtain ⟨hc1,hi1,_,hs1,hidle⟩ := hx
      obtain ⟨hrun,hcoh,hdisk,hissued,hlast⟩ := hstep c1 i hc1 hi1
      rw [bind_of_ok hxe,hrun]
      exact ⟨hcoh,hs1.1 ▸ hdisk,hs1.2 ▸ hissued,hr,fun h0 => hlast (hidle _ h0)⟩
  · intro c hc h0
    have hf := g.fits
    have hp := g.size_pos
    obtain ⟨i,c1,hxe⟩ := bread_returns hc h0 (by simp) (show g.start < FSSIZE by omega) (by simp)
    have hx := bread_spec hc g.start
    rw [hxe] at hx
    exact ⟨_,_,by rw [bind_of_ok hxe,(hstep c1 i hx.1 hx.2.1).1]⟩

theorem writeHead_emits (g : Geometry) (lh : LogHeader) (V : Disk) :
    Emits (writeHead g lh) V [(g.start,encodeHeader (V g.start) lh)]
        (Function.update V g.start (encodeHeader (V g.start) lh)) (fun _ => True) ∧
      Returns (writeHead g lh) V := by
  refine header_emits g (r := ()) trivial fun c i hc hi => ⟨?_,released_coherent (written_coherent hc hi _) i,?_,?_,
    fun h0 => (h0.written i _).released List.mem_cons_self (by simp)⟩
  · have hdata : (c.buf i).data = V g.start := hi.blockno ▸ hc.data i hi.dev hi.valid
    have hw := bwrite_held hc hi (encodeHeader (V g.start) lh)
    have hr := brelse_held (written_keepsHeld c i (encodeHeader (V g.start) lh) i _ hi)
    rw [bind_of_ok (get_apply c),hdata]
    simp only [bind_apply,setData,modify_apply] at hw ⊢
    rw [hw]
    exact hr
  · rw [(released_sameDisk _ i).1,written,hi.blockno]
    rfl
  · rw [(released_sameDisk _ i).2,written,hi.blockno]

def headerOf (b : Block) (lh : LogHeader) : LogHeader :=
  ⟨diskCount b,fun i => if i.val < diskCount b then diskBlock b i.val else lh.block i⟩

theorem blocks_headerOf {b : Block} (hb : diskCount b ≤ LOGSIZE) (lh : LogHeader) :
    (headerOf b lh).blocks = diskBlocks b := by
  apply List.map_congr_left
  intro i hi
  have hi' : i < diskCount b := List.mem_range.mp hi
  have hlt : i < LOGSIZE := by omega
  simp [LogHeader.blockAt,headerOf,hlt,hi']

theorem readHead_emits (g : Geometry) (lh : LogHeader) {V : Disk} (hV : diskCount (V g.start) ≤ LOGSIZE) :
    Emits (readHead g lh) V [] V (fun lh' => lh' = headerOf (V g.start) lh) ∧ Returns (readHead g lh) V := by
  refine header_emits g (r := headerOf (V g.start) lh) rfl fun c i hc hi => ⟨?_,released_coherent hc i,
    (released_sameDisk _ i).1,?_,fun h0 => h0.released List.mem_cons_self (by simp)⟩
  · have hdata : (c.buf i).data = V g.start := hi.blockno ▸ hc.data i hi.dev hi.valid
    rw [bind_of_ok (get_apply c),hdata]
    simp only [if_neg (Nat.not_lt.mpr hV)]
    rw [bind_of_ok (brelse_held hi)]
    rfl
  · rw [(released_sameDisk _ i).2,List.append_nil]

end Routines
end Xv6.Log
