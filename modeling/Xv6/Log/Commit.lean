import Xv6.Log.BufferWrites
import Xv6.Log.Header
import Xv6.Library.RedoLog

/-! # Commit and recovery as sequences of block writes

`Emits` describes a routine by the exact list of disk writes it issues from a
coherent cache. A routine that fails half way has issued an initial part of that
list, which is all a crash argument needs to know about it.
-/
namespace Xv6.Log
open Bio ByteField Program RedoLog

structure Geometry where
  start : ℕ
  size : ℕ
  size_pos : 0 < size
  fits : start + size ≤ FSSIZE

def mkfsGeometry : Geometry where
  start := 2
  size := LOGSIZE
  size_pos := by decide
  fits := by decide

def Geometry.Outside (g : Geometry) (b : ℕ) : Prop := b < g.start ∨ g.start + g.size ≤ b

/-- The common tail of `write_log` and `install_trans`: copy between two held
buffers, write the copy, release both. -/
def copyBuf (dst src : Fin NBUF) : BioM Unit := do
  let c ← get
  setData dst (c.buf src).data
  bwrite dst
  brelse src
  brelse dst

def installBlock (g : Geometry) (lh : LogHeader) (tail : ℕ) : BioM Unit := do
  let lbuf ← bread (g.start+tail+1)
  let dbuf ← bread (lh.blockAt tail)
  copyBuf dbuf lbuf

def installTrans (g : Geometry) (lh : LogHeader) : BioM Unit :=
  (List.range lh.n).forM (installBlock g lh)

def writeLogBlock (g : Geometry) (lh : LogHeader) (tail : ℕ) : BioM Unit := do
  let toBuf ← bread (g.start+tail+1)
  let fromBuf ← bread (lh.blockAt tail)
  copyBuf toBuf fromBuf

def writeLog (g : Geometry) (lh : LogHeader) : BioM Unit :=
  (List.range lh.n).forM (writeLogBlock g lh)

def readHead (g : Geometry) (lh : LogHeader) : BioM LogHeader := do
  let buf ← bread g.start
  let c ← get
  let b := (c.buf buf).data
  if LOGSIZE < diskCount b then throw .headerOverflow
  brelse buf
  pure ⟨diskCount b,fun i => if i.val < diskCount b then diskBlock b i.val else lh.block i⟩

def writeHead (g : Geometry) (lh : LogHeader) : BioM Unit := do
  let buf ← bread g.start
  let c ← get
  setData buf (encodeHeader (c.buf buf).data lh)
  bwrite buf
  brelse buf

def recoverFromLog (g : Geometry) (lh : LogHeader) : BioM LogHeader := do
  let lh ← readHead g lh
  installTrans g lh
  let lh := { lh with n := 0 }
  writeHead g lh
  pure lh

def commit (g : Geometry) (lh : LogHeader) : BioM LogHeader :=
  if 0 < lh.n then do
    writeLog g lh
    writeHead g lh
    installTrans g lh
    let lh := { lh with n := 0 }
    writeHead g lh
    pure lh
  else pure lh

/-- From a cache that shows `V`, the routine issues the writes `ws` and leaves a
cache that shows `V'`; if it fails, it has issued an initial part of `ws`. -/
def Emits {α : Type} (x : BioM α) (V : Disk) (ws : List (ℕ × Block)) (V' : Disk) (R : α → Prop) : Prop :=
  ∀ c, Coherent c V → match x c with
    | .ok a c' => Coherent c' V' ∧ c'.disk = applyWrites c.disk ws ∧ c'.issued = c.issued ++ ws ∧
        R a ∧ (Idle c [] → Idle c' [])
    | .error _ c' => ∃ k, c'.disk = applyWrites c.disk (ws.take k) ∧ c'.issued = c.issued ++ ws.take k

def Returns {α : Type} (x : BioM α) (V : Disk) : Prop :=
  ∀ c, Coherent c V → Idle c [] → ∃ a c', x c = .ok a c'

section Rules
variable {α β : Type} {V V' V'' : Disk} {ws vs : List (ℕ × Block)}

theorem Emits.pure (V : Disk) {a : α} {R : α → Prop} (h : R a) : Emits (pure a : BioM α) V [] V R :=
  fun c hc => ⟨hc,rfl,by simp,h,fun hi => hi⟩

theorem Returns.pure (V : Disk) (a : α) : Returns (pure a : BioM α) V := fun c _ _ => ⟨a,c,rfl⟩

theorem Emits.bind {x : BioM α} {f : α → BioM β} {R : α → Prop} {S : β → Prop}
    (hx : Emits x V ws V' R) (hf : ∀ a, R a → Emits (f a) V' vs V'' S) :
    Emits (x >>= f) V (ws ++ vs) V'' S := by
  intro c hc
  have h := hx c hc
  rw [bind_apply]
  cases hxc : x c with
  | error e c' =>
    rw [hxc] at h
    obtain ⟨k,hd,hi⟩ := h
    have hk : ws.take k = (ws ++ vs).take (min k ws.length) := by
      rw [List.take_append_of_le_length (by omega),List.take_eq_take_min]
    exact ⟨min k ws.length,hk ▸ hd,hk ▸ hi⟩
  | ok a c' =>
    rw [hxc] at h
    obtain ⟨hc',hd,hi,hR,hidle⟩ := h
    have h' := hf a hR c' hc'
    dsimp only
    cases hfc : f a c' with
    | error e c'' =>
      rw [hfc] at h'
      obtain ⟨k,hd',hi'⟩ := h'
      refine ⟨ws.length + k,?_,?_⟩
      · rw [List.take_length_add_append,applyWrites_append,hd',hd]
      · rw [List.take_length_add_append,hi',hi,List.append_assoc]
    | ok b c'' =>
      rw [hfc] at h'
      obtain ⟨hc'',hd',hi',hS,hidle'⟩ := h'
      refine ⟨hc'',?_,?_,hS,fun h0 => hidle' (hidle h0)⟩
      · rw [applyWrites_append,hd',hd]
      · rw [hi',hi,List.append_assoc]

theorem Returns.bind {x : BioM α} {f : α → BioM β} {R : α → Prop} (hx : Emits x V ws V' R)
    (hr : Returns x V) (hf : ∀ a, R a → Returns (f a) V') : Returns (x >>= f) V := by
  intro c hc hi
  obtain ⟨a,c',he⟩ := hr c hc hi
  have h := hx c hc
  rw [he] at h
  obtain ⟨hc',_,_,hR,hidle⟩ := h
  rw [bind_of_ok he]
  exact hf a hR c' hc' (hidle hi)

/-- A loop whose body issues one write, under a property of the visible contents
that those writes keep. -/
theorem Emits.forM {ι : Type} {f : ι → BioM Unit} {w : ι → ℕ × Block} {J : Disk → Prop} {xs : List ι}
    (hJ : ∀ x ∈ xs, ∀ V, J V → J (Function.update V (w x).1 (w x).2))
    (hf : ∀ x ∈ xs, ∀ V, J V →
      Emits (f x) V [w x] (Function.update V (w x).1 (w x).2) (fun _ => True) ∧ Returns (f x) V)
    (hV : J V) :
    Emits (xs.forM f) V (xs.map w) (applyWrites V (xs.map w)) (fun _ => True) ∧ Returns (xs.forM f) V := by
  induction xs generalizing V with
  | nil => exact ⟨Emits.pure V trivial,Returns.pure V _⟩
  | cons x xs ih =>
    obtain ⟨he,hr⟩ := hf x List.mem_cons_self V hV
    have hrest := ih (fun y hy => hJ y (List.mem_cons_of_mem _ hy))
      (fun y hy => hf y (List.mem_cons_of_mem _ hy)) (hJ x List.mem_cons_self V hV)
    exact ⟨he.bind (fun _ _ => hrest.1),Returns.bind he hr (fun _ _ => hrest.2)⟩

end Rules

theorem copyBuf_held {c : Bcache} {V : Disk} (h : Coherent c V) {dst src : Fin NBUF} {a b : ℕ}
    (hd : Held c dst a) (hs : Held c src b) (hab : a ≠ b) :
    ∃ c', copyBuf dst src c = .ok () c' ∧ Coherent c' (Function.update V a (V b)) ∧
      c'.disk = Function.update c.disk a (V b) ∧ c'.issued = c.issued ++ [(a,V b)] ∧
      ∀ held, (∀ j, j ∈ held ↔ j = dst ∨ j = src) → Idle c held → Idle c' [] := by
  have hne : dst ≠ src := by
    rintro rfl
    exact hab (hd.blockno.symm.trans hs.blockno)
  have hdata : (c.buf src).data = V b := hs.blockno ▸ h.data src hs.dev hs.valid
  have hw := bwrite_held h hd (V b)
  have hc1 := written_coherent h hd (V b)
  have hk := written_keepsHeld c dst (V b)
  have hr1 := brelse_held (hk src b hs)
  have hd2 := released_held (hk dst a hd) hne
  have hr2 := brelse_held hd2
  have hdisk : (written c dst (V b)).disk = Function.update c.disk a (V b) := by rw [written,hd.blockno]
  have hissued : (written c dst (V b)).issued = c.issued ++ [(a,V b)] := by rw [written,hd.blockno]
  refine ⟨released (released (written c dst (V b)) src) dst,?_,?_,?_,?_,?_⟩
  · rw [copyBuf,bind_of_ok (get_apply c),hdata]
    simp only [bind_apply,setData,modify_apply] at hw ⊢
    rw [hw]
    dsimp only
    rw [hr1]
    exact hr2
  · exact released_coherent (released_coherent hc1 src) dst
  · rw [(released_sameDisk _ dst).1,(released_sameDisk _ src).1,hdisk]
  · rw [(released_sameDisk _ dst).2,(released_sameDisk _ src).2,hissued]
  · intro held hheld hi
    have h1 : Idle (released (written c dst (V b)) src) [dst] := by
      apply (hi.written dst (V b)).released ((hheld src).mpr (Or.inr rfl))
      intro j
      rw [hheld j,List.mem_singleton]
      constructor
      · rintro rfl
        exact ⟨Or.inl rfl,hne⟩
      · rintro ⟨h | h,hj⟩
        · exact h
        · exact absurd h hj
    exact h1.released List.mem_cons_self (by simp)

end Xv6.Log
