import Xv6.Kernel.Calls
import Xv6.Kernel.PageMap
import Xv6.Wmap.Lookups

/-! # Effects on the table of mappings

What each function of the kernel can do to the table: most leave it alone, a page
fault that returns counts a loaded page, and everything else comes down to a few
atomic changes.
-/
namespace Xv6.Kernel
open Wmap Program Relation Function
variable {α β : Type}

inductive Bump : Table → Table → Prop
  | mk (t : Table) (p : Ptr) :
    Bump t (t.setNode p { t.deref p with loadedPages := (t.deref p).loadedPages+1 })

/-- The changes that calls make to the table. -/
inductive TableStep : Table → Table → Prop
  | init {t : Table} (v : ℤ) : t.hashInit = -1 → v ≠ -1 → TableStep t { initHashTable t with hashInit := v }
  | insert {t t' : Table} {a len np fd fl : Word} : hashInsert t a len np fd fl = .ok t' → TableStep t t'
  | remove {t t' : Table} {a : Word} {r : ℤ} : removeValue t a = .ok (r,t') → TableStep t t'
  | length (t : Table) (p : Ptr) (length : Word) : TableStep t (t.setNode p { t.deref p with length })
  | bump {t t' : Table} : Bump t t' → TableStep t t'

inductive Drop : Table → Table → Prop
  | bump {t t' : Table} : Bump t t' → Drop t t'
  | remove {t t' : Table} {a : Word} {r : ℤ} : removeValue t a = .ok (r,t') → Drop t t'

/-- The table, the descriptors and the references to open files stay. -/
structure Soft (s s' : Ctx) : Prop where
  tab : s'.tab = s.tab
  ofile : s'.cur.ofile = s.cur.ofile
  ref : ∀ k, (s'.files.file k).ref = (s.files.file k).ref

def Via (r : Table → Table → Prop) (s s' : Ctx) : Prop := ReflTransGen r s.tab s'.tab

def Quiet (x : KernelM α) : Prop := Moves (fun s s' => s'.tab = s.tab) (fun s s' => s'.tab = s.tab) x

def Gentle (x : KernelM α) : Prop := Moves Soft Soft x

/-- Page faults; removals only on the way to a stop. -/
def Dropping (x : KernelM α) : Prop := Moves (Via Bump) (Via Drop) x

def Along (r : Table → Table → Prop) (x : KernelM α) : Prop := Moves (Via r) (Via r) x

def Stepping (x : KernelM α) : Prop := Moves (Via TableStep) (Via TableStep) x

theorem Via.of_eq {r : Table → Table → Prop} {s s' : Ctx} (h : s'.tab = s.tab) : Via r s s' := by
  rw [Via,h]

theorem Via.of_bump {s s' : Ctx} (h : Via Bump s s') : Via Drop s s' :=
  ReflTransGen.mono (fun _ _ => Drop.bump) _ _ h

theorem Drop.step {t t' : Table} (h : Drop t t') : TableStep t t' := by
  cases h with
  | bump h => exact .bump h
  | remove h => exact .remove h

theorem Via.of_drop {s s' : Ctx} (h : Via Drop s s') : Via TableStep s s' :=
  ReflTransGen.mono (fun _ _ => Drop.step) _ _ h

theorem Soft.trans {s s' s'' : Ctx} (h : Soft s s') (h' : Soft s' s'') : Soft s s'' :=
  ⟨h'.tab.trans h.tab,h'.ofile.trans h.ofile,fun k => (h'.ref k).trans (h.ref k)⟩

theorem Gentle.quiet {x : KernelM α} (h : Gentle x) : Quiet x := Moves.mono h (fun _ _ => Soft.tab) (fun _ _ => Soft.tab)

theorem Quiet.dropping {x : KernelM α} (h : Quiet x) : Dropping x :=
  Moves.mono h (fun _ _ => Via.of_eq) (fun _ _ => Via.of_eq)

theorem Dropping.stepping {x : KernelM α} (h : Dropping x) : Stepping x :=
  Moves.mono h (fun _ _ h => h.of_bump.of_drop) (fun _ _ => Via.of_drop)

theorem Quiet.stepping {x : KernelM α} (h : Quiet x) : Stepping x := h.dropping.stepping

theorem Dropping.along {x : KernelM α} (h : Dropping x) : Along Drop x :=
  Moves.mono h (fun _ _ => Via.of_bump) (fun _ _ h => h)

theorem Along.stepping {x : KernelM α} (h : Along Drop x) : Stepping x :=
  Moves.mono h (fun _ _ => Via.of_drop) (fun _ _ => Via.of_drop)

section Sequences
variable {x : KernelM α} {f : α → KernelM β}

theorem Quiet.bind (hx : Quiet x) (hf : ∀ a, Quiet (f a)) : Quiet (x >>= f) :=
  Moves.bind (fun _ _ _ h h' => h'.trans h) (fun _ _ _ h h' => h'.trans h) hx hf

theorem Along.bind {r : Table → Table → Prop} (hx : Along r x) (hf : ∀ a, Along r (f a)) : Along r (x >>= f) :=
  Moves.bind (fun _ _ _ h h' => h.trans h') (fun _ _ _ h h' => h.trans h') hx hf

theorem Stepping.bind (hx : Stepping x) (hf : ∀ a, Stepping (f a)) : Stepping (x >>= f) :=
  Moves.bind (fun _ _ _ h h' => h.trans h') (fun _ _ _ h h' => h.trans h') hx hf

theorem Gentle.bind (hx : Gentle x) (hf : ∀ a, Gentle (f a)) : Gentle (x >>= f) :=
  Moves.bind (fun _ _ _ => Soft.trans) (fun _ _ _ => Soft.trans) hx hf

theorem gentle_pure (a : α) : Gentle (pure a) := fun _ => ⟨rfl,rfl,fun _ => rfl⟩
theorem gentle_throw (e : Stop) : Gentle (throw e : KernelM α) := fun _ => ⟨rfl,rfl,fun _ => rfl⟩
theorem gentle_get : Gentle (get : KernelM Ctx) := fun _ => ⟨rfl,rfl,fun _ => rfl⟩
theorem gentle_modify {g : Ctx → Ctx} (h : ∀ s, Soft s (g s)) : Gentle (modify g) := fun s => h s
theorem gentle_get_bind {f : Ctx → KernelM β} (h : ∀ s, Gentle (f s)) : Gentle (get >>= f) := gentle_get.bind h
theorem quiet_pure (a : α) : Quiet (pure a) := (gentle_pure a).quiet
theorem quiet_throw (e : Stop) : Quiet (throw e : KernelM α) := (gentle_throw e).quiet
theorem quiet_get : Quiet (get : KernelM Ctx) := gentle_get.quiet
theorem quiet_modify {g : Ctx → Ctx} (h : ∀ s, (g s).tab = s.tab) : Quiet (modify g) := fun s => h s

theorem onTable_apply (g : Table → Except Stop α) (s : Ctx) :
    onTable g s = match g s.tab with
      | .ok a => .ok a s
      | .error e => .error e s := by
  rw [onTable,bind_apply,get_apply]
  dsimp only
  cases g s.tab <;> rfl

theorem gentle_onTable (g : Table → Except Stop α) : Gentle (onTable g) := by
  refine gentle_get_bind fun s => ?_
  cases g s.tab with
  | ok a => exact gentle_pure _
  | error e => exact gentle_throw _

theorem quiet_onTable (g : Table → Except Stop α) : Quiet (onTable g) := (gentle_onTable g).quiet

theorem quiet_get_bind {f : Ctx → KernelM β} (h : ∀ s, Quiet (f s)) : Quiet (get >>= f) := quiet_get.bind h

theorem quiet_forM {l : List α} {f : α → KernelM Unit} (h : ∀ a, Quiet (f a)) : Quiet (l.forM f) := by
  induction l with
  | nil => exact quiet_pure _
  | cons a l ih => exact (h a).bind fun _ => ih

end Sequences

section Memory

theorem MemOnly.soft {s s' : Ctx} (h : MemOnly s s') : Soft s s' := by
  rw [h.rest]
  exact ⟨rfl,rfl,fun _ => rfl⟩

theorem Paging.gentle {x : KernelM α} (h : Paging x) : Gentle x :=
  Moves.mono h (fun _ _ => MemOnly.soft) (fun _ _ => MemOnly.soft)

theorem gentle_setPgdir (pd : PageDir) : Gentle (setPgdir pd) := gentle_modify fun _ => ⟨rfl,rfl,fun _ => rfl⟩
theorem quiet_kfree (f : Frame) : Quiet (kfree f) := (paging_kfree f).gentle.quiet
theorem quiet_kalloc : Quiet kalloc := paging_kalloc.gentle.quiet
theorem quiet_copyuvm (pd : PageDir) (sz : Word) : Quiet (copyuvm pd sz) := (paging_copyuvm pd sz).gentle.quiet

end Memory

section Files

theorem soft_setFile (s : Ctx) (f : Fin NFILE) {v : File} (hv : v.ref = (s.files.file f).ref) :
    Soft s { s with files := { s.files with file := Function.update s.files.file f v } } := by
  refine ⟨rfl,rfl,fun k => ?_⟩
  by_cases hk : k = f
  · subst hk
    change (update s.files.file k v k).ref = _
    rw [update_self,hv]
  · change (update s.files.file f v k).ref = _
    rw [update_of_ne hk]

theorem quiet_setFile (f : Fin NFILE) (v : File) : Quiet (setFile f v) := quiet_modify fun _ => rfl
theorem gentle_setInode (ip : ℕ) (v : Inode) : Gentle (setInode ip v) := gentle_modify fun _ => ⟨rfl,rfl,fun _ => rfl⟩

theorem gentle_ilock (ip : ℕ) : Gentle (ilock ip) := by
  refine gentle_get_bind fun s => ?_
  dsimp only
  split
  · exact gentle_throw _
  · exact gentle_setInode _ _

theorem gentle_iunlock (ip : ℕ) : Gentle (iunlock ip) := gentle_get_bind fun _ => gentle_setInode _ _

theorem gentle_iput (ip : ℕ) : Gentle (iput ip) := by
  refine gentle_get_bind fun s => ?_
  dsimp only
  split
  · exact gentle_throw _
  · split
    · exact gentle_modify fun _ => ⟨rfl,rfl,fun _ => rfl⟩
    · exact gentle_setInode _ _

theorem gentle_idup (ip : ℕ) : Gentle (idup ip) := gentle_get_bind fun _ => gentle_setInode _ _

theorem quiet_idup (ip : ℕ) : Quiet (idup ip) := (gentle_idup ip).quiet

theorem quiet_filedup (f : Fin NFILE) : Quiet (filedup f) := by
  refine quiet_get_bind fun s => ?_
  dsimp only
  split
  · exact quiet_throw _
  · exact quiet_setFile _ _

theorem gentle_pipeclose (p : ℕ) (writable : Bool) : Gentle (pipeclose p writable) := by
  refine gentle_get_bind fun s => ?_
  dsimp only
  refine Gentle.bind (gentle_modify fun _ => ⟨rfl,rfl,fun _ => rfl⟩) fun _ => ?_
  split
  · exact (paging_kfree _).gentle
  · exact gentle_pure _

theorem quiet_fileclose (f : Fin NFILE) : Quiet (fileclose f) := by
  refine quiet_get_bind fun s => ?_
  dsimp only
  split
  · exact quiet_throw _
  · split
    · exact quiet_setFile _ _
    · refine (quiet_setFile _ _).bind fun _ => ?_
      split
      · exact quiet_pure _
      · exact (gentle_pipeclose _ _).quiet
      · exact (gentle_iput _).quiet

theorem gentle_advance (f : Fin NFILE) (bytes : Option (List Byte)) : Gentle (advance f bytes) := by
  cases bytes with
  | none => exact gentle_pure _
  | some bytes => exact fun s => soft_setFile s f rfl

theorem gentle_fileread (f : Fin NFILE) (n : Word) : Gentle (fileread f n) := by
  refine gentle_get_bind fun s => ?_
  dsimp only
  split
  · exact gentle_pure _
  · split
    · exact gentle_throw _
    · refine (gentle_ilock _).bind fun _ => gentle_get_bind fun s => ?_
      split
      · exact gentle_throw _
      · exact (gentle_advance _ _).bind fun _ => (gentle_iunlock _).bind fun _ => gentle_pure _
    · exact gentle_throw _

theorem gentle_storei (ip off : ℕ) (bytes : List Byte) : Gentle (storei ip off bytes) := by
  refine gentle_get_bind fun s => gentle_get_bind fun s' => ?_
  dsimp only
  split
  · exact gentle_throw _
  · exact gentle_modify fun _ => ⟨rfl,rfl,fun _ => rfl⟩

theorem quiet_closeFd (fd : Fin NOFILE) : Quiet (closeFd fd) := by
  refine quiet_get_bind fun s => ?_
  split
  · exact quiet_pure _
  · exact (quiet_fileclose _).bind fun _ => quiet_modify fun _ => rfl

theorem gentle_ofile (fd : Word) : Gentle (ofile fd) := by
  unfold ofile
  split
  · exact gentle_get_bind fun _ => gentle_pure _
  · exact gentle_throw _

end Files
end Xv6.Kernel
