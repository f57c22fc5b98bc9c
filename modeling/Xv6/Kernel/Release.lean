import Xv6.Kernel.EntryChanges
import Xv6.Kernel.UnmapLoops
import Xv6.Kernel.WriteBack

/-! # What an unmapping releases

An unmapping should take one mapping out of the table, clear its page table entries and give
back its frames, and touch nothing else.
-/
namespace Xv6.Kernel
open Wmap Program
variable {s s' : Ctx} {addr : Word} {p : Ptr}

section Release

/-- `wunmap` runs through: its loops find page tables, and the file can be written. -/
structure Calm (s : Ctx) (addr : Word) (e : Entry) : Prop where
  bound : addr.toNat+4096*pagesOf e.length < 2^32
  tables : ∀ k < pagesOf e.length, (walkpgdir s.cur.pgdir (pageAt addr k)).isSome
  back : WritesBack s e

theorem Calm.isSome {e : Entry} {x : Word} (h : Calm s addr e) (hx : InPages addr (pagesOf e.length) x) :
    (walkpgdir s.cur.pgdir x).isSome := by
  obtain ⟨k,hk,hpage⟩ := hx
  have := h.tables k hk
  rwa [walkpgdir,Option.isSome_map,← (page_indices hpage).1,← Option.isSome_map] at this

end Release
end Xv6.Kernel
