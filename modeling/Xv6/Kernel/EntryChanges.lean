import Xv6.Kernel.Queries
import Xv6.Kernel.WindowTables

/-! # Entries taken out

A removal looks the address up among the starts of the mappings in its bucket. It takes
out the entry found, except that the first entry of a bucket is overwritten in part by
the second.
-/
namespace Xv6.Kernel
open Wmap NodePool Program
variable {t t' : Table} {a x : Word} {r : ℤ} {p q : Ptr}

section Removal

/-- The head of the chain and the entry behind it differ in the address only. -/
def Alike (t : Table) (a : Word) : Prop := ∀ i k, slotOf a = .ok i → (t.table i).startAddress = a →
  (t.table i).next = some k → (t.entry (.pool k)).payload = (t.entry (.slot i)).payload

theorem payload_eq_iff (e x : Entry) : x.payload = e.payload ↔ { e with startAddress := x.startAddress } = x := by
  cases e
  cases x
  simp [Entry.payload,eq_comm]

end Removal
end Xv6.Kernel
