import Xv6.Library.Runs

/-! # The memory allocator of user programs

Addresses count bytes and sizes count headers of eight bytes. A header is named by its address, also
where that is no multiple of eight: what `sbrk` returns is any memory above what it returned before. What
a program stores in its blocks may change every header inside them. The loops take a bound on their
iterations; with the bound of the address space they never reach it.
-/
namespace Xv6.Umalloc

structure Layout where
  base : ℕ
  brk : ℕ
  below : base+8 ≤ brk

/-- `regions` lists what `sbrk` returned, as address and number of bytes. `live` lists the blocks in
use, as the address of the header and the number of units. -/
structure Heap where
  ptr : ℕ → ℕ
  size : ℕ → ℕ
  freep : Option ℕ
  brk : ℕ
  regions : List (ℕ × ℕ)
  live : List (ℕ × ℕ)

inductive Stop
  | nullPointer
  | fault
  | outOfFuel
  deriving DecidableEq

section Free

def spot (h : Heap) (bp : ℕ) : ℕ → ℕ → Except Stop ℕ
  | 0, _ => .error .outOfFuel
  | n+1, p =>
    if p < bp ∧ bp < h.ptr p then .ok p
    else if h.ptr p ≤ p ∧ (p < bp ∨ bp < h.ptr p) then .ok p
    else spot h bp n (h.ptr p)

def joinUpper (h : Heap) (p bp : ℕ) : Heap :=
  if bp+8*h.size bp = h.ptr p then
    { h with
      size := Function.update h.size bp (h.size bp+h.size (h.ptr p))
      ptr := Function.update h.ptr bp (h.ptr (h.ptr p)) }
  else { h with ptr := Function.update h.ptr bp (h.ptr p) }

def joinLower (h : Heap) (p bp : ℕ) : Heap :=
  if p+8*h.size p = bp then
    { h with
      size := Function.update h.size p (h.size p+h.size bp)
      ptr := Function.update h.ptr p (h.ptr bp) }
  else { h with ptr := Function.update h.ptr p bp }

def free (fuel : ℕ) (h : Heap) (ap : ℕ) : Except Stop Heap :=
  let bp := ap-8
  match h.freep with
  | none => .error .nullPointer
  | some start =>
    match spot h bp fuel start with
    | .error e => .error e
    | .ok p =>
      let t := joinLower (joinUpper h p bp) p bp
      .ok { t with freep := some p, live := t.live.filter (·.1 ≠ bp) }

end Free

section Malloc

def sbrk (h : Heap) (bytes : ℕ) : Option ℕ → Heap × Option ℕ
  | none => (h,none)
  | some gap =>
    let p := h.brk+gap
    ({ h with brk := p+bytes, regions := (p,bytes) :: h.regions },some p)

def morecore (fuel : ℕ) (h : Heap) (nunits : ℕ) (answer : Option ℕ) : Except Stop (Heap × Option ℕ) :=
  let nu := if nunits < 4096 then 4096 else nunits
  match sbrk h (nu*8) answer with
  | (h,none) => .ok (h,none)
  | (h,some hp) =>
    match free fuel { h with size := Function.update h.size hp nu, live := (hp,nu) :: h.live } (hp+8) with
    | .error e => .error e
    | .ok h => .ok (h,h.freep)

def take (h : Heap) (nunits prevp p : ℕ) : Heap × ℕ :=
  if h.size p = nunits then
    ({ h with
      ptr := Function.update h.ptr prevp (h.ptr p)
      freep := some prevp
      live := (p,nunits) :: h.live },p+8)
  else
    let rest := h.size p-nunits
    let q := p+8*rest
    ({ h with
      size := Function.update (Function.update h.size p rest) q nunits
      freep := some prevp
      live := (q,nunits) :: h.live },q+8)

def search (nunits : ℕ) : ℕ → Heap → List (Option ℕ) → ℕ → ℕ → Except Stop (Heap × Option ℕ)
  | 0, _, _, _, _ => .error .outOfFuel
  | n+1, h, answers, prevp, p =>
    if nunits ≤ h.size p then .ok ((take h nunits prevp p).1,some (take h nunits prevp p).2)
    else if h.freep = some p then
      match morecore n h nunits (answers.headD none) with
      | .error e => .error e
      | .ok (h,none) => .ok (h,none)
      | .ok (h,some p) => search nunits n h answers.tail p (h.ptr p)
    else search nunits n h answers p (h.ptr p)

def units (nbytes : ℕ) : ℕ := (nbytes+8-1)%2^32/8+1

def malloc (l : Layout) (fuel : ℕ) (h : Heap) (answers : List (Option ℕ)) (nbytes : ℕ) :
    Except Stop (Heap × Option ℕ) :=
  match h.freep with
  | some prevp => search (units nbytes) fuel h answers prevp (h.ptr prevp)
  | none =>
    let h := { h with
      ptr := Function.update h.ptr l.base l.base
      size := Function.update h.size l.base 0
      freep := some l.base }
    search (units nbytes) fuel h answers l.base (h.ptr l.base)

end Malloc

inductive Action
  | malloc (nbytes : ℕ) (answers : List (Option ℕ))
  | free (ap : ℕ)
  /-- The program stores into one of its blocks, where a header may have been. -/
  | store (a ptr size : ℕ)

def Heap.fuel (h : Heap) : ℕ := 2*h.brk+8

/-- A request is small enough for `sbrk`, a pointer to be freed is in use, and a store stays
inside a block. -/
def Allowed (h : Heap) : Action → Prop
  | .malloc nbytes _ => 8*((nbytes+7)/8+1) < 2^31
  | .free ap => ∃ b ∈ h.live, ap = b.1+8
  | .store a _ _ => ∃ b ∈ h.live, b.1 < a ∧ a < b.1+8*b.2

def next (l : Layout) (h : Heap) : Action → Except Stop (Heap × Option ℕ)
  | .malloc nbytes answers => malloc l h.fuel h answers nbytes
  | .free ap =>
    match free h.fuel h ap with
    | .error e => .error e
    | .ok h => .ok (h,none)
  | .store a ptr size =>
    .ok ({ h with ptr := Function.update h.ptr a ptr, size := Function.update h.size a size },none)

def Step (l : Layout) (h : Heap) (a : Action) (t : Heap) : Prop := Allowed h a ∧ ∃ p, next l h a = .ok (t,p)

def boot (l : Layout) (ptr size : ℕ → ℕ) : Heap := ⟨ptr,size,none,l.brk,[],[]⟩

end Xv6.Umalloc
