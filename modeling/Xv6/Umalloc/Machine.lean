import Xv6.Umalloc.Calls

/-! # The allocator in machine words

Pointers and sizes are words of 32 bits, and so is the number of bytes that `morecore` hands to
`sbrk`, where the kernel takes it for a signed number. An access above the last page of the process is a
fault, which ends it.
-/
namespace Xv6.Umalloc.Machine

abbrev Word := BitVec 32

def KERNBASE : Word := 0x80000000#32

def PHYSTOP : Word := 0xE000000#32

/-- `sz` is the end of the process's memory. `live` lists the pointers in use with the number of
bytes asked for. -/
structure State where
  ptr : Word → Word
  size : Word → Word
  freep : Word
  sz : Word
  live : List (Word × ℕ)

section Kernel

/-- `frames` tells whether the kernel has the frames; it has none beyond `PHYSTOP`. -/
def allocuvm (oldsz newsz : Word) (frames : Bool) : Word :=
  if KERNBASE ≤ newsz then 0
  else if newsz < oldsz then oldsz
  else if frames ∧ newsz ≤ PHYSTOP then newsz
  else 0

def deallocuvm (oldsz newsz : Word) : Word := if oldsz ≤ newsz then oldsz else newsz

def growproc (sz n : Word) (frames : Bool) : Option Word :=
  if 0 < n.toInt then
    if allocuvm sz (sz+n) frames = 0 then none else some (allocuvm sz (sz+n) frames)
  else if n.toInt < 0 then
    if deallocuvm sz (sz+n) = 0 then none else some (deallocuvm sz (sz+n))
  else some sz

def sbrk (s : State) (n : Word) (frames : Bool) : State × Word :=
  match growproc s.sz n frames with
  | none => (s,-1)
  | some sz => ({ s with sz },s.sz)

end Kernel

section Memory

/-- The end of the pages of the process. -/
def State.top (s : State) : ℕ := (s.sz.toNat+4095)/4096*4096

-- The pointer is the first word of a header and the size the second one.
def State.ptrOf (s : State) (a : Word) : Except Stop Word :=
  if a.toNat+4 ≤ s.top then .ok (s.ptr a) else .error .fault

def State.sizeOf (s : State) (a : Word) : Except Stop Word :=
  if a.toNat+8 ≤ s.top then .ok (s.size a) else .error .fault

def State.setPtr (s : State) (a v : Word) : Except Stop State :=
  if a.toNat+4 ≤ s.top then .ok { s with ptr := Function.update s.ptr a v } else .error .fault

def State.setSize (s : State) (a v : Word) : Except Stop State :=
  if a.toNat+8 ≤ s.top then .ok { s with size := Function.update s.size a v } else .error .fault

end Memory

section Free

def spot (s : State) (bp : Word) : ℕ → Word → Except Stop Word
  | 0, _ => .error .outOfFuel
  | n+1, p => do
    let q ← s.ptrOf p
    if p < bp ∧ bp < q then .ok p
    else if q ≤ p ∧ (p < bp ∨ bp < q) then .ok p
    else spot s bp n q

def joinUpper (s : State) (p bp : Word) : Except Stop State := do
  let k ← s.sizeOf bp
  let q ← s.ptrOf p
  if bp+8*k = q then
    let m ← s.sizeOf q
    let s ← s.setSize bp (k+m)
    let r ← s.ptrOf q
    s.setPtr bp r
  else s.setPtr bp q

def joinLower (s : State) (p bp : Word) : Except Stop State := do
  let k ← s.sizeOf p
  if p+8*k = bp then
    let m ← s.sizeOf bp
    let s ← s.setSize p (k+m)
    let r ← s.ptrOf bp
    s.setPtr p r
  else s.setPtr p bp

def free (fuel : ℕ) (s : State) (ap : Word) : Except Stop State :=
  let bp := ap-8
  if s.freep = 0 then .error .nullPointer
  else do
    let p ← spot s bp fuel s.freep
    let s ← joinUpper s p bp
    let s ← joinLower s p bp
    .ok { s with freep := p, live := s.live.filter (·.1 ≠ ap) }

end Free

section Malloc

def morecore (fuel : ℕ) (s : State) (nunits : Word) (frames : Bool) : Except Stop (State × Option Word) :=
  let nu := if nunits < 4096 then 4096 else nunits
  match sbrk s (nu*8) frames with
  | (s,hp) =>
    if hp = -1 then .ok (s,none)
    else do
      let s ← s.setSize hp nu
      let s ← free fuel s (hp+8)
      .ok (s,some s.freep)

def take (s : State) (nunits prevp p : Word) : Except Stop (State × Option Word) := do
  let k ← s.sizeOf p
  if k = nunits then
    let q ← s.ptrOf p
    let s ← s.setPtr prevp q
    .ok ({ s with freep := prevp },some (p+8))
  else
    let s ← s.setSize p (k-nunits)
    let q := p+8*(k-nunits)
    let s ← s.setSize q nunits
    .ok ({ s with freep := prevp },some (q+8))

def search (nunits : Word) : ℕ → State → List Bool → Word → Word → Except Stop (State × Option Word)
  | 0, _, _, _, _ => .error .outOfFuel
  | n+1, s, frames, prevp, p => do
    let k ← s.sizeOf p
    if nunits ≤ k then take s nunits prevp p
    else if p = s.freep then
      match ← morecore n s nunits (frames.headD false) with
      | (s,none) => .ok (s,none)
      | (s,some p) =>
        let q ← s.ptrOf p
        search nunits n s frames.tail p q
    else
      let q ← s.ptrOf p
      search nunits n s frames p q

def units (nbytes : Word) : Word := (nbytes+8-1)/8+1

def State.use (s : State) (nbytes : Word) : Option Word → State
  | none => s
  | some p => { s with live := (p,nbytes.toNat) :: s.live }

def init (base : Word) (s : State) : Except Stop State :=
  if s.freep = 0 then do
    let s ← s.setPtr base base
    let s ← s.setSize base 0
    .ok { s with freep := base }
  else .ok s

def malloc (base : Word) (fuel : ℕ) (s : State) (frames : List Bool) (nbytes : Word) :
    Except Stop (State × Option Word) := do
  let s ← init base s
  let q ← s.ptrOf s.freep
  let (s,p) ← search (units nbytes) fuel s frames s.freep q
  .ok (s.use nbytes p,p)

end Malloc

section Runs

/-- Where the linker put `base`, and the end of the program, which `exec` rounds up to a page. -/
structure Image where
  base : Word
  sz : Word
  nonnull : base ≠ 0
  below : base.toNat+8 ≤ sz.toNat
  fits : sz ≤ PHYSTOP

inductive Action
  | malloc (nbytes : Word) (frames : List Bool)
  | free (ap : Word)
  /-- The program stores into one of its blocks, where a header may have been. -/
  | store (a ptr size : Word)
  /-- The program calls `sbrk` itself. -/
  | grow (n : Word) (frames : Bool)

def State.fuel (s : State) : ℕ := 2*s.sz.toNat+8

def next (i : Image) (s : State) : Action → Except Stop (State × Option Word)
  | .malloc nbytes frames => malloc i.base s.fuel s frames nbytes
  | .free ap =>
    match free s.fuel s ap with
    | .error e => .error e
    | .ok s => .ok (s,none)
  | .store a ptr size =>
    .ok ({ s with ptr := Function.update s.ptr a ptr, size := Function.update s.size a size },none)
  | .grow n frames => .ok ((sbrk s n frames).1,some (sbrk s n frames).2)

def boot (i : Image) (ptr size : Word → Word) : State := ⟨ptr,size,0,i.sz,[]⟩

end Runs

end Xv6.Umalloc.Machine
