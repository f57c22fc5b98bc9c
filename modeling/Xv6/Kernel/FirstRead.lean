import Xv6.Kernel.FaultResolution

/-! # The first access to a page

A load of the user program that faults gets its byte from what the handler does the first time. If
the page is not accessible then, a further fault changes nothing, or the memory is used up and the
process ends.
-/
namespace Xv6.Kernel
open Wmap Program
variable {s u v : Ctx} {x a : Word} {p : Ptr} {f : Frame} {fs : List Frame} {m : Access} {b : Byte} {n : ℕ}

section Barred

end Barred

section Supply

/-- What the handler fetches for a page of the mapping: the frame, and the state in which the frame is mapped. The
frame is cleared, or it has the next page of the file. -/
inductive Fetches (s : Ctx) (p : Ptr) : Frame → Ctx → Prop
  | anonymous {f : Frame} {fs : List Frame} (flags : (s.tab.deref p).flags &&& MAP_ANONYMOUS ≠ 0)
    (free : s.mem.freelist = f :: fs) : Fetches s p f (s.cleared f fs)
  | file {f g : Frame} {fs : List Frame} {k : Fin NFILE} {bytes : List Byte} {s' : Ctx}
    (flags : (s.tab.deref p).flags &&& MAP_ANONYMOUS = 0) (free : s.mem.freelist = f :: g :: fs)
    (opened : ofile (s.tab.deref p).fd (s.cleared f fs) = .ok (some k) (s.cleared f fs))
    (read : fileread k 4096 (s.cleared f fs) = .ok (some bytes) s') :
    Fetches s p g { s' with mem := { s'.mem with page := Function.update s'.mem.page g (fillPage bytes) } }

theorem Fetches.same (h : Fetches s p f u) : u.cur = s.cur ∧ u.tab = s.tab := by
  cases h with
  | anonymous => exact ⟨rfl,rfl⟩
  | file _ _ _ hread =>
    have hfiles := filesOnly_fileread hread
    rw [hfiles]
    exact ⟨rfl,rfl⟩

theorem loadFile_ok {g : Frame} (fd : Word) (hfree : u.mem.freelist = g :: fs) : loadFile p fd a u = .ok false v ↔
    ∃ k bytes s', ofile fd { u with mem := { u.mem with freelist := fs } } =
        .ok (some k) { u with mem := { u.mem with freelist := fs } } ∧
      fileread k 4096 { u with mem := { u.mem with freelist := fs } } = .ok (some bytes) s' ∧
      mapPage p a g { s' with mem := { s'.mem with page := Function.update s'.mem.page g (fillPage bytes) } } = .ok false v := by
  have halloc : kalloc u = .ok (some g) { u with mem := { u.mem with freelist := fs } } := by rw [kalloc_apply,hfree]
  unfold loadFile
  rw [bind_of_ok halloc]
  dsimp only
  constructor
  · intro h
    obtain ⟨file,u₁,h1,h2⟩ := bind_eq_ok.mp h
    obtain rfl := ofile_state h1
    cases file with
    | none => cases h2
    | some k =>
      obtain ⟨bytes,s',h3,h4⟩ := bind_eq_ok.mp h2
      cases bytes with
      | none => cases h4
      | some bytes => exact ⟨k,bytes,s',h1,h3,h4⟩
  · rintro ⟨k,bytes,s',h1,h3,h4⟩
    rw [bind_of_ok h1]
    dsimp only
    rw [bind_of_ok h3]
    exact h4

/-- Without a page table the handler fetches a frame and maps it. -/
theorem faultBody_fetches (hp : pageInMappings s.tab x = .ok (some p))
    (hwalk : walkpgdir s.cur.pgdir (faultPage (s.tab.deref p).startAddress x) = none) :
    faultBody x s = .ok false v ↔
      ∃ f u, Fetches s p f u ∧ mapPage p (faultPage (s.tab.deref p).startAddress x) f u = .ok false v := by
  rw [faultBody_found hp,hwalk]
  dsimp only
  cases hfree : s.mem.freelist with
  | nil =>
    refine iff_of_false (fun h => by cases h) ?_
    rintro ⟨f,u,⟨-,hcons⟩ | ⟨-,hcons,-,-⟩,-⟩
    · rw [hfree] at hcons
      cases hcons
    · rw [hfree] at hcons
      cases hcons
  | cons f free =>
    dsimp only
    by_cases hanon : (s.tab.deref p).flags &&& MAP_ANONYMOUS ≠ 0
    · rw [if_pos hanon]
      constructor
      · exact fun h => ⟨f,s.cleared f free,.anonymous hanon hfree,h⟩
      · rintro ⟨f',u,⟨-,hcons⟩ | ⟨hflags,-,-,-⟩,h⟩
        · rw [hfree] at hcons
          cases hcons
          exact h
        · exact absurd hflags hanon
    · rw [if_neg hanon]
      cases free with
      | nil =>
        have hnone : kalloc (s.cleared f []) = .ok none (s.cleared f []) := rfl
        refine iff_of_false (fun h => ?_) ?_
        · unfold loadFile at h
          rw [bind_of_ok hnone] at h
          cases h
        · rintro ⟨f',u,⟨hflags,-⟩ | ⟨-,hcons,-,-⟩,-⟩
          · exact hanon hflags
          · rw [hfree] at hcons
            cases hcons
      | cons g fs =>
        rw [@loadFile_ok _ _ _ _ fs g _ rfl]
        constructor
        · rintro ⟨k,bytes,s',h1,h2,h3⟩
          exact ⟨g,_,.file (not_not.mp hanon) hfree h1 h2,h3⟩
        · rintro ⟨f',u,⟨hflags,-⟩ | ⟨-,hcons,h1,h2⟩,h3⟩
          · exact absurd hflags hanon
          · rw [hfree] at hcons
            cases hcons
            exact ⟨_,_,_,h1,h2,h3⟩

end Supply
end Xv6.Kernel
