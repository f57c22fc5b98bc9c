import Xv6.Vm.Atomicity
import Xv6.Vm.Copyout

/-! # The arguments of a new program

A successful `exec` has built the stack that the program expects, and arguments that do not fit are
refused, unless one of them is so long that its address wraps around to where the kernel has no page
table.
-/
namespace Xv6.Vm
open Wmap Kernel Program
variable {s s' : Ctx} {t t' : Task} {ip : ℕ} {path : List Byte} {argv : List Arg}

section Main

theorem pageLookup_uva2ka : PageLookup uva2ka (fun pd x => (pd.pde (PDX x)).isSome) kernelMapped :=
  ⟨looksUp_uva2ka,fun _ _ h => h,fun _ x hkernel hx => hkernel.tables x hx⟩

def Placeable (t : Task) (ip : ℕ) (argv : List Arg) : Prop := ¬ Stranded kernelMapped t ip argv

/-- Every success leaves the stack that the program expects, and arguments that do not fit on it are refused. -/
structure PassesArguments (t : Task) (ip : ℕ) (path : List Byte) (argv : List Arg) : Prop where
  done : ∀ t', exec uva2ka (some ip) path argv t = .ok 0 t' →
    ∃ arr ptrs, ArgStack t'.ctx t'.ctx.cur.pgdir t'.ctx.cur.sz t'.esp argv arr ptrs
  refused : ¬ StackFits argv → ∃ t', exec uva2ka (some ip) path argv t = .ok (-1) t'

/-- A string that wraps around to an address without a page table ends the call. -/
theorem exec_stranded (h : Runnable t ip) (hstranded : Stranded kernelMapped t ip argv) (path : List Byte) :
    ∃ t', exec uva2ka (some ip) path argv t = .error .undefined t' := by
  have houtcome := exec_outcome pageLookup_uva2ka h path argv
  generalize exec uva2ka (some ip) path argv t = result at houtcome ⊢
  obtain ⟨elf,size,hprog,hroomy,hmissing⟩ := hstranded
  cases houtcome with
  | failed t' hfailed hunlocked hreason => exact absurd hmissing (hreason elf size hprog hroomy).2
  | done t' ptrs hdone hunlocked hfits => exact absurd hfits hmissing.not_fits
  | stranded t' => exact ⟨t',rfl⟩

/-- `exec` passes its arguments unless the file is a program, there is memory for it, and the first argument
that does not fit wraps around to where the kernel has no page table. -/
theorem exec_arguments (h : Runnable t ip) : PassesArguments t ip path argv ↔ Placeable t ip argv := by
  constructor
  · intro hpasses hstranded
    obtain ⟨t',hrun⟩ := exec_stranded h hstranded path
    obtain ⟨elf,size,-,-,hmissing⟩ := hstranded
    obtain ⟨t₁,hrefused⟩ := hpasses.refused hmissing.not_fits
    rw [hrun] at hrefused
    cases hrefused
  · intro hplace
    have houtcome := exec_outcome pageLookup_uva2ka h path argv
    generalize hresult : exec uva2ka (some ip) path argv t = result at houtcome
    cases houtcome with
    | failed t' hfailed =>
      refine ⟨fun t'' hrun => ?_,fun _ => ⟨t',hresult⟩⟩
      rw [hresult] at hrun
      cases hrun
    | done t' ptrs hdone hunlocked hfits hstack =>
      refine ⟨fun t'' hrun => ?_,fun hnot => absurd hfits hnot⟩
      rw [hresult] at hrun
      cases hrun
      exact ⟨_,ptrs,hstack⟩
    | stranded t' hstranded => exact absurd hstranded hplace

/-- The program runs with its two arguments on the stack. -/
theorem exec_arguments_elfTask : Runnable elfTask 1 ∧ Placeable elfTask 1 echoArgs ∧
    PassesArguments elfTask 1 [] echoArgs ∧ ∃ t' arr ptrs, exec uva2ka (some 1) [] echoArgs elfTask = .ok 0 t' ∧
      ArgStack t'.ctx t'.ctx.cur.pgdir t'.ctx.cur.sz t'.esp echoArgs arr ptrs := by
  have hplace : Placeable elfTask 1 echoArgs := by
    rintro ⟨elf,size,-,-,hmissing⟩
    exact hmissing.not_fits echoArgs_fit.1
  have hpasses : PassesArguments elfTask 1 [] echoArgs := (exec_arguments runnable_elfTask).mpr hplace
  obtain ⟨t',hrun⟩ := exec_succeeds pageLookup_uva2ka runnable_elfTask executable_elfTask roomy_elfTask echoArgs_fit.1
    echoArgs_fit.2 []
  obtain ⟨arr,ptrs,hstack⟩ := hpasses.done t' hrun
  exact ⟨runnable_elfTask,hplace,hpasses,t',arr,ptrs,hrun,hstack⟩

end Main

section Long

def longArg (n : ℕ) (hn : n < 2^31) : Arg where
  bytes := List.replicate n 0x41
  noNul h := absurd (List.eq_of_mem_replicate h) (by decide)
  short := by rwa [List.length_replicate]

theorem room_longArg (n : ℕ) (hn : n < 2^31) : (longArg n hn).room = (n+4)/4*4 := by
  unfold Arg.room longArg
  rw [List.length_replicate]

/-- The address of a string of 33570815 characters is above physical memory, where the lookup reads through a
null pointer. -/
theorem exec_longArg : ∃ a : Arg, a.bytes.length = 33570815 ∧ ¬ StackFits [a] ∧
    (∃ t', exec uva2ka (some 1) [] [a] elfTask = .error .undefined t') ∧ ¬ PassesArguments elfTask 1 [] [a] := by
  have hlt : 33570815 < 2^31 := by decide
  have hroom := room_longArg 33570815 hlt
  have hlength : (longArg 33570815 hlt).bytes.length = 33570815 := List.length_replicate
  generalize longArg 33570815 hlt = a at hroom hlength
  have hmissing : Missing kernelMapped (stackTop 8) 0 0 [a] := by
    refine ⟨[],a,[],0xFDFFF000,rfl,by decide,by decide,?_,?_,?_⟩
    · rw [hroom]
      decide
    · rw [hroom]
      decide
    · unfold kernelMapped
      decide
  obtain ⟨t',hrun⟩ := exec_stranded runnable_elfTask ⟨_,8,executable_elfTask,roomy_elfTask,hmissing⟩ []
  refine ⟨a,hlength,hmissing.not_fits,⟨t',hrun⟩,fun h => ?_⟩
  obtain ⟨t'',hrefused⟩ := h.refused hmissing.not_fits
  rw [hrun] at hrefused
  cases hrefused

end Long
end Xv6.Vm
