import Xv6.Shell.Descent
import Xv6.Shell.Grammar

/-! # The parser accepts its grammar -/
namespace Xv6.Shell
open Program
variable {s : List Char}

theorem length_extend (a : Char) (ts : List Token) : (extend a ts).length ≤ ts.length+1 := by
  unfold extend
  split
  · simp
  · simp

theorem length_tokens (s : List Char) : (tokens s).length ≤ s.length := by
  fun_induction tokens s with
  | case1 => exact le_rfl
  | case2 s ih =>
    simp only [List.length_cons]
    omega
  | case3 a s _ _ ih =>
    simp only [List.length_cons]
    omega
  | case4 a s _ _ t _ ih =>
    simp only [List.length_cons]
    omega
  | case5 a s _ _ _ _ ih =>
    have := length_extend a (tokens s)
    simp only [List.length_cons]
    omega
  | case6 a s _ _ _ _ ih =>
    simp only [List.length_cons]
    omega

theorem skip_eq_nil_iff {line : List Char} (hline : NUL ∉ line) (hs : s <:+ line) : skip s = [] ↔ tokens s = [] := by
  rcases skip_cases hline hs with ⟨hu,ht⟩ | ⟨a,u,t,r,hu,_,ht⟩
  · simp [hu,ht]
  · rw [← tokens_skip,hu,ht.tokens]
    simp

/-- On every line the parser comes back, and it returns a command just when the tokens of the
line are derived from the grammar; the command then reads as the tree of the derivation. -/
theorem parsecmd_iff_derives (hs : NUL ∉ s) : parsecmd s ≠ .error .outOfFuel ∧
    ∀ t, (∃ r, parsecmd s = .ok r ∧ strings r = t) ↔ Derives .line (tokens s) t := by
  have hlen := length_tokens s
  have hsim := (descent_sim (agree_chars hs) (4*s.length+4)).1
  have hreads : Reads s s (tokens s) := ⟨List.suffix_rfl,rfl⟩
  have hsound := (descent_sound (4*s.length+4)).1 (tokens s) (by omega)
  have hcomplete : ∀ t, Derives .line (tokens s) t → parseline tokenList (4*s.length+4) (tokens s) = .ok t [] := by
    intro t ht
    have := derives_complete ht [] (4*s.length+4) (by simp [Before])
      (by simp only [List.append_nil,Nonterminal.depth]; omega)
    rwa [List.append_nil] at this
  cases hp : parseline tokenList (4*s.length+4) (tokens s) with
  | error e us =>
    obtain ⟨rest,hchars⟩ := hsim.error hreads hp
    have hcmd : parsecmd s = .error e := by rw [parsecmd,hchars]
    have he := hsound.error hp
    refine ⟨by rw [hcmd]; simpa using he,fun t => ⟨?_,fun ht => ?_⟩⟩
    · rintro ⟨r,hr,_⟩
      rw [hcmd] at hr
      cases hr
    · rw [hcomplete t ht] at hp
      cases hp
  | ok t us =>
    obtain ⟨cmd,rest,hchars,hrel,hrest,rfl⟩ := hsim.ok hreads hp
    obtain ⟨vs,hvs,hderives⟩ := hsound.ok hp
    by_cases hnil : tokens rest = []
    · have hcmd : parsecmd s = .ok (cmd,nulterminate s cmd) := by
        have hskip : (peek [] rest).2 = [] := (skip_eq_nil_iff hs hrest).mpr hnil
        simp only [parsecmd,hchars,hskip,ne_eq,not_true_eq_false,↓reduceIte]
      rw [hnil,List.append_nil] at hvs
      refine ⟨by rw [hcmd]; simp,fun t' => ⟨?_,fun ht => ⟨_,hcmd,?_⟩⟩⟩
      · rintro ⟨r,hr,rfl⟩
        rw [hcmd] at hr
        cases hr
        rw [strings_nulterminate hs hrel,hvs]
        exact hderives
      · rw [strings_nulterminate hs hrel]
        rw [hvs] at ht
        exact hderives.unique ht
    · have hcmd : parsecmd s = .error .leftovers := by
        have hskip : (peek [] rest).2 ≠ [] := fun h => hnil ((skip_eq_nil_iff hs hrest).mp h)
        simp only [parsecmd,hchars,ne_eq,hskip,not_false_eq_true,↓reduceIte]
      refine ⟨by rw [hcmd]; decide,fun t' => ⟨?_,fun ht => ?_⟩⟩
      · rintro ⟨r,hr,_⟩
        rw [hcmd] at hr
        cases hr
      · rw [hcomplete t' ht] at hp
        exact absurd (EStateM.Result.ok.inj hp).2.symm hnil

def sampleLine : List Char := "a<b;(c|d)&".toList

theorem parsecmd_iff_derives_sampleLine : Derives .line (tokens sampleLine)
    (.list (.redir (.exec [['a']]) ['b'] O_RDONLY 0) (.back (.pipe (.exec [['c']]) (.exec [['d']])))) := by
  refine ((parsecmd_iff_derives (by decide)).2 _).mp ?_
  exact ⟨_,rfl,by decide⟩

end Xv6.Shell
