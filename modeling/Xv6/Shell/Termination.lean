import Xv6.Shell.Descent

/-! # The terminated words

`nulterminate` writes over the blanks and symbols behind the words only, so that the string at the
start of a word is the text that the tokenizer has delimited.
-/
namespace Xv6.Shell
open Program
variable {s line : List Char} {cmd : Cmd Extent}

def delimited (e : Extent) : List Char := e.1.take (e.1.length-e.2.length)

theorem Spells.delimited_eq {e : Extent} {w : List Char} (h : Spells e w) : delimited e = w := by
  rw [delimited,h.text,List.length_append,Nat.add_sub_cancel,List.take_left]

theorem parseline_words (hs : NUL ∉ s) {n : ℕ} {rest : List Char} (h : parseline chars n s = .ok cmd rest) :
    ∃ t, Cmd.Rel (WordIn s) cmd t := by
  have hsim := (descent_sim (agree_chars hs) n).1
  have hreads : Reads s s (tokens s) := ⟨List.suffix_rfl,rfl⟩
  cases hp : parseline tokenList n (tokens s) with
  | error e us =>
    obtain ⟨rest',hchars⟩ := hsim.error hreads hp
    rw [h] at hchars
    cases hchars
  | ok t us =>
    obtain ⟨cmd',rest',hchars,hrel,-⟩ := hsim.ok hreads hp
    rw [h] at hchars
    cases hchars
    exact ⟨t,hrel⟩

theorem terminate_frame (es : List Extent) (l : List Char) {i : ℕ} (hi : ∀ e ∈ es, i ≠ l.length-e.2.length) :
    (es.foldl (fun l e => terminate l e.2) l)[i]? = l[i]? := by
  induction es generalizing l with
  | nil => rfl
  | cons e es ih =>
    have hlen : (terminate l e.2).length = l.length := List.length_set
    rw [List.foldl_cons,ih (terminate l e.2) fun e' he' => by rw [hlen]; exact hi e' (List.mem_cons_of_mem e he')]
    exact List.getElem?_set_ne (hi e List.mem_cons_self).symm

theorem parsecmd_ok (h : parsecmd s = .ok (cmd,line)) :
    (∃ rest, parseline chars (4*s.length+4) s = .ok cmd rest) ∧ line = nulterminate s cmd := by
  unfold parsecmd at h
  cases hp : parseline chars (4*s.length+4) s with
  | error e rest =>
    rw [hp] at h
    cases h
  | ok c rest =>
    rw [hp] at h
    dsimp only at h
    split at h
    · cases h
    · cases h
      exact ⟨⟨rest,rfl⟩,rfl⟩

/-- Every word of the command, read as a string in the line as it was left, is the text that the tokenizer delimited for
it in the line as it was; the tree is the one that was parsed, and only the characters behind words have changed. -/
theorem words_terminated (s : List Char) (hs : NUL ∉ s) (cmd : Cmd Extent) (line : List Char)
    (h : parsecmd s = .ok (cmd,line)) : (∃ rest, parseline chars (4*s.length+4) s = .ok cmd rest) ∧
    (∀ e ∈ cmd.words, e.1 <:+ s ∧ e.2 <:+ e.1 ∧ cstring line e.1 = delimited e) ∧
    ∀ i : ℕ, (∀ e ∈ cmd.words, i ≠ s.length-e.2.length) → (line)[i]? = s[i]? := by
  obtain ⟨⟨rest,hrest⟩,rfl⟩ := parsecmd_ok h
  obtain ⟨t,hrel⟩ := parseline_words hs hrest
  have hmask : Masked s s := ⟨rfl,fun i => .inl rfl⟩
  obtain ⟨hm,hclosed⟩ := masked_words hmask hrel.exists_word
  refine ⟨⟨rest,hrest⟩,fun e he => ?_,fun i hi => ?_⟩
  · obtain ⟨w,hw⟩ := hrel.exists_word e he
    refine ⟨hw.1,⟨w,hw.2.text.symm⟩,?_⟩
    rw [nulterminate_words,cstring_word hs hm hw (hclosed e (.inl he)),hw.2.delimited_eq]
  · rw [nulterminate_words]
    exact terminate_frame cmd.words s hi

def tightLine : List Char := "a bc>d;e".toList

theorem words_terminated_tightLine : ∃ cmd line, parsecmd tightLine = .ok (cmd,line) ∧
    cmd.words.map (fun e => cstring line e.1) = cmd.words.map delimited := by
  obtain ⟨⟨cmd,line⟩,h⟩ : ∃ r, parsecmd tightLine = .ok r := ⟨_,rfl⟩
  obtain ⟨-,hwords,-⟩ := words_terminated tightLine (by decide) cmd line h
  exact ⟨cmd,line,h,List.map_congr_left fun e he => (hwords e he).2.2⟩

end Xv6.Shell
