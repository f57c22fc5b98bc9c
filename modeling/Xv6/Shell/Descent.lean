import Xv6.Shell.Tokens

/-! # One descent over characters and over tokens

Two scanners whose calls agree drive the parser to the same tree, up to how the words are
represented. Then the pointers of the tree over the line are replaced by the strings that
`nulterminate` leaves there.
-/
namespace Xv6.Shell
open Program

inductive Cmd.Rel {W W' : Type} (S : W → W' → Prop) : Cmd W → Cmd W' → Prop
  | exec {a : List W} {b : List W'} : List.Forall₂ S a b → Rel S (.exec a) (.exec b)
  | redir {c : Cmd W} {d : Cmd W'} {v : W} {w : W'} (mode fd : ℕ) : Rel S c d → S v w →
      Rel S (.redir c v mode fd) (.redir d w mode fd)
  | pipe {c c' : Cmd W} {d d' : Cmd W'} : Rel S c d → Rel S c' d' → Rel S (.pipe c c') (.pipe d d')
  | list {c c' : Cmd W} {d d' : Cmd W'} : Rel S c d → Rel S c' d' → Rel S (.list c c') (.list d d')
  | back {c : Cmd W} {d : Cmd W'} : Rel S c d → Rel S (.back c) (.back d)

section Agree
variable {σ τ W W' : Type} {R : σ → τ → Prop} {S : W → W' → Prop} {c : Scanner σ W} {d : Scanner τ W'}

structure Agree (R : σ → τ → Prop) (S : W → W' → Prop) (c : Scanner σ W) (d : Scanner τ W') : Prop where
  peek : ∀ toks, (∀ b ∈ toks, b ∈ symbols) → Sim R Eq (c.peek toks) (d.peek toks)
  gettoken : Sim R (fun x y => x.1 = y.1 ∧ (y.1 = 'a' → S x.2 y.2)) c.gettoken d.gettoken

variable (h : Agree R S c d)
include h

/-- A test of the next symbol takes both parsers into the same branch. -/
theorem Agree.branch {α α' : Type} {T : α → α' → Prop} {x x' : EStateM Stop σ α} {y y' : EStateM Stop τ α'}
    {toks : List Char} (htoks : ∀ b ∈ toks, b ∈ symbols) (hx : Sim R T x y) (hx' : Sim R T x' y') :
    Sim R T (c.peek toks >>= fun more => if more then x else x') (d.peek toks >>= fun more => if more then y else y') := by
  refine (h.peek toks htoks).bind ?_
  rintro more _ rfl
  exact Sim.ite hx hx'

theorem parseredirs_sim (n : ℕ) {cmd : Cmd W} {cmd' : Cmd W'} (hcmd : Cmd.Rel S cmd cmd') :
    Sim R (Cmd.Rel S) (parseredirs c n cmd) (parseredirs d n cmd') := by
  induction n generalizing cmd cmd' with
  | zero => exact Sim.throw _
  | succ n ih =>
    refine h.branch (by simp [symbols]) ?_ (.pure hcmd)
    refine h.gettoken.bind ?_
    rintro ⟨tok,v⟩ ⟨_,v'⟩ ⟨rfl,_⟩
    refine h.gettoken.bind ?_
    rintro ⟨a,w⟩ ⟨_,w'⟩ ⟨rfl,hw⟩
    by_cases ha : a = 'a'
    · subst ha
      refine ih ?_
      simp only [redircmd]
      split
      · exact .redir _ _ hcmd (hw rfl)
      · split
        · exact .redir _ _ hcmd (hw rfl)
        · split
          · exact .redir _ _ hcmd (hw rfl)
          · exact hcmd
    · simp only [ne_eq,ha,not_false_eq_true,↓reduceIte]
      exact Sim.throw _

omit h in
theorem Cmd.Rel.push {cmd : Cmd W} {cmd' : Cmd W'} (hcmd : Cmd.Rel S cmd cmd') {w : W} {w' : W'} (hw : S w w') :
    Cmd.Rel S (cmd.push w) (cmd'.push w') := by
  induction hcmd with
  | exec hargv => exact .exec (List.rel_append hargv (.cons hw .nil))
  | redir mode fd _ hfile ih => exact .redir mode fd ih hfile
  | pipe hl hr _ _ => exact .pipe hl hr
  | list hl hr _ _ => exact .list hl hr
  | back hc _ => exact .back hc

theorem parseargs_sim (n argc : ℕ) {cmd : Cmd W} {cmd' : Cmd W'} (hcmd : Cmd.Rel S cmd cmd') :
    Sim R (Cmd.Rel S) (parseargs c n argc cmd) (parseargs d n argc cmd') := by
  induction n generalizing argc cmd cmd' with
  | zero => exact Sim.throw _
  | succ n ih =>
    refine h.branch (by simp [symbols]) (.pure hcmd) ?_
    refine h.gettoken.bind ?_
    rintro ⟨a,w⟩ ⟨_,w'⟩ ⟨rfl,hw⟩
    refine Sim.ite (.pure hcmd) ?_
    by_cases ha : a = 'a'
    · subst ha
      simp only [ne_eq,not_true_eq_false,↓reduceIte]
      refine Sim.ite (.throw _) ?_
      exact (parseredirs_sim h n (hcmd.push (hw rfl))).bind fun _ _ hret => ih (argc+1) hret
    · simp only [ne_eq,ha,not_false_eq_true,↓reduceIte]
      exact Sim.throw _

theorem parsebacks_sim (n : ℕ) {cmd : Cmd W} {cmd' : Cmd W'} (hcmd : Cmd.Rel S cmd cmd') :
    Sim R (Cmd.Rel S) (parsebacks c n cmd) (parsebacks d n cmd') := by
  induction n generalizing cmd cmd' with
  | zero => exact Sim.throw _
  | succ n ih => exact h.branch (by simp [symbols]) (h.gettoken.bind fun _ _ _ => ih (.back hcmd)) (.pure hcmd)

/-- The four mutually recursive functions, by induction on the depth of the calls. -/
theorem descent_sim (n : ℕ) : Sim R (Cmd.Rel S) (parseline c n) (parseline d n) ∧
    Sim R (Cmd.Rel S) (parsepipe c n) (parsepipe d n) ∧ Sim R (Cmd.Rel S) (parseexec c n) (parseexec d n) ∧
    Sim R (Cmd.Rel S) (parseblock c n) (parseblock d n) := by
  induction n with
  | zero =>
    rw [parseline,parseline,parsepipe,parsepipe,parseexec,parseexec,parseblock,parseblock]
    exact ⟨Sim.throw _,Sim.throw _,Sim.throw _,Sim.throw _⟩
  | succ n ih =>
    obtain ⟨hline,hpipe,hexec,hblock⟩ := ih
    rw [parseline,parseline,parsepipe,parsepipe,parseexec,parseexec,parseblock,parseblock]
    refine ⟨?_,?_,?_,?_⟩
    · refine hpipe.bind fun _ _ hcmd => (parsebacks_sim h n hcmd).bind fun _ _ hcmd => ?_
      exact h.branch (by simp [symbols])
        (h.gettoken.bind fun _ _ _ => hline.bind fun _ _ hright => .pure (.list hcmd hright)) (.pure hcmd)
    · refine hexec.bind fun _ _ hcmd => ?_
      exact h.branch (by simp [symbols])
        (h.gettoken.bind fun _ _ _ => hpipe.bind fun _ _ hright => .pure (.pipe hcmd hright)) (.pure hcmd)
    · refine h.branch (by simp [symbols]) hblock ?_
      exact (parseredirs_sim h n (.exec .nil)).bind fun _ _ hret => parseargs_sim h n 0 hret
    · refine h.branch (by simp [symbols]) ?_ (.throw _)
      refine h.gettoken.bind fun _ _ _ => hline.bind fun _ _ hcmd => ?_
      exact h.branch (by simp [symbols]) (h.gettoken.bind fun _ _ _ => parseredirs_sim h n hcmd) (.throw _)

end Agree

section Strings
variable {W W' : Type} {input l : List Char} {e : Extent} {w : List Char} {es : List Extent}

theorem agree_chars (hline : NUL ∉ input) : Agree (Reads input) (WordIn input) chars tokenList where
  peek _ htoks := peek_sim hline htoks
  gettoken := gettoken_sim hline

def Cmd.words : Cmd W → List W
  | .exec argv => argv
  | .redir cmd file _ _ => cmd.words ++ [file]
  | .pipe left right => left.words ++ right.words
  | .list left right => left.words ++ right.words
  | .back cmd => cmd.words

theorem nulterminate_words (l : List Char) (cmd : Cmd Extent) :
    nulterminate l cmd = cmd.words.foldl (fun l e => terminate l e.2) l := by
  induction cmd generalizing l with
  | exec argv => rfl
  | redir cmd file mode fd ih => rw [nulterminate,Cmd.words,List.foldl_append,ih]; rfl
  | pipe left right ihl ihr => rw [nulterminate,Cmd.words,List.foldl_append,ihl,ihr]
  | list left right ihl ihr => rw [nulterminate,Cmd.words,List.foldl_append,ihl,ihr]
  | back cmd ih => rw [nulterminate,Cmd.words,ih]

theorem Cmd.Rel.exists_word {S : W → W' → Prop} {c : Cmd W} {d : Cmd W'} (h : Cmd.Rel S c d) :
    ∀ v ∈ c.words, ∃ w, S v w := by
  induction h with
  | exec hargv =>
    intro v hv
    induction hargv with
    | nil => cases hv
    | cons hw _ ih =>
      rcases List.mem_cons.mp hv with rfl | hv
      · exact ⟨_,hw⟩
      · exact ih hv
  | redir mode fd _ hfile ih =>
    intro v hv
    rcases List.mem_append.mp hv with hv | hv
    · exact ih v hv
    · rw [List.mem_singleton.mp hv]
      exact ⟨_,hfile⟩
  | pipe _ _ ihl ihr | list _ _ ihl ihr =>
    intro v hv
    rcases List.mem_append.mp hv with hv | hv
    · exact ihl v hv
    · exact ihr v hv
  | back _ ih => exact ih

theorem Cmd.Rel.map_eq {S : W → W' → Prop} {c : Cmd W} {d : Cmd W'} (h : Cmd.Rel S c d) {f : W → W'}
    (hf : ∀ v ∈ c.words, ∀ w, S v w → f v = w) : c.map f = d := by
  induction h with
  | exec hargv =>
    rw [Cmd.map]
    congr 1
    induction hargv with
    | nil => rfl
    | cons hw _ ih =>
      rw [List.map_cons,hf _ List.mem_cons_self _ hw,ih fun v hv => hf v (List.mem_cons_of_mem _ hv)]
  | redir mode fd _ hfile ih =>
    rw [Cmd.map,ih fun v hv => hf v (List.mem_append_left _ hv),
      hf _ (List.mem_append_right _ (List.mem_singleton.mpr rfl)) _ hfile]
  | pipe _ _ ihl ihr | list _ _ ihl ihr =>
    rw [Cmd.map,ihl fun v hv => hf v (List.mem_append_left _ hv),ihr fun v hv => hf v (List.mem_append_right _ hv)]
  | back _ ih => rw [Cmd.map,ih hf]

structure Masked (input l : List Char) : Prop where
  length : l.length = input.length
  keeps : ∀ i : ℕ, l[i]? = input[i]? ∨ (l[i]? = some NUL ∧ ∀ a, input[i]? = some a → ordinary a = false)

def Closed (input l : List Char) (e : Extent) : Prop := ∀ a, l[input.length-e.2.length]? = some a → a = NUL

theorem WordIn.position (h : WordIn input e w) : ∃ pre, input = pre ++ (w ++ e.2) ∧
    input.length-e.1.length = pre.length ∧ input.length-e.2.length = pre.length+w.length := by
  obtain ⟨⟨pre,hpre⟩,hs⟩ := h
  rw [hs.text] at hpre
  refine ⟨pre,hpre.symm,?_,?_⟩
  · rw [← hpre,hs.text]
    simp
  · rw [← hpre]
    simp only [List.length_append]
    omega

theorem Masked.terminate (hm : Masked input l) (he : WordIn input e w) : Masked input (terminate l e.2) := by
  obtain ⟨pre,hline,_,hpos⟩ := he.position
  refine ⟨by rw [Shell.terminate,List.length_set,hm.length],fun i => ?_⟩
  rw [Shell.terminate,hm.length,List.getElem?_set,hm.length]
  split
  · rename_i hi
    subst hi
    split
    · refine .inr ⟨rfl,fun a ha => he.2.ends a ?_⟩
      rw [hpos,hline,← List.append_assoc,List.getElem?_append_right (by simp)] at ha
      simpa [List.head?_eq_getElem?] using ha
    · rename_i hi
      exact .inl (List.getElem?_eq_none (Nat.not_lt.mp hi)).symm
  · exact hm.keeps i

theorem Closed.terminate (hc : Closed input l e) (e' : Extent) : Closed input (terminate l e'.2) e := by
  intro a ha
  rw [Shell.terminate,List.getElem?_set] at ha
  split at ha
  · split at ha
    · exact (Option.some.inj ha).symm
    · cases ha
  · exact hc a ha

theorem closed_terminate (hm : Masked input l) : Closed input (terminate l e.2) e := by
  intro a ha
  rw [Shell.terminate,hm.length,List.getElem?_set_self'] at ha
  obtain ⟨_,_,rfl⟩ := Option.map_eq_some_iff.mp ha
  rfl

theorem masked_words (hm : Masked input l) (hes : ∀ e ∈ es, ∃ w, WordIn input e w) :
    Masked input (es.foldl (fun l e => terminate l e.2) l) ∧
      (∀ e, e ∈ es ∨ Closed input l e → Closed input (es.foldl (fun l e => terminate l e.2) l) e) := by
  induction es generalizing l with
  | nil => exact ⟨hm,fun e he => he.resolve_left (by simp)⟩
  | cons e' es ih =>
    obtain ⟨w,hw⟩ := hes e' List.mem_cons_self
    obtain ⟨hmask,hclosed⟩ := ih (hm.terminate hw) fun e he => hes e (List.mem_cons_of_mem _ he)
    refine ⟨hmask,fun e he => hclosed e ?_⟩
    rcases he with he | he
    · rcases List.mem_cons.mp he with rfl | he
      · exact .inr (closed_terminate hm)
      · exact .inl he
    · exact .inr (he.terminate e')

theorem takeWhile_of_getElem {l w : List Char} {n : ℕ} (hw : NUL ∉ w)
    (hsame : ∀ k < w.length, l[n+k]? = w[k]?) (hend : ∀ a, l[n+w.length]? = some a → a = NUL) :
    (l.drop n).takeWhile (· ≠ NUL) = w := by
  induction w generalizing n with
  | nil =>
    cases hd : l.drop n with
    | nil => rfl
    | cons a r =>
      have ha : l[n]? = some a := by
        rw [← List.head?_drop,hd]
        rfl
      simp [hend a ha]
  | cons b w ih =>
    have hb : l[n]? = some b := hsame 0 (by simp)
    have hne : b ≠ NUL := fun h => hw (by simp [h])
    obtain ⟨hn,hget⟩ := List.getElem?_eq_some_iff.mp hb
    rw [List.drop_eq_getElem_cons hn,hget,List.takeWhile_cons,if_pos (by simpa using hne)]
    congr 1
    refine ih (fun h => hw (by simp [h])) ?_ ?_
    · intro k hk
      have := hsame (k+1) (by simp; omega)
      rw [List.getElem?_cons_succ] at this
      rw [← this]
      congr 1
      omega
    · intro a ha
      refine hend a ?_
      rw [← ha,List.length_cons]
      congr 1
      omega

theorem cstring_word (hline : NUL ∉ input) (hm : Masked input l) (he : WordIn input e w) (hc : Closed input l e) :
    cstring l e.1 = w := by
  obtain ⟨pre,hsplit,hstart,hend⟩ := he.position
  have hget : ∀ k < w.length, input[pre.length+k]? = w[k]? := by
    intro k hk
    rw [hsplit,List.getElem?_append_right (by omega),Nat.add_sub_cancel_left,List.getElem?_append_left hk]
  rw [cstring,hm.length,hstart]
  refine takeWhile_of_getElem ?_ ?_ ?_
  · intro hn
    refine hline ?_
    rw [hsplit]
    simp [hn]
  · intro k hk
    rcases hm.keeps (pre.length+k) with hk' | ⟨_,hno⟩
    · exact hk'.trans (hget k hk)
    · have hord := hno _ ((hget k hk).trans (List.getElem?_eq_getElem hk))
      rw [he.2.ordinary _ (List.getElem_mem hk)] at hord
      cases hord
  · intro a ha
    exact hc a (hend ▸ ha)

theorem strings_nulterminate (hline : NUL ∉ input) {cmd : Cmd Extent} {t : Cmd (List Char)}
    (h : Cmd.Rel (WordIn input) cmd t) : strings (cmd,nulterminate input cmd) = t := by
  have hmask : Masked input input := ⟨rfl,fun i => .inl rfl⟩
  obtain ⟨hm,hclosed⟩ := masked_words hmask h.exists_word
  rw [strings,nulterminate_words]
  exact h.map_eq fun e he w hw => cstring_word hline hm hw (hclosed e (.inl he))

end Strings

end Xv6.Shell
