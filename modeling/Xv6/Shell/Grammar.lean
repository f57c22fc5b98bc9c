import Xv6.Library.Wp
import Xv6.Shell.Tokens

/-! # The grammar of commands

Each derivation of the grammar carries its tree. The parser over tokens returns only derived
trees, and from every derivation followed by a token that may follow it the parser comes back
with its tree; the depth of its calls is linear in the number of tokens.
-/
namespace Xv6.Shell
open Program

inductive Operator
  | less
  | greater
  | append
  deriving DecidableEq

def Operator.token : Operator → Token
  | .less => .less
  | .greater => .greater
  | .append => .append

structure Redir where
  op : Operator
  file : List Char

def Redir.tokens (r : Redir) : List Token := [r.op.token,.word r.file]

def Redir.wrap (cmd : Cmd (List Char)) (r : Redir) : Cmd (List Char) :=
  match r.op with
  | .less => .redir cmd r.file O_RDONLY 0
  | .greater => .redir cmd r.file (O_WRONLY ||| O_CREATE) 1
  | .append => .redir cmd r.file (O_WRONLY ||| O_CREATE) 1

abbrev Arg := List Char × List Redir

def Arg.tokens (a : Arg) : List Token := .word a.1 :: a.2.flatMap Redir.tokens

inductive Nonterminal
  | line
  | pipe
  | exec

/-- `line ::= pipe '&'* [';' line]`, `pipe ::= exec ['|' pipe]` and
`exec ::= '(' line ')' redir* | redir* (word redir*)*`, with the tree of each derivation. -/
inductive Derives : Nonterminal → List Token → Cmd (List Char) → Prop
  | line {ts : List Token} {c : Cmd (List Char)} (n : ℕ) : Derives .pipe ts c →
      Derives .line (ts ++ List.replicate n .amp) (.back^[n] c)
  | seq {ts us : List Token} {c d : Cmd (List Char)} (n : ℕ) : Derives .pipe ts c → Derives .line us d →
      Derives .line (ts ++ List.replicate n .amp ++ .semi :: us) (.list (.back^[n] c) d)
  | pipe {ts : List Token} {c : Cmd (List Char)} : Derives .exec ts c → Derives .pipe ts c
  | bar {ts us : List Token} {c d : Cmd (List Char)} : Derives .exec ts c → Derives .pipe us d →
      Derives .pipe (ts ++ .bar :: us) (.pipe c d)
  | block {ts : List Token} {c : Cmd (List Char)} (rs : List Redir) : Derives .line ts c →
      Derives .exec (.lparen :: ts ++ .rparen :: rs.flatMap Redir.tokens) (rs.foldl Redir.wrap c)
  | simple (rs : List Redir) (args : List Arg) : args.length ≤ MAXARGS-1 →
      Derives .exec (rs.flatMap Redir.tokens ++ args.flatMap Arg.tokens)
        ((rs ++ args.flatMap Prod.snd).foldl Redir.wrap (.exec (args.map Prod.fst)))

section Sound
variable {n : ℕ} {ts : List Token} {toks : List Char}

theorem peek_wp {α : Type} {x y : EStateM Stop (List Token) α} {Q : α → List Token → Prop} {E : Stop → Prop}
    (hx : ∀ t us, ts = t :: us → (t.first.any toks.contains) = true → Wp x Q E ts)
    (hy : (ts.head?.bind Token.first).any toks.contains = false → Wp y Q E ts) :
    Wp (tokenList.peek toks >>= fun more => if more then x else y) Q E ts := by
  refine Wp.bind ?_
  change Wp (if (ts.head?.bind Token.first).any toks.contains then x else y) Q E ts
  refine Wp.ite (fun h => ?_) fun h => hy (Bool.eq_false_iff.mpr h)
  cases ts with
  | nil => cases h
  | cons t us => exact hx t us rfl h

theorem gettoken_wp {α : Type} {f : Char × List Char → EStateM Stop (List Token) α} {Q : α → List Token → Prop}
    {E : Stop → Prop} {t : Token} {us : List Token} (h : Wp (f (t.code,t.text)) Q E us) :
    Wp (tokenList.gettoken >>= f) Q E (t :: us) := h

theorem gettoken_nil_wp {α : Type} {f : Char × List Char → EStateM Stop (List Token) α} {Q : α → List Token → Prop}
    {E : Stop → Prop} (h : Wp (f (NUL,[])) Q E []) : Wp (tokenList.gettoken >>= f) Q E [] := h

theorem code_ne_nul (t : Token) : t.code ≠ NUL := by
  cases t with
  | word w => exact (by decide : 'a' ≠ NUL)
  | _ => decide

theorem redircmd_operator (op : Operator) (cmd : Cmd (List Char)) (file : List Char) :
    redircmd op.token.code cmd file = Redir.wrap cmd ⟨op,file⟩ := by
  cases op <;> rfl

theorem operator_of_first {t : Token} (h : t.first.any ['<','>'].contains = true) : ∃ op : Operator, t = op.token := by
  cases t with
  | less => exact ⟨.less,rfl⟩
  | greater => exact ⟨.greater,rfl⟩
  | append => exact ⟨.append,rfl⟩
  | word w => cases h
  | _ => exact absurd h (by decide)

theorem parseredirs_sound (cmd : Cmd (List Char)) (hn : ts.length < n) :
    Wp (parseredirs tokenList n cmd)
      (fun c us => ∃ rs : List Redir, ts = rs.flatMap Redir.tokens ++ us ∧ c = rs.foldl Redir.wrap cmd)
      (· ≠ .outOfFuel) ts := by
  induction n generalizing ts cmd with
  | zero => exact absurd hn (Nat.not_lt_zero _)
  | succ n ih =>
    refine peek_wp ?_ fun _ => Wp.pure ⟨[],rfl,rfl⟩
    rintro t us rfl ht
    obtain ⟨op,rfl⟩ := operator_of_first ht
    refine gettoken_wp ?_
    cases us with
    | nil => exact gettoken_nil_wp (Wp.ite (fun _ => Wp.throw (by decide)) fun h => absurd h (by decide))
    | cons t us =>
      refine gettoken_wp (Wp.ite (fun _ => Wp.throw (by decide)) fun hword => ?_)
      obtain ⟨w,rfl⟩ := code_word (not_not.mp hword)
      rw [redircmd_operator]
      refine (ih _ (by simp at hn; omega)).mono ?_
      rintro c vs ⟨rs,rfl,rfl⟩
      exact ⟨⟨op,w⟩ :: rs,rfl,rfl⟩

theorem push_wrap (rs : List Redir) (ws : List (List Char)) (w : List Char) :
    (rs.foldl Redir.wrap (.exec ws)).push w = rs.foldl Redir.wrap (.exec (ws ++ [w])) := by
  induction rs using List.reverseRecOn with
  | nil => rfl
  | append_singleton rs r ih =>
    rw [List.foldl_append,List.foldl_append,← ih]
    obtain ⟨op,file⟩ := r
    cases op <;> rfl

theorem parseargs_sound (rs : List Redir) (ws : List (List Char)) (hws : ws.length < MAXARGS) (hn : ts.length < n) :
    Wp (parseargs tokenList n ws.length (rs.foldl Redir.wrap (.exec ws)))
      (fun c us => ∃ args : List Arg, ts = args.flatMap Arg.tokens ++ us ∧ ws.length+args.length < MAXARGS ∧
        c = (rs ++ args.flatMap Prod.snd).foldl Redir.wrap (.exec (ws ++ args.map Prod.fst)))
      (· ≠ .outOfFuel) ts := by
  induction n generalizing ts rs ws with
  | zero => exact absurd hn (Nat.not_lt_zero _)
  | succ n ih =>
    have hdone : ∃ args : List Arg, ts = args.flatMap Arg.tokens ++ ts ∧ ws.length+args.length < MAXARGS ∧
        rs.foldl Redir.wrap (.exec ws) =
          (rs ++ args.flatMap Prod.snd).foldl Redir.wrap (.exec (ws ++ args.map Prod.fst)) :=
      ⟨[],rfl,hws,by simp⟩
    refine peek_wp (fun _ _ _ _ => Wp.pure hdone) fun _ => ?_
    cases ts with
    | nil => exact gettoken_nil_wp (Wp.ite (fun _ => Wp.pure hdone) fun h => absurd rfl h)
    | cons t us =>
      refine gettoken_wp (Wp.ite (fun h => absurd h (code_ne_nul t)) fun _ => ?_)
      refine Wp.ite (fun _ => Wp.throw (by decide)) fun hword => ?_
      obtain ⟨w,rfl⟩ := code_word (not_not.mp hword)
      refine Wp.ite (fun _ => Wp.throw (by decide)) fun hargs => ?_
      rw [List.length_cons] at hn
      rw [push_wrap]
      refine (parseredirs_sound _ (Nat.lt_of_succ_lt_succ hn)).step ?_
      rintro _ vs ⟨rs',rfl,rfl⟩
      rw [← List.foldl_append]
      have hlen : ws.length+1 = (ws ++ [w]).length := by simp
      rw [hlen]
      refine (ih (rs ++ rs') (ws ++ [w]) (by simp at hargs ⊢; omega) ?_).mono ?_
      · simp only [List.length_append] at hn
        omega
      · rintro c us ⟨args,rfl,hcount,rfl⟩
        refine ⟨(w,rs') :: args,?_,?_,?_⟩
        · simp [Arg.tokens]
        · simp only [List.length_append,List.length_cons,List.length_nil] at hcount ⊢
          omega
        · simp

theorem parsebacks_sound (cmd : Cmd (List Char)) (hn : ts.length < n) :
    Wp (parsebacks tokenList n cmd)
      (fun c us => ∃ k : ℕ, ts = List.replicate k .amp ++ us ∧ c = .back^[k] cmd) (· ≠ .outOfFuel) ts := by
  induction n generalizing ts cmd with
  | zero => exact absurd hn (Nat.not_lt_zero _)
  | succ n ih =>
    refine peek_wp ?_ fun _ => Wp.pure ⟨0,rfl,rfl⟩
    rintro t us rfl ht
    have ht : t = .amp := by
      cases t with
      | amp => rfl
      | word w => cases ht
      | _ => exact absurd ht (by decide)
    subst ht
    refine gettoken_wp ((ih _ (Nat.lt_of_succ_lt_succ hn)).mono ?_)
    rintro c vs ⟨k,rfl,rfl⟩
    exact ⟨k+1,rfl,rfl⟩

theorem symbol_first {t : Token} {a : Char} (h : t.first = some a) (ha : a ≠ '>') : symbol a = some t := by
  cases t with
  | word w => cases h
  | greater | append =>
    cases h
    exact absurd rfl ha
  | _ =>
    cases h
    rfl

theorem first_eq {t u : Token} {a : Char} (h : t.first.any [a].contains = true) (hu : u.first = some a)
    (ha : a ≠ '>') : t = u := by
  have ht : t.first = some a := by
    cases hf : t.first with
    | none => simp [hf] at h
    | some b =>
      rw [hf] at h
      simpa using h
  exact Option.some.inj ((symbol_first ht ha).symm.trans (symbol_first hu ha))

/-- What the four functions return is derived, for calls deep enough never to run out of fuel. -/
theorem descent_sound (n : ℕ) :
    (∀ ts : List Token, 4*ts.length+4 ≤ n → Wp (parseline tokenList n)
      (fun c us => ∃ vs, ts = vs ++ us ∧ Derives .line vs c) (· ≠ .outOfFuel) ts) ∧
    (∀ ts : List Token, 4*ts.length+3 ≤ n → Wp (parsepipe tokenList n)
      (fun c us => ∃ vs, ts = vs ++ us ∧ Derives .pipe vs c) (· ≠ .outOfFuel) ts) ∧
    (∀ ts : List Token, 4*ts.length+2 ≤ n → Wp (parseexec tokenList n)
      (fun c us => ∃ vs, ts = vs ++ us ∧ Derives .exec vs c) (· ≠ .outOfFuel) ts) ∧
    (∀ ts : List Token, 4*ts.length+1 ≤ n → Wp (parseblock tokenList n)
      (fun c us => ∃ vs, ts = vs ++ us ∧ Derives .exec vs c) (· ≠ .outOfFuel) ts) := by
  induction n with
  | zero => exact ⟨nofun,nofun,nofun,nofun⟩
  | succ n ih =>
    obtain ⟨hline,hpipe,hexec,hblock⟩ := ih
    rw [parseline,parsepipe,parseexec,parseblock]
    refine ⟨fun ts hn => ?_,fun ts hn => ?_,fun ts hn => ?_,fun ts hn => ?_⟩
    · refine (hpipe ts (by omega)).step ?_
      rintro c _ ⟨vs,rfl,hvs⟩
      rw [List.length_append] at hn
      refine (parsebacks_sound c (by omega)).step ?_
      rintro _ us ⟨k,rfl,rfl⟩
      refine peek_wp ?_ fun _ => Wp.pure ⟨vs ++ List.replicate k .amp,by simp,.line k hvs⟩
      rintro t us rfl ht
      cases first_eq ht (u := .semi) rfl (by decide)
      rw [List.length_append,List.length_cons] at hn
      refine gettoken_wp ((hline us (by omega)).step ?_)
      rintro d rest ⟨ws,rfl,hws⟩
      exact Wp.pure ⟨vs ++ List.replicate k .amp ++ .semi :: ws,by simp,.seq k hvs hws⟩
    · refine (hexec ts (by omega)).step ?_
      rintro c us ⟨vs,rfl,hvs⟩
      rw [List.length_append] at hn
      refine peek_wp ?_ fun _ => Wp.pure ⟨vs,rfl,.pipe hvs⟩
      rintro t us rfl ht
      cases first_eq ht (u := .bar) rfl (by decide)
      rw [List.length_cons] at hn
      refine gettoken_wp ((hpipe us (by omega)).step ?_)
      rintro d rest ⟨ws,rfl,hws⟩
      exact Wp.pure ⟨vs ++ .bar :: ws,by simp,.bar hvs hws⟩
    · refine peek_wp (fun _ _ _ _ => hblock ts (by omega)) fun _ => ?_
      refine (parseredirs_sound (.exec []) (by omega)).step ?_
      rintro _ us ⟨rs,rfl,rfl⟩
      rw [List.length_append] at hn
      refine (parseargs_sound rs [] (by decide) (by omega)).mono ?_
      rintro c rest ⟨args,rfl,hargs,rfl⟩
      refine ⟨_,(List.append_assoc _ _ _).symm,.simple rs args ?_⟩
      simp only [List.length_nil] at hargs
      omega
    · refine peek_wp ?_ fun _ => Wp.throw (by decide)
      rintro t us rfl ht
      cases first_eq ht (u := .lparen) rfl (by decide)
      rw [List.length_cons] at hn
      refine gettoken_wp ((hline us (by omega)).step ?_)
      rintro c us ⟨vs,rfl,hvs⟩
      rw [List.length_append] at hn
      refine peek_wp ?_ fun _ => Wp.throw (by decide)
      rintro t us rfl ht
      cases first_eq ht (u := .rparen) rfl (by decide)
      rw [List.length_cons] at hn
      refine gettoken_wp ((parseredirs_sound c (by omega)).mono ?_)
      rintro d rest ⟨rs,rfl,rfl⟩
      exact ⟨_,by simp,.block rs hvs⟩

end Sound

section Complete
variable {n : ℕ} {ts us : List Token} {toks : List Char}

theorem branch_true {α : Type} {x y : EStateM Stop (List Token) α}
    (h : (ts.head?.bind Token.first).any toks.contains = true) :
    (tokenList.peek toks >>= fun more => if more then x else y) ts = x ts := by
  change (if (ts.head?.bind Token.first).any toks.contains then x else y) ts = x ts
  rw [if_pos h]

theorem branch_false {α : Type} {x y : EStateM Stop (List Token) α}
    (h : (ts.head?.bind Token.first).any toks.contains = false) :
    (tokenList.peek toks >>= fun more => if more then x else y) ts = y ts := by
  change (if (ts.head?.bind Token.first).any toks.contains then x else y) ts = y ts
  rw [if_neg (Bool.eq_false_iff.mp h)]

theorem gettoken_cons {α : Type} (f : Char × List Char → EStateM Stop (List Token) α) (t : Token) (ts : List Token) :
    (tokenList.gettoken >>= f) (t :: ts) = f (t.code,t.text) ts := rfl

def Before (toks : List Char) (us : List Token) : Prop := ∀ t ∈ us.head?, ∃ a ∈ toks, t.first = some a

theorem Before.any (h : Before toks us) {other : List Char} (hother : ∀ a ∈ toks, a ∉ other) :
    (us.head?.bind Token.first).any other.contains = false := by
  cases us with
  | nil => rfl
  | cons t us =>
    obtain ⟨a,ha,ht⟩ := h t rfl
    simpa [ht] using hother a ha

theorem Before.mono (h : Before toks us) {other : List Char} (hsub : toks ⊆ other) : Before other us := by
  intro t ht
  obtain ⟨a,ha,hfirst⟩ := h t ht
  exact ⟨a,hsub ha,hfirst⟩

theorem length_le_redirs (rs : List Redir) : rs.length ≤ (rs.flatMap Redir.tokens).length := by
  rw [List.length_flatMap]
  simp [Redir.tokens]
  omega

theorem parseredirs_complete (rs : List Redir) (cmd : Cmd (List Char))
    (hus : (us.head?.bind Token.first).any ['<','>'].contains = false) (hn : rs.length < n) :
    parseredirs tokenList n cmd (rs.flatMap Redir.tokens ++ us) = .ok (rs.foldl Redir.wrap cmd) us := by
  induction rs generalizing n cmd with
  | nil =>
    obtain ⟨n,rfl⟩ := Nat.exists_eq_add_of_lt hn
    simp only [List.length_nil,Nat.zero_add]
    exact branch_false hus
  | cons r rs ih =>
    obtain ⟨m,rfl⟩ : ∃ m, n = m+1 := ⟨n-1,by omega⟩
    obtain ⟨op,file⟩ := r
    refine (branch_true ?_).trans ?_
    · cases op <;> rfl
    · simp only [List.flatMap_cons,Redir.tokens,List.cons_append,List.nil_append,gettoken_cons]
      rw [if_neg (by simp [Token.code]),redircmd_operator]
      exact ih _ (by simpa using hn)

/-- What follows the redirections of an argument: the next argument or the end of the command. -/
theorem args_no_redir (args : List Arg) (hus : Before ['|',')','&',';'] us) :
    ((args.flatMap Arg.tokens ++ us).head?.bind Token.first).any ['<','>'].contains = false := by
  cases args with
  | nil => exact hus.any (by simp)
  | cons a args => rfl

theorem parseargs_complete (rs : List Redir) (ws : List (List Char)) (args : List Arg)
    (hus : Before ['|',')','&',';'] us) (hcount : ws.length+args.length < MAXARGS)
    (hn : (args.flatMap Arg.tokens ++ us).length < n) :
    parseargs tokenList n ws.length (rs.foldl Redir.wrap (.exec ws)) (args.flatMap Arg.tokens ++ us) =
      .ok ((rs ++ args.flatMap Prod.snd).foldl Redir.wrap (.exec (ws ++ args.map Prod.fst))) us := by
  induction args generalizing n rs ws with
  | nil =>
    obtain ⟨m,rfl⟩ : ∃ m, n = m+1 := ⟨n-1,by omega⟩
    simp only [List.flatMap_nil,List.nil_append,List.append_nil,List.map_nil]
    cases us with
    | nil => rfl
    | cons t us =>
      obtain ⟨a,ha,ht⟩ := hus t rfl
      exact branch_true (by simpa [ht] using ha)
  | cons a args ih =>
    obtain ⟨m,rfl⟩ : ∃ m, n = m+1 := ⟨n-1,by omega⟩
    obtain ⟨w,rs'⟩ := a
    simp only [List.flatMap_cons,Arg.tokens,List.cons_append,List.length_cons,List.append_assoc,
      List.length_append] at hn hcount ⊢
    refine (branch_false rfl).trans ?_
    rw [gettoken_cons,if_neg (code_ne_nul _),if_neg (by simp [Token.code]),if_neg (by omega),push_wrap]
    have hlen := length_le_redirs rs'
    rw [bind_of_ok (parseredirs_complete rs' _ (args_no_redir args hus) (by omega)),← List.foldl_append]
    have hws : ws.length+1 = (ws ++ [w]).length := by simp
    rw [hws]
    refine (ih (rs ++ rs') (ws ++ [w]) (by rw [← hws]; omega) (by simp only [List.length_append]; omega)).trans ?_
    simp

theorem parsebacks_complete (k : ℕ) (cmd : Cmd (List Char))
    (hus : (us.head?.bind Token.first).any ['&'].contains = false) (hn : k < n) :
    parsebacks tokenList n cmd (List.replicate k .amp ++ us) = .ok (.back^[k] cmd) us := by
  induction k generalizing n cmd with
  | zero =>
    obtain ⟨m,rfl⟩ : ∃ m, n = m+1 := ⟨n-1,by omega⟩
    exact branch_false hus
  | succ k ih =>
    obtain ⟨m,rfl⟩ : ∃ m, n = m+1 := ⟨n-1,by omega⟩
    rw [List.replicate_succ,List.cons_append]
    refine (branch_true rfl).trans ?_
    exact ih (.back cmd) (by omega)

def Nonterminal.follow : Nonterminal → List Char
  | .line => [')']
  | .pipe => [')','&',';']
  | .exec => ['|',')','&',';']

def Nonterminal.parse : Nonterminal → ℕ → EStateM Stop (List Token) (Cmd (List Char))
  | .line => parseline tokenList
  | .pipe => parsepipe tokenList
  | .exec => parseexec tokenList

def Nonterminal.depth : Nonterminal → ℕ → ℕ
  | .line, k => 4*k+4
  | .pipe, k => 4*k+3
  | .exec, k => 4*k+2

theorem derives_complete {nt : Nonterminal} {c : Cmd (List Char)} (h : Derives nt ts c) :
    ∀ us n, Before nt.follow us → nt.depth (ts ++ us).length ≤ n → nt.parse n (ts ++ us) = .ok c us := by
  induction h with
  | @line ts c k _ ih =>
    intro us n hus hn
    obtain ⟨m,rfl⟩ : ∃ m, n = m+1 := ⟨n-1,by simp only [Nonterminal.depth] at hn; omega⟩
    simp only [Nonterminal.depth,List.length_append,List.length_replicate] at hn
    have hpipe : Before Nonterminal.pipe.follow (List.replicate k .amp ++ us) := by
      cases k with
      | zero => exact hus.mono (by simp [Nonterminal.follow])
      | succ k =>
        intro t ht
        cases ht
        exact ⟨'&',by simp [Nonterminal.follow],rfl⟩
    have h1 := ih (List.replicate k .amp ++ us) m hpipe
      (by simp only [Nonterminal.depth,List.length_append,List.length_replicate]; omega)
    rw [List.append_assoc,Nonterminal.parse,parseline]
    refine (bind_of_ok h1).trans ((bind_of_ok (parsebacks_complete k c (hus.any (by simp [Nonterminal.follow]))
      (by omega))).trans ?_)
    exact branch_false (hus.any (by simp [Nonterminal.follow]))
  | @seq ts vs c d k _ _ ihp ihl =>
    intro us n hus hn
    obtain ⟨m,rfl⟩ : ∃ m, n = m+1 := ⟨n-1,by simp only [Nonterminal.depth] at hn; omega⟩
    simp only [Nonterminal.depth,List.length_append,List.length_replicate,List.length_cons] at hn
    have hpipe : Before Nonterminal.pipe.follow (List.replicate k .amp ++ .semi :: (vs ++ us)) := by
      cases k with
      | zero =>
        intro t ht
        cases ht
        exact ⟨';',by simp [Nonterminal.follow],rfl⟩
      | succ k =>
        intro t ht
        cases ht
        exact ⟨'&',by simp [Nonterminal.follow],rfl⟩
    have h1 := ihp (List.replicate k .amp ++ .semi :: (vs ++ us)) m hpipe
      (by simp only [Nonterminal.depth,List.length_append,List.length_replicate,List.length_cons]; omega)
    have h2 := ihl us m hus (by simp only [Nonterminal.depth,List.length_append]; omega)
    simp only [List.append_assoc,List.cons_append]
    rw [Nonterminal.parse,parseline]
    refine (bind_of_ok h1).trans ((bind_of_ok (parsebacks_complete k c rfl (by omega))).trans ?_)
    refine (branch_true rfl).trans ?_
    rw [gettoken_cons]
    exact bind_of_ok h2
  | @pipe ts c _ ih =>
    intro us n hus hn
    obtain ⟨m,rfl⟩ : ∃ m, n = m+1 := ⟨n-1,by simp only [Nonterminal.depth] at hn; omega⟩
    have h1 := ih us m (hus.mono (by simp [Nonterminal.follow]))
      (by simp only [Nonterminal.depth] at hn ⊢; omega)
    rw [Nonterminal.parse,parsepipe]
    refine (bind_of_ok h1).trans ?_
    exact branch_false (hus.any (by simp [Nonterminal.follow]))
  | @bar ts vs c d _ _ ihe ihp =>
    intro us n hus hn
    obtain ⟨m,rfl⟩ : ∃ m, n = m+1 := ⟨n-1,by simp only [Nonterminal.depth] at hn; omega⟩
    simp only [Nonterminal.depth,List.length_append,List.length_cons] at hn
    have hexec : Before Nonterminal.exec.follow (.bar :: (vs ++ us)) := by
      intro t ht
      cases ht
      exact ⟨'|',by simp [Nonterminal.follow],rfl⟩
    have h1 := ihe (.bar :: (vs ++ us)) m hexec
      (by simp only [Nonterminal.depth,List.length_append,List.length_cons]; omega)
    have h2 := ihp us m hus (by simp only [Nonterminal.depth,List.length_append]; omega)
    simp only [List.append_assoc,List.cons_append]
    rw [Nonterminal.parse,parsepipe]
    refine (bind_of_ok h1).trans ((branch_true rfl).trans ?_)
    rw [gettoken_cons]
    exact bind_of_ok h2
  | @block ts c rs _ ih =>
    intro us n hus hn
    simp only [Nonterminal.depth,List.length_append,List.length_cons] at hn
    obtain ⟨m,rfl⟩ : ∃ m, n = m+1+1 := ⟨n-2,by omega⟩
    have hline : Before Nonterminal.line.follow (.rparen :: (rs.flatMap Redir.tokens ++ us)) := by
      intro t ht
      cases ht
      exact ⟨')',by simp [Nonterminal.follow],rfl⟩
    have h1 := ih (.rparen :: (rs.flatMap Redir.tokens ++ us)) m hline
      (by simp only [Nonterminal.depth,List.length_append,List.length_cons]; omega)
    have hlen := length_le_redirs rs
    simp only [List.append_assoc,List.cons_append]
    rw [Nonterminal.parse,parseexec,parseblock]
    refine (branch_true rfl).trans ((branch_true rfl).trans ?_)
    rw [gettoken_cons]
    refine (bind_of_ok h1).trans ((branch_true rfl).trans ?_)
    rw [gettoken_cons]
    exact parseredirs_complete rs c (hus.any (by simp [Nonterminal.follow])) (by omega)
  | simple rs args hcount =>
    intro us n hus hn
    simp only [Nonterminal.depth,List.length_append] at hn
    obtain ⟨m,rfl⟩ : ∃ m, n = m+1 := ⟨n-1,by omega⟩
    have hlen := length_le_redirs rs
    have hopen : ((rs.flatMap Redir.tokens ++ (args.flatMap Arg.tokens ++ us)).head?.bind Token.first).any
        ['('].contains = false := by
      cases rs with
      | nil =>
        cases args with
        | nil => exact hus.any (by simp [Nonterminal.follow])
        | cons a args => rfl
      | cons r rs =>
        obtain ⟨op,file⟩ := r
        cases op <;> rfl
    rw [List.append_assoc,Nonterminal.parse,parseexec]
    refine (branch_false hopen).trans ?_
    refine (bind_of_ok (parseredirs_complete rs _ (args_no_redir args hus) (by omega))).trans ?_
    refine parseargs_complete rs [] args hus ?_ ?_
    · rw [List.length_nil,Nat.zero_add]
      exact Nat.lt_of_le_of_lt hcount (by decide)
    · simp only [List.length_append]
      omega

theorem Derives.unique {c d : Cmd (List Char)} (h : Derives .line ts c) (h' : Derives .line ts d) : c = d := by
  have hc := derives_complete h [] _ nofun le_rfl
  have hd := derives_complete h' [] _ nofun le_rfl
  rw [hc] at hd
  exact (EStateM.Result.ok.inj hd).1

end Complete

end Xv6.Shell
