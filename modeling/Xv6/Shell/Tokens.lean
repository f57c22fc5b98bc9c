import Xv6.Library.Simulation
import Xv6.Shell.Parser

/-! # The tokens of a line

The tokens are defined by recursion on the line alone. On a line without `NUL` the cursor of the
parser stands for the tokens that are left: `peek` looks at the first one and `gettoken` takes it.
-/
namespace Xv6.Shell
open Program

inductive Token
  | word (text : List Char)
  | bar
  | amp
  | semi
  | lparen
  | rparen
  | less
  | greater
  | append
  deriving DecidableEq

def symbol (a : Char) : Option Token :=
  if a = '|' then some .bar
  else if a = '&' then some .amp
  else if a = ';' then some .semi
  else if a = '(' then some .lparen
  else if a = ')' then some .rparen
  else if a = '<' then some .less
  else if a = '>' then some .greater
  else none

def extend (a : Char) : List Token → List Token
  | .word w :: ts => .word (a :: w) :: ts
  | ts => .word [a] :: ts

def tokens : List Char → List Token
  | [] => []
  | '>' :: '>' :: s => .append :: tokens s
  | a :: s =>
    if whitespace.contains a then tokens s
    else match symbol a with
      | some t => t :: tokens s
      | none => if (s.head?.map ordinary).getD false then extend a (tokens s) else .word [a] :: tokens s

def Token.code : Token → Char
  | .word _ => 'a'
  | .bar => '|'
  | .amp => '&'
  | .semi => ';'
  | .lparen => '('
  | .rparen => ')'
  | .less => '<'
  | .greater => '>'
  | .append => '+'

def Token.first : Token → Option Char
  | .word _ => none
  | .append => some '>'
  | t => some t.code

def Token.text : Token → List Char
  | .word w => w
  | _ => []

def tokenList : Scanner (List Token) (List Char) where
  peek toks ts := .ok ((ts.head?.bind Token.first).any toks.contains) ts
  gettoken
    | [] => .ok (NUL,[]) []
    | t :: ts => .ok (t.code,t.text) ts

section Lexing
variable {a : Char} {s w r : List Char}

def Ends (s : List Char) : Prop := ∀ a ∈ s.head?, ordinary a = false

theorem tokens_blank (h : whitespace.contains a = true) (s : List Char) : tokens (a :: s) = tokens s := by
  rw [tokens]
  · rw [if_pos h]
  · rintro s' rfl
    exact absurd h (by decide)

theorem tokens_skip (s : List Char) : tokens (skip s) = tokens s := by
  induction s with
  | nil => rfl
  | cons a s ih =>
    rw [skip,List.dropWhile_cons]
    split
    · rename_i h
      rw [tokens_blank h]
      exact ih
    · rfl

theorem ordinary_iff : ordinary a = true ↔ whitespace.contains a = false ∧ symbols.contains a = false := by
  simp [ordinary]

theorem symbol_eq_none (h : symbols.contains a = false) : symbol a = none := by
  simp only [symbols,List.contains_cons,List.contains_nil,Bool.or_eq_false_iff,beq_eq_false_iff_ne] at h
  obtain ⟨h1,h2,h3,h4,h5,h6,h7,_⟩ := h
  simp only [symbol,h1,h2,h3,h4,h5,h6,h7,↓reduceIte]

theorem ordinary_ne_greater (h : ordinary a = true) : a ≠ '>' := by
  rintro rfl
  revert h
  decide

theorem tokens_ordinary (h : ordinary a = true) (s : List Char) :
    tokens (a :: s) = if (s.head?.map ordinary).getD false then extend a (tokens s) else .word [a] :: tokens s := by
  obtain ⟨hw,hs⟩ := ordinary_iff.mp h
  rw [tokens]
  · simp only [hw,Bool.false_eq_true,↓reduceIte,symbol_eq_none hs]
  · rintro s' rfl
    exact absurd rfl (ordinary_ne_greater h)

theorem tokens_word (hw : w ≠ []) (ho : ∀ a ∈ w, ordinary a = true) (hr : Ends r) :
    tokens (w ++ r) = .word w :: tokens r := by
  induction w with
  | nil => exact absurd rfl hw
  | cons a w ih =>
    rw [List.cons_append,tokens_ordinary (ho a (by simp))]
    cases w with
    | nil =>
      rw [List.nil_append,if_neg]
      cases r with
      | nil => simp
      | cons b r => simpa using hr b (by simp)
    | cons b w =>
      have hb : ordinary b = true := ho b (by simp)
      rw [ih (by simp) fun a ha => ho a (by simp [ha])]
      simp [hb,extend]

theorem tokens_symbol {t : Token} (h : symbol a = some t) (hgt : a = '>' → s.head? ≠ some '>') :
    tokens (a :: s) = t :: tokens s := by
  have hb : whitespace.contains a = false := by
    refine Bool.eq_false_iff.mpr fun hb => ?_
    have hno : ∀ b ∈ whitespace, symbol b = none := by simp [whitespace,symbol]
    rw [hno a (by simpa using hb)] at h
    cases h
  rw [tokens]
  · simp only [hb,Bool.false_eq_true,↓reduceIte,h]
  · rintro s' rfl rfl
    exact hgt rfl rfl

theorem tokens_append (s : List Char) : tokens ('>' :: '>' :: s) = .append :: tokens s := by
  rw [tokens]

structure Spells (e : Extent) (w : List Char) : Prop where
  text : e.1 = w ++ e.2
  ordinary : ∀ a ∈ w, ordinary a = true
  ends : Ends e.2

theorem ends_dropWhile (s : List Char) : Ends (s.dropWhile ordinary) := by
  intro a ha
  have := List.head?_dropWhile_not ordinary s
  rw [Option.mem_def.mp ha] at this
  simpa using this

theorem symbol_of_mem (h : symbols.contains a = true) :
    ∃ t, symbol a = some t ∧ t.code = a ∧ t.first = some a := by
  have hall : ∀ b ∈ symbols, ∃ t, symbol b = some t ∧ t.code = b ∧ t.first = some b := by
    simp [symbols,symbol,Token.code,Token.first]
  exact hall a (by simpa using h)

structure Lexed (s : List Char) (a : Char) (t : Token) (r : List Char) : Prop where
  token : token s = (t.code,r)
  tokens : tokens s = t :: tokens r
  suffix : r <:+ s
  first : t.first = if symbols.contains a then some a else none
  spells : ∀ w, t = .word w → Spells (s,r) w

theorem token_symbol (hs : symbols.contains a = true) (ha : a ≠ '>') (s : List Char) :
    ∃ t, Lexed (a :: s) a t s := by
  obtain ⟨t,ht,hcode,hfirst⟩ := symbol_of_mem hs
  refine ⟨t,⟨?_,tokens_symbol ht fun h => absurd h ha,List.suffix_cons a s,by rw [hfirst,if_pos hs],?_⟩⟩
  · have hne : a ≠ NUL := by
      rintro rfl
      exact absurd hs (by decide)
    have hmem : ['|','(',')',';','&','<'].contains a = true := by
      simp only [symbols,List.contains_cons,List.contains_nil,Bool.or_eq_true,beq_iff_eq,Bool.or_false] at hs ⊢
      tauto
    simp only [token,cur,List.headD_cons,if_neg hne,hmem,↓reduceIte,List.tail_cons,hcode]
  · rintro w rfl
    cases hfirst

theorem token_greater (s : List Char) : ∃ t r, Lexed ('>' :: s) '>' t r := by
  have htok : token ('>' :: s) = if cur s = '>' then ('+',s.tail) else ('>',s) := by
    simp only [token,cur,List.headD_cons,List.tail_cons]
    rfl
  cases s with
  | nil => exact ⟨.greater,[],⟨by rw [htok]; rfl,tokens_symbol rfl (by simp),List.suffix_cons _ _,rfl,nofun⟩⟩
  | cons b s =>
    by_cases hb : b = '>'
    · subst hb
      refine ⟨.append,s,⟨by rw [htok]; rfl,tokens_append s,?_,rfl,nofun⟩⟩
      exact (List.suffix_cons _ s).trans (List.suffix_cons _ _)
    · refine ⟨.greater,b :: s,⟨?_,tokens_symbol rfl (by simpa using hb),List.suffix_cons _ _,rfl,nofun⟩⟩
      rw [htok]
      exact if_neg hb

theorem token_word (ho : ordinary a = true) (hn : a ≠ NUL) (s : List Char) :
    ∃ w, Lexed (a :: s) a (.word w) ((a :: s).dropWhile ordinary) := by
  obtain ⟨_,hs⟩ := ordinary_iff.mp ho
  have hsplit : a :: s = (a :: s).takeWhile ordinary ++ (a :: s).dropWhile ordinary :=
    (List.takeWhile_append_dropWhile).symm
  have hends := ends_dropWhile (a :: s)
  have hall : ∀ b ∈ (a :: s).takeWhile ordinary, ordinary b = true := fun b hb => List.mem_takeWhile_imp hb
  refine ⟨(a :: s).takeWhile ordinary,⟨?_,?_,List.dropWhile_suffix _,by rw [hs]; rfl,?_⟩⟩
  · have hmem : ['|','(',')',';','&','<'].contains a = false := by
      simp only [symbols,List.contains_cons,List.contains_nil,Bool.or_eq_false_iff,Bool.or_false] at hs ⊢
      tauto
    simp only [token,cur,List.headD_cons,if_neg hn,hmem,Bool.false_eq_true,↓reduceIte,Token.code]
    exact if_neg (ordinary_ne_greater ho)
  · conv_lhs => rw [hsplit]
    refine tokens_word ?_ hall hends
    rw [List.takeWhile_cons,if_pos ho]
    exact List.cons_ne_nil _ _
  · intro w hw
    cases hw
    exact ⟨hsplit,hall,hends⟩

theorem token_cases (hb : whitespace.contains a = false) (hn : a ≠ NUL) (s : List Char) :
    ∃ t r, Lexed (a :: s) a t r := by
  cases hs : symbols.contains a with
  | false =>
    obtain ⟨w,hw⟩ := token_word (ordinary_iff.mpr ⟨hb,hs⟩) hn s
    exact ⟨_,_,hw⟩
  | true =>
    by_cases ha : a = '>'
    · subst ha
      exact token_greater s
    · obtain ⟨t,ht⟩ := token_symbol hs ha s
      exact ⟨t,s,ht⟩

end Lexing

section Cursor
variable {line : List Char}

def Reads (line s : List Char) (ts : List Token) : Prop := s <:+ line ∧ tokens s = ts

/-- Either the line is read to its end, or the next token stands at the first character that is
no blank. -/
theorem skip_cases (hline : NUL ∉ line) {s : List Char} (hs : s <:+ line) :
    (skip s = [] ∧ tokens s = []) ∨ ∃ a u t r, skip s = a :: u ∧ a ≠ NUL ∧ Lexed (a :: u) a t r := by
  cases hu : skip s with
  | nil =>
    rw [← tokens_skip,hu]
    exact .inl ⟨rfl,rfl⟩
  | cons a u =>
    have hn : a ≠ NUL := by
      rintro rfl
      have hsub : skip s <:+ line := (List.dropWhile_suffix _).trans hs
      exact hline (hsub.subset (by rw [hu]; exact List.mem_cons_self))
    have hb : whitespace.contains a = false := by
      have := List.head?_dropWhile_not whitespace.contains s
      rw [← skip,hu] at this
      simpa using this
    obtain ⟨t,r,ht⟩ := token_cases hb hn u
    exact .inr ⟨a,u,t,r,rfl,hn,ht⟩

theorem peek_sim (hline : NUL ∉ line) {toks : List Char} (htoks : ∀ b ∈ toks, b ∈ symbols) :
    Sim (Reads line) Eq (chars.peek toks) (tokenList.peek toks) := by
  rintro s ts ⟨hs,rfl⟩
  have hsub : skip s <:+ line := (List.dropWhile_suffix _).trans hs
  refine ⟨?_,hsub,tokens_skip s⟩
  rcases skip_cases hline hs with ⟨hu,ht⟩ | ⟨a,u,t,r,hu,hn,ht⟩
  · simp [peek,hu,ht,cur]
  · rw [← tokens_skip,hu,ht.tokens]
    simp only [peek,hu,cur,List.headD_cons,List.head?_cons,Option.bind_some,ht.first,ne_eq,hn,not_false_eq_true,
      decide_true,Bool.true_and]
    split
    · rfl
    · rename_i hsym
      refine Bool.eq_false_iff.mpr fun hmem => hsym ?_
      simpa using htoks a (by simpa using hmem)

def WordIn (line : List Char) (e : Extent) (w : List Char) : Prop := e.1 <:+ line ∧ Spells e w

theorem code_word {t : Token} (h : t.code = 'a') : ∃ w, t = .word w := by
  cases t with
  | word w => exact ⟨w,rfl⟩
  | _ => exact absurd h (by decide)

theorem gettoken_sim (hline : NUL ∉ line) :
    Sim (Reads line) (fun x y => x.1 = y.1 ∧ (y.1 = 'a' → WordIn line x.2 y.2)) chars.gettoken
      tokenList.gettoken := by
  rintro s ts ⟨hs,rfl⟩
  have hsub : skip s <:+ line := (List.dropWhile_suffix _).trans hs
  rcases skip_cases hline hs with ⟨hu,ht⟩ | ⟨a,u,t,r,hu,hn,ht⟩
  · rw [ht]
    simp only [chars,tokenList,gettoken,hu]
    exact ⟨⟨rfl,fun h => absurd h (by decide)⟩,List.nil_suffix,rfl⟩
  · rw [← tokens_skip,hu,ht.tokens]
    simp only [chars,tokenList,gettoken,hu,ht.token]
    refine ⟨⟨trivial,fun h => ?_⟩,?_,tokens_skip r⟩
    · obtain ⟨w,rfl⟩ := code_word h
      exact ⟨hu ▸ hsub,ht.spells w rfl⟩
    · rw [hu] at hsub
      exact ((List.dropWhile_suffix _).trans ht.suffix).trans hsub

end Cursor

end Xv6.Shell
