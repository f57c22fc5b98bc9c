import Mathlib

/-! # The matcher of `grep`

`matchhere` and `matchstar` walk over the pattern and the text together. They accept a text just when
a part of it belongs to the language that the pattern stands for.
-/
namespace Xv6.Grep
open scoped Computability

section Functions

abbrev caret : UInt8 := 94
abbrev dot : UInt8 := 46
abbrev star : UInt8 := 42
abbrev dollar : UInt8 := 36

def char (s : List UInt8) : UInt8 := s.headD 0

mutual

def matchhere (re text : List UInt8) : Bool :=
  match re with
  | [] => true
  | c :: re =>
    if c = 0 then true
    else if char re = star then matchstar c re.tail text
    else if c = dollar ∧ char re = 0 then decide (char text = 0)
    else if char text ≠ 0 ∧ (c = dot ∨ c = char text) then matchhere re text.tail
    else false
termination_by (re.length,0)

def matchstar (c : UInt8) (re text : List UInt8) : Bool :=
  if matchhere re text then true
  else match text with
    | [] => false
    | t :: text => if t ≠ 0 ∧ (t = c ∨ c = dot) then matchstar c re text else false
termination_by (re.length,text.length+1)

end

def matchAnywhere (re : List UInt8) : List UInt8 → Bool
  | [] => matchhere re []
  | t :: text => if matchhere re (t :: text) then true else if t ≠ 0 then matchAnywhere re text else false

def matchText (re text : List UInt8) : Bool :=
  if char re = caret then matchhere re.tail text else matchAnywhere re text

end Functions

section Languages

structure Item where
  char : UInt8
  starred : Bool

def Item.letter (i : Item) : Language UInt8 := {w | ∃ x, (i.char = dot ∨ i.char = x) ∧ w = [x]}

def Item.language (i : Item) : Language UInt8 := if i.starred then i.letter∗ else i.letter

def language (items : List Item) : Language UInt8 := (items.map Item.language).prod

structure Pattern where
  start : Bool
  items : List Item
  final : Bool

def Pattern.Matches (p : Pattern) (text : List UInt8) : Prop :=
  ∃ before w after, text = before ++ w ++ after ∧ w ∈ language p.items ∧ (p.start = true → before = []) ∧
    (p.final = true → after = [])

def readItems : List UInt8 → List Item × Bool
  | [] => ([],false)
  | [c] => if c = dollar then ([],true) else ([⟨c,false⟩],false)
  | c :: d :: re =>
    if d = star then (⟨c,true⟩ :: (readItems re).1,(readItems re).2)
    else (⟨c,false⟩ :: (readItems (d :: re)).1,(readItems (d :: re)).2)

def Pattern.read (re : List UInt8) : Pattern :=
  if char re = caret then ⟨true,(readItems re.tail).1,(readItems re.tail).2⟩ else ⟨false,(readItems re).1,(readItems re).2⟩

end Languages

section Starts
variable {items : List Item} {final : Bool} {c : UInt8} {text : List UInt8}

def Starts (items : List Item) (final : Bool) (text : List UInt8) : Prop :=
  ∃ w after, text = w ++ after ∧ w ∈ language items ∧ (final = true → after = [])

theorem starts_nil : Starts [] final text ↔ (final = true → text = []) := by
  refine ⟨?_,fun h => ⟨[],text,rfl,rfl,h⟩⟩
  rintro ⟨w,after,rfl,hw,hend⟩ hfinal
  obtain rfl : w = [] := hw
  exact hend hfinal

theorem mem_language_cons {i : Item} {w : List UInt8} :
    w ∈ language (i :: items) ↔ ∃ a ∈ i.language, ∃ b ∈ language items, a ++ b = w := by
  rw [language,List.map_cons,List.prod_cons,Language.mem_mul]
  rfl

theorem starts_cons {i : Item} : Starts (i :: items) final text ↔ ∃ a rest, text = a ++ rest ∧ a ∈ i.language ∧
    Starts items final rest := by
  constructor
  · rintro ⟨w,after,rfl,hw,hend⟩
    obtain ⟨a,ha,b,hb,rfl⟩ := mem_language_cons.mp hw
    exact ⟨a,b ++ after,List.append_assoc ..,ha,b,after,rfl,hb,hend⟩
  · rintro ⟨a,rest,rfl,ha,b,after,rfl,hb,hend⟩
    exact ⟨a ++ b,after,(List.append_assoc ..).symm,mem_language_cons.mpr ⟨a,ha,b,hb,rfl⟩,hend⟩

theorem starts_letter : Starts (⟨c,false⟩ :: items) final text ↔
    ∃ x rest, text = x :: rest ∧ (c = dot ∨ c = x) ∧ Starts items final rest := by
  rw [starts_cons]
  constructor
  · rintro ⟨a,rest,rfl,⟨x,hx,rfl⟩,hrest⟩
    exact ⟨x,rest,rfl,hx,hrest⟩
  · rintro ⟨x,rest,rfl,hx,hrest⟩
    exact ⟨[x],rest,rfl,⟨x,hx,rfl⟩,hrest⟩

theorem starts_star : Starts (⟨c,true⟩ :: items) final text ↔ Starts items final text ∨
    ∃ x rest, text = x :: rest ∧ (c = dot ∨ c = x) ∧ Starts (⟨c,true⟩ :: items) final rest := by
  have hlang : (⟨c,true⟩ : Item).language = 1+(⟨c,true⟩ : Item).letter*(⟨c,true⟩ : Item).language :=
    (Language.one_add_self_mul_kstar_eq_kstar _).symm
  rw [starts_cons]
  constructor
  · rintro ⟨a,rest,rfl,ha,hrest⟩
    rw [hlang] at ha
    rcases ha with ha | ha
    · obtain rfl : a = [] := ha
      exact .inl hrest
    · obtain ⟨_,⟨x,hx,rfl⟩,b,hb,rfl⟩ := Language.mem_mul.mp ha
      exact .inr ⟨x,b ++ rest,rfl,hx,starts_cons.mpr ⟨b,rest,rfl,hb,hrest⟩⟩
  · rintro (h | ⟨x,rest,rfl,hx,h⟩)
    · exact ⟨[],text,rfl,Language.nil_mem_kstar _,h⟩
    · obtain ⟨b,rest,rfl,hb,hrest⟩ := starts_cons.mp h
      refine ⟨x :: b,rest,rfl,?_,hrest⟩
      rw [hlang]
      exact .inr (Language.mem_mul.mpr ⟨[x],⟨x,hx,rfl⟩,b,hb,rfl⟩)

end Starts

section Correctness
variable {re text : List UInt8}

theorem matchstar_iff {items : List Item} {final : Bool} (c : UInt8)
    (hre : ∀ text, 0 ∉ text → (matchhere re text = true ↔ Starts items final text)) (htext : 0 ∉ text) :
    matchstar c re text = true ↔ Starts (⟨c,true⟩ :: items) final text := by
  induction text with
  | nil =>
    rw [matchstar,starts_star,← hre [] htext]
    simp
  | cons t text ih =>
    rw [List.mem_cons,not_or] at htext
    rw [matchstar,starts_star,← hre (t :: text) (by simpa using htext)]
    by_cases hhere : matchhere re (t :: text) = true
    · simp [hhere]
    · rw [if_neg hhere]
      by_cases hstep : t ≠ 0 ∧ (t = c ∨ c = dot)
      · rw [if_pos hstep,ih htext.2]
        refine ⟨fun h => .inr ⟨t,text,rfl,hstep.2.symm.imp_right Eq.symm,h⟩,?_⟩
        rintro (h | ⟨x,rest,he,-,h⟩)
        · exact absurd h hhere
        · cases he
          exact h
      · rw [if_neg hstep]
        refine ⟨nofun,?_⟩
        rintro (h | ⟨x,rest,he,hx,-⟩)
        · exact absurd h hhere
        · cases he
          exact absurd ⟨Ne.symm htext.1,hx.symm.imp_left Eq.symm⟩ hstep

theorem char_eq_zero (htext : 0 ∉ text) : char text = 0 ↔ text = [] := by
  cases text with
  | nil => exact ⟨fun _ => rfl,fun _ => rfl⟩
  | cons t text =>
    refine ⟨fun h => absurd ?_ htext,nofun⟩
    rw [← show t = 0 from h]
    exact List.mem_cons_self

theorem matchhere_letter {items : List Item} {final : Bool} {c : UInt8} (hc : c ≠ 0) (hstar : char re ≠ star)
    (hend : ¬ (c = dollar ∧ char re = 0))
    (hre : ∀ text, 0 ∉ text → (matchhere re text = true ↔ Starts items final text)) (htext : 0 ∉ text) :
    matchhere (c :: re) text = true ↔ Starts (⟨c,false⟩ :: items) final text := by
  rw [matchhere,if_neg hc,if_neg hstar,if_neg hend,starts_letter]
  cases text with
  | nil =>
    rw [if_neg fun h => h.1 rfl]
    exact ⟨nofun,fun ⟨_,_,he,_⟩ => nomatch he⟩
  | cons t text =>
    rw [List.mem_cons,not_or] at htext
    by_cases hstep : c = dot ∨ c = t
    · rw [if_pos ⟨Ne.symm htext.1,hstep⟩]
      change matchhere re text = true ↔ _
      rw [hre text htext.2]
      refine ⟨fun h => ⟨t,text,rfl,hstep,h⟩,?_⟩
      rintro ⟨x,rest,he,-,h⟩
      cases he
      exact h
    · rw [if_neg fun h => hstep h.2]
      refine ⟨nofun,?_⟩
      rintro ⟨x,rest,he,hx,-⟩
      cases he
      exact absurd hx hstep

theorem matchhere_iff (hre : 0 ∉ re) (htext : 0 ∉ text) :
    matchhere re text = true ↔ Starts (readItems re).1 (readItems re).2 text := by
  induction re using readItems.induct generalizing text with
  | case1 =>
    rw [matchhere,readItems,starts_nil]
    exact ⟨fun _ => nofun,fun _ => rfl⟩
  | case2 =>
    rw [matchhere,readItems,if_pos rfl,if_neg (by decide),if_neg (by decide),if_pos ⟨rfl,rfl⟩,starts_nil,
      decide_eq_true_eq,char_eq_zero htext]
    exact ⟨fun h _ => h,fun h => h rfl⟩
  | case3 c hc =>
    have hzero : c ≠ 0 := fun h => hre (h ▸ List.mem_cons_self)
    rw [readItems,if_neg hc]
    refine matchhere_letter hzero (by decide) (fun h => hc h.1) (fun text htext => ?_) htext
    rw [matchhere,starts_nil]
    exact ⟨fun _ => nofun,fun _ => rfl⟩
  | case4 c re ih =>
    have hzero : c ≠ 0 := fun h => hre (h ▸ List.mem_cons_self)
    have hstar : char (star :: re) = star := rfl
    rw [matchhere,if_neg hzero,if_pos hstar,readItems,if_pos rfl]
    exact matchstar_iff c (fun text htext => ih (fun h => hre (by simp [h])) htext) htext
  | case5 c d re hd ih =>
    have hzero : c ≠ 0 := fun h => hre (h ▸ List.mem_cons_self)
    have hrest : 0 ∉ d :: re := fun h => hre (List.mem_cons_of_mem c h)
    rw [readItems,if_neg hd]
    refine matchhere_letter hzero hd (fun h => hrest ?_) (fun text htext => ih hrest htext) htext
    rw [← show d = 0 from h.2]
    exact List.mem_cons_self

theorem matchAnywhere_iff (hre : 0 ∉ re) (htext : 0 ∉ text) : matchAnywhere re text = true ↔
    ∃ before rest, text = before ++ rest ∧ Starts (readItems re).1 (readItems re).2 rest := by
  induction text with
  | nil =>
    rw [matchAnywhere,matchhere_iff hre htext]
    refine ⟨fun h => ⟨[],[],rfl,h⟩,?_⟩
    rintro ⟨before,rest,he,h⟩
    obtain ⟨-,rfl⟩ := List.append_eq_nil_iff.mp he.symm
    exact h
  | cons t text ih =>
    have hrest : 0 ∉ text := fun h => htext (List.mem_cons_of_mem t h)
    have ht : t ≠ 0 := fun h => htext (h ▸ List.mem_cons_self)
    rw [matchAnywhere]
    by_cases hhere : matchhere re (t :: text) = true
    · rw [if_pos hhere]
      exact ⟨fun _ => ⟨[],_,rfl,(matchhere_iff hre htext).mp hhere⟩,fun _ => rfl⟩
    · rw [if_neg hhere,if_pos ht,ih hrest]
      constructor
      · rintro ⟨before,rest,rfl,h⟩
        exact ⟨t :: before,rest,rfl,h⟩
      · rintro ⟨before,rest,he,h⟩
        cases before with
        | nil =>
          obtain rfl : t :: text = rest := he
          exact absurd ((matchhere_iff hre htext).mpr h) hhere
        | cons x before =>
          cases he
          exact ⟨before,rest,rfl,h⟩

/-- The matcher accepts just the texts with a part in the language of the pattern. -/
theorem matchText_iff (re text : List UInt8) (hre : 0 ∉ re) (htext : 0 ∉ text) :
    matchText re text = true ↔ (Pattern.read re).Matches text := by
  unfold matchText Pattern.read Pattern.Matches
  by_cases hcaret : char re = caret
  · rw [if_pos hcaret,if_pos hcaret,matchhere_iff (fun h => hre (List.mem_of_mem_tail h)) htext]
    constructor
    · rintro ⟨w,after,rfl,hw,hend⟩
      exact ⟨[],w,after,rfl,hw,fun _ => rfl,hend⟩
    · rintro ⟨before,w,after,he,hw,hstart,hend⟩
      obtain rfl := hstart rfl
      exact ⟨w,after,he,hw,hend⟩
  · rw [if_neg hcaret,if_neg hcaret,matchAnywhere_iff hre htext]
    constructor
    · rintro ⟨before,_,rfl,w,after,rfl,hw,hend⟩
      exact ⟨before,w,after,(List.append_assoc ..).symm,hw,nofun,hend⟩
    · rintro ⟨before,w,after,rfl,hw,-,hend⟩
      exact ⟨before,w ++ after,List.append_assoc ..,w,after,rfl,hw,hend⟩

theorem matchText_iff_ab : matchText [97,98,42] [120,97] = true ↔ (Pattern.read [97,98,42]).Matches [120,97] :=
  matchText_iff [97,98,42] [120,97] (by decide) (by decide)

end Correctness
end Xv6.Grep
