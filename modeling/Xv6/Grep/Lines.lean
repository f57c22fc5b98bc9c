import Xv6.Grep.Matcher

/-! # Lines from successive reads

`grep` keeps the bytes behind the last newline for the next read. Where a read brings no newline it
forgets the whole buffer instead, so that only the rest of the line is matched.
-/
namespace Xv6.Grep

abbrev newline : UInt8 := 10

section Functions

def strchr (c : UInt8) : List UInt8 → Option (List UInt8 × List UInt8)
  | [] => none
  | x :: s =>
    if x = c then some ([],s)
    else if x = 0 then none
    else match strchr c s with
      | some (line,rest) => some (x :: line,rest)
      | none => none

theorem strchr_some {c : UInt8} {s line rest : List UInt8} (h : strchr c s = some (line,rest)) :
    s = line ++ c :: rest ∧ c ∉ line := by
  induction s generalizing line with
  | nil => cases h
  | cons x s ih =>
    rw [strchr] at h
    by_cases hx : x = c
    · rw [if_pos hx] at h
      cases h
      exact ⟨by rw [hx]; rfl,List.not_mem_nil⟩
    · rw [if_neg hx] at h
      by_cases hzero : x = 0
      · rw [if_pos hzero] at h
        cases h
      · rw [if_neg hzero] at h
        cases hs : strchr c s with
        | none =>
          rw [hs] at h
          cases h
        | some p =>
          rw [hs] at h
          obtain ⟨line',rest'⟩ := p
          cases h
          obtain ⟨rfl,hline⟩ := ih hs
          exact ⟨rfl,by simp [hline,Ne.symm hx]⟩

def scan (pattern p : List UInt8) : List (List UInt8) × List UInt8 :=
  match h : strchr newline p with
  | none => ([],p)
  | some (line,rest) =>
    have : rest.length < p.length := by
      rw [(strchr_some h).1,List.length_append,List.length_cons]
      omega
    let (writes,q) := scan pattern rest
    (if matchText pattern line then (line ++ [newline]) :: writes else writes,q)
termination_by p.length

def grepRound (pattern buf r : List UInt8) : List (List UInt8) × List UInt8 :=
  let (writes,p) := scan pattern (buf ++ r)
  -- the pointer has not moved
  (writes,if p.length = (buf ++ r).length then [] else p)

def grepLoop (pattern : List UInt8) : List UInt8 → List (List UInt8) → List (List UInt8)
  | _, [] => []
  | buf, r :: reads => (grepRound pattern buf r).1 ++ grepLoop pattern (grepRound pattern buf r).2 reads

def grep (pattern : List UInt8) (reads : List (List UInt8)) : List (List UInt8) := grepLoop pattern [] reads

abbrev bufsize : ℕ := 1024

def Readable (pattern : List UInt8) : List UInt8 → List (List UInt8) → Prop
  | _, [] => True
  | buf, r :: reads => r ≠ [] ∧ r.length ≤ bufsize-buf.length-1 ∧ Readable pattern (grepRound pattern buf r).2 reads

end Functions

section Scanning
variable {pattern p : List UInt8} {line rest : List UInt8}

theorem strchr_none {c : UInt8} (hp : 0 ∉ p) : strchr c p = none ↔ c ∉ p := by
  induction p with
  | nil => exact ⟨fun _ => List.not_mem_nil,fun _ => rfl⟩
  | cons x s ih =>
    rw [List.mem_cons,not_or] at hp
    rw [strchr]
    by_cases hx : x = c
    · rw [if_pos hx,hx]
      exact ⟨nofun,fun h => absurd List.mem_cons_self h⟩
    · rw [if_neg hx,if_neg (Ne.symm hp.1),List.mem_cons,not_or,← ih hp.2]
      cases strchr c s with
      | none => exact ⟨fun _ => ⟨Ne.symm hx,rfl⟩,fun _ => rfl⟩
      | some q => exact ⟨nofun,fun h => nomatch h.2⟩

theorem strchr_line (hline : newline ∉ line) (hzero : 0 ∉ line) (rest : List UInt8) :
    strchr newline (line ++ newline :: rest) = some (line,rest) := by
  induction line with
  | nil => rfl
  | cons x s ih =>
    rw [List.mem_cons,not_or] at hline hzero
    rw [List.cons_append,strchr,if_neg (Ne.symm hline.1),if_neg (Ne.symm hzero.1),ih hline.2 hzero.2]

theorem scan_none (h : strchr newline p = none) (pattern : List UInt8) : scan pattern p = ([],p) := by
  rw [scan]
  split
  · rfl
  · rename_i he
    rw [h] at he
    cases he

theorem scan_some (h : strchr newline p = some (line,rest)) (pattern : List UInt8) : scan pattern p =
    (if matchText pattern line then (line ++ [newline]) :: (scan pattern rest).1 else (scan pattern rest).1,
      (scan pattern rest).2) := by
  rw [scan]
  split
  · rename_i he
    rw [h] at he
    cases he
  · rename_i he
    rw [h] at he
    cases he
    rfl

end Scanning

section Lines
variable {pattern buf p rest tail : List UInt8} {lines ls reads : List (List UInt8)}

def stream (lines : List (List UInt8)) : List UInt8 := (lines.map (· ++ [newline])).flatten

def printed (pattern : List UInt8) (lines : List (List UInt8)) : List (List UInt8) :=
  (lines.filter (matchText pattern)).map (· ++ [newline])

theorem stream_cons (l : List UInt8) (ls : List (List UInt8)) : stream (l :: ls) = l ++ newline :: stream ls := by
  rw [stream,List.map_cons,List.flatten_cons,List.append_assoc]
  rfl

theorem stream_append (ls ls' : List (List UInt8)) : stream (ls ++ ls') = stream ls ++ stream ls' := by
  rw [stream,List.map_append,List.flatten_append]
  rfl

theorem printed_append (pattern : List UInt8) (ls ls' : List (List UInt8)) :
    printed pattern (ls ++ ls') = printed pattern ls ++ printed pattern ls' := by
  rw [printed,List.filter_append,List.map_append]
  rfl

theorem exists_lines (p : List UInt8) : ∃ ls tail, p = stream ls ++ tail ∧ newline ∉ tail ∧ ∀ l ∈ ls, newline ∉ l := by
  induction p with
  | nil => exact ⟨[],[],rfl,List.not_mem_nil,nofun⟩
  | cons x p ih =>
    obtain ⟨ls,tail,rfl,htail,hls⟩ := ih
    by_cases hx : x = newline
    · refine ⟨[] :: ls,tail,?_,htail,?_⟩
      · rw [stream_cons,hx]
        rfl
      · rintro l (_ | ⟨_,hl⟩)
        · exact List.not_mem_nil
        · exact hls l hl
    · cases ls with
      | nil => exact ⟨[],x :: tail,rfl,by simp [htail,Ne.symm hx],nofun⟩
      | cons l ls =>
        refine ⟨(x :: l) :: ls,tail,?_,htail,?_⟩
        · rw [stream_cons,stream_cons]
          rfl
        · rintro k (_ | ⟨_,hk⟩)
          · simp [hls l List.mem_cons_self,Ne.symm hx]
          · exact hls k (List.mem_cons_of_mem l hk)

theorem newline_mem_stream (h : ls ≠ []) : newline ∈ stream ls := by
  cases ls with
  | nil => exact absurd rfl h
  | cons l ls =>
    rw [stream_cons]
    simp

theorem newline_split {l k x y : List UInt8} (hl : newline ∉ l) (hk : newline ∉ k)
    (h : l ++ newline :: x = k ++ newline :: y) : l = k ∧ x = y := by
  induction l generalizing k with
  | nil =>
    cases k with
    | nil => exact ⟨rfl,(List.cons.inj h).2⟩
    | cons b k => exact absurd ((List.cons.inj h).1 ▸ List.mem_cons_self) hk
  | cons a l ih =>
    cases k with
    | nil => exact absurd ((List.cons.inj h).1 ▸ List.mem_cons_self) hl
    | cons b k =>
      obtain ⟨hab,h⟩ := List.cons.inj h
      obtain ⟨rfl,hxy⟩ := ih (fun hm => hl (List.mem_cons_of_mem a hm)) (fun hm => hk (List.mem_cons_of_mem b hm)) h
      exact ⟨by rw [hab],hxy⟩

theorem first_lines (hls : ∀ l ∈ ls, newline ∉ l) (hlines : ∀ l ∈ lines, newline ∉ l)
    (h : stream ls ++ rest = stream lines) : ∃ lines', lines = ls ++ lines' ∧ rest = stream lines' := by
  induction ls generalizing lines with
  | nil => exact ⟨lines,rfl,h⟩
  | cons l ls ih =>
    cases lines with
    | nil =>
      rw [stream_cons] at h
      have hlen := congrArg List.length h
      simp [stream] at hlen
    | cons k lines =>
      rw [stream_cons,stream_cons,List.append_assoc,List.cons_append] at h
      obtain ⟨rfl,hsplit⟩ := newline_split (hls l List.mem_cons_self) (hlines k List.mem_cons_self) h
      obtain ⟨lines',rfl,hrest⟩ := ih (fun l' hl' => hls l' (List.mem_cons_of_mem _ hl'))
        (fun l' hl' => hlines l' (List.mem_cons_of_mem _ hl')) hsplit
      exact ⟨lines',rfl,hrest⟩

/-- The loop over the buffer writes the lines that match and leaves what is behind the last newline. -/
theorem scan_lines (hls : ∀ l ∈ ls, newline ∉ l ∧ 0 ∉ l) (htail : newline ∉ tail) (hzero : 0 ∉ tail)
    (pattern : List UInt8) : scan pattern (stream ls ++ tail) = (printed pattern ls,tail) := by
  induction ls with
  | nil => exact scan_none ((strchr_none hzero).mpr htail) pattern
  | cons l ls ih =>
    obtain ⟨hl,hl0⟩ := hls l List.mem_cons_self
    rw [stream_cons,List.append_assoc,List.cons_append,scan_some (strchr_line hl hl0 _),
      ih fun k hk => hls k (List.mem_cons_of_mem l hk)]
    by_cases hmatch : matchText pattern l = true
    · rw [if_pos hmatch,printed,printed,List.filter_cons_of_pos hmatch]
      rfl
    · rw [if_neg hmatch,printed,printed,List.filter_cons_of_neg hmatch]

theorem grepRound_lines {r : List UInt8} (hsplit : buf ++ r = stream ls ++ tail) (hls : ∀ l ∈ ls, newline ∉ l ∧ 0 ∉ l)
    (htail : newline ∉ tail) (hzero : 0 ∉ tail) (pattern : List UInt8) :
    grepRound pattern buf r = (printed pattern ls,if ls = [] then [] else tail) := by
  unfold grepRound
  rw [hsplit,scan_lines hls htail hzero]
  dsimp only
  rw [List.length_append]
  by_cases hne : ls = []
  · rw [if_pos hne,hne,if_pos (by rw [stream]; simp)]
  · have hpos := List.length_pos_of_mem (newline_mem_stream hne)
    rw [if_neg hne,if_neg (by omega)]

end Lines

section Runs
variable {pattern buf : List UInt8} {lines reads : List (List UInt8)}

theorem exists_lines_nul (p : List UInt8) (hp : 0 ∉ p) :
    ∃ ls tail, p = stream ls ++ tail ∧ newline ∉ tail ∧ 0 ∉ tail ∧ ∀ l ∈ ls, newline ∉ l ∧ 0 ∉ l := by
  obtain ⟨ls,tail,rfl,htail,hls⟩ := exists_lines p
  refine ⟨ls,tail,rfl,htail,fun h => hp (List.mem_append_right _ h),fun l hl => ⟨hls l hl,fun h => hp ?_⟩⟩
  refine List.mem_append_left _ (List.mem_flatten.mpr ⟨l ++ [newline],List.mem_map_of_mem hl,List.mem_append_left _ h⟩)

theorem grepLoop_lines (hreads : ∀ r ∈ reads, newline ∈ r) (hbuf : newline ∉ buf) (hzero : 0 ∉ stream lines)
    (hlines : ∀ l ∈ lines, newline ∉ l) (hsplit : buf ++ reads.flatten = stream lines) :
    grepLoop pattern buf reads = printed pattern lines := by
  induction reads generalizing buf lines with
  | nil =>
    rw [List.flatten_nil,List.append_nil] at hsplit
    have hnil : lines = [] := by
      by_contra hne
      exact hbuf (hsplit ▸ newline_mem_stream hne)
    rw [hnil]
    rfl
  | cons r reads ih =>
    rw [List.flatten_cons,← List.append_assoc] at hsplit
    obtain ⟨ls,tail,hb,htail,htail0,hls⟩ := exists_lines_nul (buf ++ r) fun h => hzero (hsplit ▸ List.mem_append_left _ h)
    have hne : ls ≠ [] := by
      rintro rfl
      have hmem : newline ∈ buf ++ r := List.mem_append_right _ (hreads r List.mem_cons_self)
      rw [hb] at hmem
      exact htail hmem
    rw [hb,List.append_assoc] at hsplit
    obtain ⟨lines',rfl,hrest⟩ := first_lines (fun l hl => (hls l hl).1) hlines hsplit
    rw [grepLoop,grepRound_lines hb hls htail htail0,if_neg hne,printed_append]
    dsimp only
    rw [ih (fun r' hr' => hreads r' (List.mem_cons_of_mem r hr')) htail
      (fun h => hzero (by rw [stream_append]; exact List.mem_append_right _ h))
      (fun l hl => hlines l (List.mem_append_right ls hl)) hrest]

theorem length_printed_le (pattern : List UInt8) (ls : List (List UInt8)) :
    (printed pattern ls).flatten.length ≤ (stream ls).length := by
  have hsub : List.Sublist (printed pattern ls) (ls.map (· ++ [newline])) := List.filter_sublist.map _
  exact hsub.flatten.length_le

theorem Readable.ne_nil (h : Readable pattern buf reads) : ∀ r ∈ reads, r ≠ [] := by
  induction reads generalizing buf with
  | nil => nofun
  | cons r reads ih =>
    rintro r' (_ | ⟨_,hr'⟩)
    · exact h.1
    · exact ih h.2.2 r' hr'

theorem length_grepLoop (pattern : List UInt8) (hne : ∀ r ∈ reads, r ≠ []) (hbuf : newline ∉ buf) (hzero : 0 ∉ buf ++ reads.flatten) :
    (grepLoop pattern buf reads).flatten.length ≤ buf.length+reads.flatten.length ∧
    ((∃ r ∈ reads, newline ∉ r) → (grepLoop pattern buf reads).flatten.length < buf.length+reads.flatten.length) := by
  induction reads generalizing buf with
  | nil => exact ⟨Nat.zero_le _,fun ⟨_,h,_⟩ => absurd h List.not_mem_nil⟩
  | cons r reads ih =>
    rw [List.flatten_cons,← List.append_assoc,List.mem_append,not_or] at hzero
    obtain ⟨ls,tail,hb,htail,htail0,hls⟩ := exists_lines_nul (buf ++ r) hzero.1
    have hlen := congrArg List.length hb
    have hr := List.length_pos_iff.mpr (hne r List.mem_cons_self)
    have hprinted := length_printed_le pattern ls
    rw [List.length_append,List.length_append] at hlen
    rw [grepLoop,grepRound_lines hb hls htail htail0,List.flatten_append,List.length_append,List.flatten_cons,
      List.length_append]
    dsimp only
    have hrest := fun r' hr' => hne r' (List.mem_cons_of_mem r hr')
    by_cases hls' : ls = []
    · rw [if_pos hls']
      have hnext := (ih hrest List.not_mem_nil (by simpa using hzero.2)).1
      rw [List.length_nil] at hnext
      rw [hls'] at hlen hprinted ⊢
      rw [show (stream []).length = 0 from rfl] at hlen hprinted
      omega
    · rw [if_neg hls']
      have hnext := ih hrest htail (by simp [htail0,hzero.2])
      refine ⟨by omega,?_⟩
      rintro ⟨r',hr',hlost⟩
      rcases List.mem_cons.mp hr' with rfl | hr'
      · have hmem : newline ∈ buf ++ r' := hb ▸ List.mem_append_left _ (newline_mem_stream hls')
        exact absurd hmem (by simp [hbuf,hlost])
      · have hless := hnext.2 ⟨r',hr',hlost⟩
        omega

theorem printed_nil (lines : List (List UInt8)) : (printed [] lines).flatten = stream lines := by
  have hall : ∀ l, matchText [] l = true := by
    intro l
    have hhere : ∀ text, matchhere [] text = true := fun text => by rw [matchhere]
    cases l with
    | nil => exact hhere []
    | cons t l =>
      change (if matchhere [] (t :: l) = true then true else _) = true
      rw [if_pos (hhere _)]
  rw [printed,List.filter_eq_self.mpr fun l _ => hall l]
  rfl

/-- Whatever the pattern is, exactly the lines that match are written, if and only if every read brings a newline. -/
theorem grep_lines (lines reads : List (List UInt8)) (hlines : ∀ l ∈ lines, newline ∉ l ∧ 0 ∉ l)
    (hsplit : reads.flatten = stream lines) (hreads : ∀ pattern, Readable pattern [] reads) :
    (∀ pattern, 0 ∉ pattern → grep pattern reads = printed pattern lines) ↔ ∀ r ∈ reads, newline ∈ r := by
  have hzero : 0 ∉ stream lines := by
    intro h
    obtain ⟨_,hmem,hz⟩ := List.mem_flatten.mp h
    obtain ⟨l,hl,rfl⟩ := List.mem_map.mp hmem
    rcases List.mem_append.mp hz with hz | hz
    · exact (hlines l hl).2 hz
    · exact absurd hz (by decide)
  constructor
  · intro h r hr
    by_contra hlost
    have hless := (length_grepLoop [] (hreads []).ne_nil List.not_mem_nil (by rwa [hsplit])).2 ⟨r,hr,hlost⟩
    have hall := h [] List.not_mem_nil
    rw [grep] at hall
    rw [hall,printed_nil,hsplit,List.length_nil] at hless
    omega
  · intro h pattern _
    exact grepLoop_lines h List.not_mem_nil hzero (fun l hl => (hlines l hl).1) hsplit

/-- The line `ba` arrives in two parts, and its first part is kept until the second read. -/
theorem grep_lines_carried : grep [97] [[97,10,98],[97,10]] = printed [97] [[97],[98,97]] := by
  refine (grep_lines [[97],[98,97]] [[97,10,98],[97,10]] (by decide) (by decide) fun pattern => ?_).mpr (by decide) [97] (by decide)
  have hsplit : ([] : List UInt8) ++ [97,10,98] = stream [[97]] ++ [98] := rfl
  have hround := grepRound_lines hsplit (by decide) (by decide) (by decide) pattern
  refine ⟨nofun,by decide,nofun,?_,trivial⟩
  rw [hround,if_neg (by decide)]
  change 2 ≤ bufsize-1-1
  decide

/-- The line `ab` arrives in two parts, and its first part is forgotten. -/
theorem grep_forgets : ∃ (pattern : List UInt8) (lines reads : List (List UInt8)), 0 ∉ pattern ∧
    (∀ l ∈ lines, newline ∉ l ∧ 0 ∉ l ∧ l.length < 1022) ∧ reads.flatten = stream lines ∧ Readable pattern [] reads ∧
    grep pattern reads ≠ printed pattern lines := by
  refine ⟨[97],[[97,98]],[[97],[98,10]],by decide,by decide,by decide,?_,fun h => ?_⟩
  · have hsplit : ([] : List UInt8) ++ [97] = stream [] ++ [97] := rfl
    have hround := grepRound_lines hsplit nofun (by decide) (by decide) [97]
    refine ⟨nofun,by decide,nofun,?_,trivial⟩
    rw [hround,if_pos rfl]
    decide
  · have hless : (grepLoop [97] [] [[97],[98,10]]).flatten.length < ([] : List UInt8).length+[[97],[98,10]].flatten.length :=
      (length_grepLoop [97] (by decide) (by decide) (by decide)).2 (by decide)
    have hhere : matchhere [97] [97,98] = true := by
      rw [matchhere,if_neg (by decide),if_neg (by decide),if_neg (by decide),if_pos (by decide),matchhere]
    have hmatch : matchText [97] [97,98] = true := by
      rw [matchText,if_neg (by decide),matchAnywhere,if_pos hhere]
    have hprinted : printed [97] [[97,98]] = [[97,98,10]] := by
      rw [printed,List.filter_cons_of_pos hmatch]
      rfl
    rw [grep] at h
    rw [h,hprinted] at hless
    exact absurd hless (by decide)

end Runs
end Xv6.Grep
