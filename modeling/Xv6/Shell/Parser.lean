import Xv6.Library.Program

/-! # The command parser of the shell

A pointer into the line is the rest of the line from there on, which ends in the `NUL` that
`*es` reads. The recursive descent is written over whatever `peek` and `gettoken` read from; a
call deeper than the given bound stops with `outOfFuel`.
-/
namespace Xv6.Shell

abbrev MAXARGS : ℕ := 10
abbrev O_RDONLY : ℕ := 0x000
abbrev O_WRONLY : ℕ := 0x001
abbrev O_CREATE : ℕ := 0x200

abbrev NUL : Char := Char.ofNat 0

def whitespace : List Char := [' ','\t','\r','\n',Char.ofNat 11]
def symbols : List Char := ['<','|','>','&',';','(',')']

inductive Cmd (W : Type)
  | exec (argv : List W)
  | redir (cmd : Cmd W) (file : W) (mode fd : ℕ)
  | pipe (left right : Cmd W)
  | list (left right : Cmd W)
  | back (cmd : Cmd W)
  deriving DecidableEq

inductive Stop
  | missingFile
  | parseblock
  | missingParen
  | badSyntax
  | tooManyArgs
  | leftovers
  | outOfFuel
  deriving DecidableEq

/-- What the parser calls at its cursor. A token is the character that `gettoken` returns, with
`a` for a word and `+` for `>>`, and comes with the ends `q` and `eq` of its text. -/
structure Scanner (σ W : Type) where
  peek : List Char → EStateM Stop σ Bool
  gettoken : EStateM Stop σ (Char × W)

section Descent
variable {σ W : Type} (c : Scanner σ W)

def redircmd (tok : Char) (cmd : Cmd W) (file : W) : Cmd W :=
  if tok = '<' then .redir cmd file O_RDONLY 0
  else if tok = '>' then .redir cmd file (O_WRONLY ||| O_CREATE) 1
  else if tok = '+' then .redir cmd file (O_WRONLY ||| O_CREATE) 1
  else cmd

def parseredirs : ℕ → Cmd W → EStateM Stop σ (Cmd W)
  | 0, _ => throw .outOfFuel
  | n+1, cmd => do
    let more ← c.peek ['<','>']
    if more then
      let tok ← c.gettoken
      let file ← c.gettoken
      if file.1 ≠ 'a' then throw .missingFile else parseredirs n (redircmd tok.1 cmd file.2)
    else pure cmd

def Cmd.push : Cmd W → W → Cmd W
  | .exec argv, w => .exec (argv ++ [w])
  | .redir cmd file mode fd, w => .redir (cmd.push w) file mode fd
  | cmd, _ => cmd

def parseargs : ℕ → ℕ → Cmd W → EStateM Stop σ (Cmd W)
  | 0, _, _ => throw .outOfFuel
  | n+1, argc, ret => do
    let done ← c.peek ['|',')','&',';']
    if done then pure ret
    else
      let tok ← c.gettoken
      if tok.1 = NUL then pure ret
      else if tok.1 ≠ 'a' then throw .badSyntax
      else if MAXARGS ≤ argc+1 then throw .tooManyArgs
      else
        let ret ← parseredirs c n (ret.push tok.2)
        parseargs n (argc+1) ret

def parsebacks : ℕ → Cmd W → EStateM Stop σ (Cmd W)
  | 0, _ => throw .outOfFuel
  | n+1, cmd => do
    let more ← c.peek ['&']
    if more then
      let _ ← c.gettoken
      parsebacks n (.back cmd)
    else pure cmd

mutual

def parseline : ℕ → EStateM Stop σ (Cmd W)
  | 0 => throw .outOfFuel
  | n+1 => do
    let cmd ← parsepipe n
    let cmd ← parsebacks c n cmd
    let more ← c.peek [';']
    if more then
      let _ ← c.gettoken
      let right ← parseline n
      pure (.list cmd right)
    else pure cmd

def parsepipe : ℕ → EStateM Stop σ (Cmd W)
  | 0 => throw .outOfFuel
  | n+1 => do
    let cmd ← parseexec n
    let more ← c.peek ['|']
    if more then
      let _ ← c.gettoken
      let right ← parsepipe n
      pure (.pipe cmd right)
    else pure cmd

def parseexec : ℕ → EStateM Stop σ (Cmd W)
  | 0 => throw .outOfFuel
  | n+1 => do
    let block ← c.peek ['(']
    if block then parseblock n
    else
      let ret ← parseredirs c n (.exec [])
      parseargs c n 0 ret

def parseblock : ℕ → EStateM Stop σ (Cmd W)
  | 0 => throw .outOfFuel
  | n+1 => do
    let opened ← c.peek ['(']
    if opened then
      let _ ← c.gettoken
      let cmd ← parseline n
      let closed ← c.peek [')']
      if closed then
        let _ ← c.gettoken
        parseredirs c n cmd
      else throw .missingParen
    else throw .parseblock

end

end Descent

section Line

def cur (s : List Char) : Char := s.headD NUL

def skip (s : List Char) : List Char := s.dropWhile whitespace.contains

def ordinary (a : Char) : Bool := !whitespace.contains a && !symbols.contains a

abbrev Extent := List Char × List Char

def token (s : List Char) : Char × List Char :=
  if cur s = NUL then (NUL,s)
  else if ['|','(',')',';','&','<'].contains (cur s) then (cur s,s.tail)
  else if cur s = '>' then
    if cur s.tail = '>' then ('+',s.tail.tail) else ('>',s.tail)
  else ('a',s.dropWhile ordinary)

def gettoken (s : List Char) : (Char × Extent) × List Char :=
  let q := skip s
  let r := token q
  ((r.1,q,r.2),skip r.2)

def peek (toks : List Char) (s : List Char) : Bool × List Char :=
  let s := skip s
  (cur s ≠ NUL && toks.contains (cur s),s)

def chars : Scanner (List Char) Extent where
  peek toks s := .ok (peek toks s).1 (peek toks s).2
  gettoken s := .ok (gettoken s).1 (gettoken s).2

def terminate (line p : List Char) : List Char := line.set (line.length-p.length) NUL

def nulterminate (line : List Char) : Cmd Extent → List Char
  | .exec argv => argv.foldl (fun line w => terminate line w.2) line
  | .redir cmd file _ _ => terminate (nulterminate line cmd) file.2
  | .pipe left right => nulterminate (nulterminate line left) right
  | .list left right => nulterminate (nulterminate line left) right
  | .back cmd => nulterminate line cmd

def parsecmd (s : List Char) : Except Stop (Cmd Extent × List Char) :=
  match parseline chars (4*s.length+4) s with
  | .error e _ => .error e
  | .ok cmd rest => if (peek [] rest).2 ≠ [] then .error .leftovers else .ok (cmd,nulterminate s cmd)

def cstring (line p : List Char) : List Char := (line.drop (line.length-p.length)).takeWhile (· ≠ NUL)

def Cmd.map {W W' : Type} (f : W → W') : Cmd W → Cmd W'
  | .exec argv => .exec (argv.map f)
  | .redir cmd file mode fd => .redir (cmd.map f) (f file) mode fd
  | .pipe left right => .pipe (left.map f) (right.map f)
  | .list left right => .list (left.map f) (right.map f)
  | .back cmd => .back (cmd.map f)

/-- The command as `runcmd` reads it: every pointer stands for the string that starts there. -/
def strings (r : Cmd Extent × List Char) : Cmd (List Char) := r.1.map fun w => cstring r.2 w.1

end Line

end Xv6.Shell
