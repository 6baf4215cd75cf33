import Mathlib.Tactic.Common

/-!
Executable model of the command parsers of `xv6/sh.c` and `lab-02/sh.c`. A pointer into the line is an
offset; `es` is the length of the line, where the character is a NUL. What the two shells have in common is
written once, over a `Dialect` with what they differ in. The mutually recursive functions take fuel, and to
run out of it is a failure of its own.
-/

namespace OsLabs.Shell

abbrev Word := List Char

def nul : Char := '\x00'

def whitespace : List Char := [' ', '\t', '\r', '\n', '\x0b']

def maxargs : Nat := 10

/-- The flags of `open`. -/
structure Mode where
  write : Bool
  create : Bool
  truncate : Bool
deriving DecidableEq, Repr

structure Redir (W : Type) where
  file : W
  mode : Mode
  fd : Nat
deriving DecidableEq, Repr

/-- `struct cmd`. A word is a pair of pointers into the line or a copy. -/
inductive Cmd (W : Type) where
  | exec (argv : List W)
  | redir (cmd : Cmd W) (target : Redir W)
  | pipe (left right : Cmd W)
  | list (left right : Cmd W)
  | back (cmd : Cmd W)
deriving DecidableEq, Repr

/-- The ways in which a parser does not return: it prints a text and exits. -/
inductive Failure where
  | exits (text : String)
  | fuel
deriving DecidableEq, Repr

/-- What `gettoken` returns: 0, the symbol, `+` for `>>` or `a` for a word. -/
inductive Tok where
  | eof
  | sym (c : Char)
  | append
  | word
deriving DecidableEq, Repr

structure Token where
  tok : Tok
  q : Nat
  eq : Nat
  s : Nat
deriving DecidableEq, Repr

/-- What the two shells differ in: the symbols and whether `>>` is one, where the arguments of a command end,
what is kept of a word, the mode of an output file and the texts of errors. -/
structure Dialect (W : Type) where
  symbols : List Char
  joins : Bool
  stops : List Char
  keep : List Char → Nat → Nat → W
  output : Mode
  missingFile : String
  badToken : String
  tooManyArgs : String

def charAt (buf : List Char) (s : Nat) : Char := (buf[s]?).getD nul

def skip (line : List Char) (s : Nat) : Nat := s + ((line.drop s).takeWhile (· ∈ whitespace)).length

def peek (line : List Char) (ps : Nat) (toks : List Char) : Nat × Bool :=
  let s := skip line ps
  (s, charAt line s ≠ nul ∧ charAt line s ∈ toks)

namespace Dialect

variable {W : Type} (d : Dialect W) (line : List Char)

def isWordChar (c : Char) : Bool := c ∉ whitespace ∧ c ∉ d.symbols

def gettoken (ps : Nat) : Token :=
  let q := skip line ps
  let c := charAt line q
  let (tok, eq) : Tok × Nat :=
    if c = nul then (.eof, q)
    else if c = '>' then
      if d.joins ∧ charAt line (q + 1) = '>' then (.append, q + 2) else (.sym c, q + 1)
    else if c ∈ d.symbols then (.sym c, q + 1)
    else (.word, q + ((line.drop q).takeWhile d.isWordChar).length)
  ⟨tok, q, eq, skip line eq⟩

/-- The switch of `parseredirs`. -/
def redirect (tok : Tok) (file : Token) : List (Redir W) :=
  let word := d.keep line file.q file.eq
  match tok with
  | .sym '<' => [⟨word, ⟨false, false, false⟩, 0⟩]
  | .sym '>' => [⟨word, d.output, 1⟩]
  | .append => [⟨word, d.output, 1⟩]
  | _ => []

/-- `parseredirs`. The redirections are kept in a list, since the command below them may still get arguments. -/
def parseredirs : Nat → List (Redir W) → Nat → Except Failure (List (Redir W) × Nat)
  | 0, _, _ => .error .fuel
  | fuel + 1, redirs, ps =>
      let (ps, more) := peek line ps ['<', '>']
      if more then
        let operator := d.gettoken line ps
        let file := d.gettoken line operator.s
        if file.tok ≠ .word then .error (.exits d.missingFile)
        else parseredirs fuel (redirs ++ d.redirect line operator.tok file) file.s
      else .ok (redirs, ps)

/-- The loop of `parseexec`. -/
def parseargs : Nat → List W → List (Redir W) → Nat → Except Failure (List W × List (Redir W) × Nat)
  | 0, _, _, _ => .error .fuel
  | fuel + 1, argv, redirs, ps =>
      let (ps, stop) := peek line ps d.stops
      if stop then .ok (argv, redirs, ps)
      else
        let token := d.gettoken line ps
        if token.tok = .eof then .ok (argv, redirs, token.s)
        else if token.tok ≠ .word then .error (.exits d.badToken)
        else
          let argv := argv ++ [d.keep line token.q token.eq]
          if maxargs ≤ argv.length then .error (.exits d.tooManyArgs)
          else do
            let (redirs, ps) ← d.parseredirs line fuel redirs token.s
            parseargs fuel argv redirs ps

/-- `parseexec`, for a command that is not a block. -/
def parsesimple (fuel ps : Nat) : Except Failure (Cmd W × Nat) := do
  let (redirs, ps) ← d.parseredirs line fuel [] ps
  let (argv, redirs, ps) ← d.parseargs line fuel [] redirs ps
  pure (redirs.foldl .redir (.exec argv), ps)

end Dialect

/-- A word as `argv[i]` and `eargv[i]`. -/
structure Span where
  q : Nat
  eq : Nat
deriving DecidableEq, Repr

/-- `xv6/sh.c`. -/
def xv6 : Dialect Span where
  symbols := ['<', '|', '>', '&', ';', '(', ')']
  joins := true
  stops := ['|', ')', '&', ';']
  keep _ q eq := ⟨q, eq⟩
  output := ⟨true, true, false⟩
  missingFile := "missing file for redirection"
  badToken := "syntax"
  tooManyArgs := "too many args"

namespace Xv6

variable (line : List Char)

/-- The loop of `parseline` over `&`. -/
def parsebacks : Nat → Cmd Span → Nat → Except Failure (Cmd Span × Nat)
  | 0, _, _ => .error .fuel
  | fuel + 1, cmd, ps =>
      let (ps, more) := peek line ps ['&']
      if more then parsebacks fuel (.back cmd) (xv6.gettoken line ps).s else .ok (cmd, ps)

mutual

def parseline : Nat → Nat → Except Failure (Cmd Span × Nat)
  | 0, _ => .error .fuel
  | fuel + 1, ps => do
      let (cmd, ps) ← parsepipe fuel ps
      let (cmd, ps) ← parsebacks line fuel cmd ps
      let (ps, more) := peek line ps [';']
      if more then do
        let (right, ps) ← parseline fuel (xv6.gettoken line ps).s
        pure (.list cmd right, ps)
      else pure (cmd, ps)

def parsepipe : Nat → Nat → Except Failure (Cmd Span × Nat)
  | 0, _ => .error .fuel
  | fuel + 1, ps => do
      let (cmd, ps) ← parseexec fuel ps
      let (ps, more) := peek line ps ['|']
      if more then do
        let (right, ps) ← parsepipe fuel (xv6.gettoken line ps).s
        pure (.pipe cmd right, ps)
      else pure (cmd, ps)

def parseblock : Nat → Nat → Except Failure (Cmd Span × Nat)
  | 0, _ => .error .fuel
  | fuel + 1, ps =>
      let (ps, opens) := peek line ps ['(']
      if opens then do
        let (cmd, ps) ← parseline fuel (xv6.gettoken line ps).s
        let (ps, closes) := peek line ps [')']
        if closes then do
          let (redirs, ps) ← xv6.parseredirs line fuel [] (xv6.gettoken line ps).s
          pure (redirs.foldl .redir cmd, ps)
        else .error (.exits "syntax - missing )")
      else .error (.exits "parseblock")

def parseexec : Nat → Nat → Except Failure (Cmd Span × Nat)
  | 0, _ => .error .fuel
  | fuel + 1, ps =>
      let (ps, block) := peek line ps ['(']
      if block then parseblock fuel ps else xv6.parsesimple line fuel ps

end

/-- `nulterminate`, on the buffer with the line. -/
def nulterminate : Cmd Span → List Char → List Char
  | .exec argv, buf => argv.foldl (fun buf word => buf.set word.eq nul) buf
  | .redir cmd target, buf => (nulterminate cmd buf).set target.file.eq nul
  | .pipe left right, buf | .list left right, buf => nulterminate right (nulterminate left buf)
  | .back cmd, buf => nulterminate cmd buf

/-- `parsecmd`, with the buffer that it leaves. -/
def parsecmd : Except Failure (Cmd Span × List Char) := do
  let (cmd, ps) ← parseline line (4 * line.length + 4) 0
  let (ps, _) := peek line ps []
  if ps ≠ line.length then .error (.exits "syntax")
  else pure (cmd, nulterminate cmd (line ++ [nul]))

end Xv6

/-- `mkcopy`. -/
def mkcopy (line : List Char) (s es : Nat) : Word := (line.drop s).take (es - s)

/-- `lab-02/sh.c`. -/
def lab : Dialect Word where
  symbols := ['<', '|', '>']
  joins := false
  stops := ['|']
  keep := mkcopy
  output := ⟨true, true, true⟩
  missingFile := "missing file for redirection\n"
  badToken := "syntax error\n"
  tooManyArgs := "too many args\n"

namespace Lab

variable (line : List Char)

def parseexec : Nat → Nat → Except Failure (Cmd Word × Nat)
  | 0, _ => .error .fuel
  | fuel + 1, ps => lab.parsesimple line fuel ps

def parsepipe : Nat → Nat → Except Failure (Cmd Word × Nat)
  | 0, _ => .error .fuel
  | fuel + 1, ps => do
      let (cmd, ps) ← parseexec line fuel ps
      let (ps, more) := peek line ps ['|']
      if more then do
        let (right, ps) ← parsepipe fuel (lab.gettoken line ps).s
        pure (.pipe cmd right, ps)
      else pure (cmd, ps)

def parseline : Nat → Nat → Except Failure (Cmd Word × Nat)
  | 0, _ => .error .fuel
  | fuel + 1, ps => parsepipe line fuel ps

def parsecmd : Except Failure (Cmd Word) := do
  let (cmd, ps) ← parseline line (4 * line.length + 4) 0
  let (ps, _) := peek line ps []
  if ps ≠ line.length then .error (.exits "leftovers: %s\n")
  else pure cmd

end Lab

def stringAt (buf : List Char) (s : Nat) : Word := (buf.drop s).takeWhile (· ≠ nul)

variable {W V : Type}

def Redir.map (f : W → V) (redir : Redir W) : Redir V := ⟨f redir.file, redir.mode, redir.fd⟩

namespace Cmd

def map (f : W → V) : Cmd W → Cmd V
  | .exec argv => .exec (argv.map f)
  | .redir cmd target => .redir (cmd.map f) (target.map f)
  | .pipe left right => .pipe (left.map f) (right.map f)
  | .list left right => .list (left.map f) (right.map f)
  | .back cmd => .back (cmd.map f)

def strings (cmd : Cmd Span) (buf : List Char) : Cmd Word := cmd.map fun word => stringAt buf word.q

end Cmd

end OsLabs.Shell
