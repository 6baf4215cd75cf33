import Mathlib.Data.List.TakeWhile
import Mathlib.Logic.Function.Iterate
import OsLabs.Shell.ShellCore

/-!
The language of `xv6/sh.c` as a grammar: the tokens of a line, and what a sequence of tokens derives. The
functions of the parser are related to it through `left`, the tokens from a pointer on.
-/

namespace OsLabs.Shell

inductive Lexeme where
  | sym (c : Char)
  | append
  | word (text : Word)
deriving DecidableEq, Repr

def metas : List Char := ['<', '|', '>', '&', ';', '(', ')']

def ofWord (c : Char) : Bool := c ∉ whitespace ∧ c ∉ metas

/-- The tokens of a text. A word is a run of characters of words that goes on as far as it can. -/
def tokens : List Char → List Lexeme
  | [] => []
  | c :: rest =>
      if c ∈ whitespace then tokens rest
      else if c = '>' ∧ rest.head? = some '>' then .append :: tokens rest.tail
      else if c ∈ metas then .sym c :: tokens rest
      else .word (c :: rest.takeWhile ofWord) :: tokens (rest.dropWhile ofWord)
termination_by text => text.length
decreasing_by
  · simp
  · simp only [List.length_tail, List.length_cons]
    omega
  · simp
  · exact Nat.lt_succ_of_le (List.length_dropWhile_le _ _)

/-- `<`, `>` or `>>` and a word. -/
inductive Redirects : List Lexeme → Redir Word → Prop
  | input {file} : Redirects [.sym '<', .word file] ⟨file, ⟨false, false, false⟩, 0⟩
  | output {file} : Redirects [.sym '>', .word file] ⟨file, ⟨true, true, false⟩, 1⟩
  | append {file} : Redirects [.append, .word file] ⟨file, ⟨true, true, false⟩, 1⟩

inductive Redirections : List Lexeme → List (Redir Word) → Prop
  | nil : Redirections [] []
  | cons {first rest redir redirs} (one : Redirects first redir) (more : Redirections rest redirs) :
      Redirections (first ++ rest) (redir :: redirs)

inductive Arguments : List Lexeme → List Word → List (Redir Word) → Prop
  | nil : Arguments [] [] []
  | cons {text first rest words redirs more} (own : Redirections first redirs)
      (others : Arguments rest words more) :
      Arguments (.word text :: (first ++ rest)) (text :: words) (redirs ++ more)

inductive Nonterminal where
  | line
  | pipe
  | exec
deriving DecidableEq, Repr

def backs (count : Nat) (cmd : Cmd Word) : Cmd Word := (Cmd.back)^[count] cmd

inductive Derives : Nonterminal → List Lexeme → Cmd Word → Prop
  | line {first cmd} {count : Nat} (pipe : Derives .pipe first cmd) :
      Derives .line (first ++ List.replicate count (.sym '&')) (backs count cmd)
  | list {first cmd rest right} {count : Nat} (pipe : Derives .pipe first cmd) (more : Derives .line rest right) :
      Derives .line (first ++ List.replicate count (.sym '&') ++ .sym ';' :: rest) (.list (backs count cmd) right)
  | single {first cmd} (exec : Derives .exec first cmd) : Derives .pipe first cmd
  | pipe {first cmd rest right} (exec : Derives .exec first cmd) (more : Derives .pipe rest right) :
      Derives .pipe (first ++ .sym '|' :: rest) (.pipe cmd right)
  | block {inside cmd after redirs} (line : Derives .line inside cmd) (redirected : Redirections after redirs) :
      Derives .exec (.sym '(' :: inside ++ .sym ')' :: after) (redirs.foldl .redir cmd)
  | simple {before after redirs words more} (redirected : Redirections before redirs)
      (arguments : Arguments after words more) (few : words.length ≤ maxargs - 1) :
      Derives .exec (before ++ after) ((redirs ++ more).foldl .redir (.exec words))

section Lexer

variable {line : List Char}

def left (line : List Char) (s : Nat) : List Lexeme := tokens (line.drop s)

def slice (line : List Char) (word : Span) : Word := mkcopy line word.q word.eq

/-- A word of the line: it consists of characters of words and what comes after it is none. -/
structure IsSpan (line : List Char) (word : Span) : Prop where
  order : word.q ≤ word.eq
  bound : word.eq ≤ line.length
  inside : ∀ i, word.q ≤ i → i < word.eq → ofWord (charAt line i) = true
  ends : word.eq < line.length → ofWord (charAt line word.eq) = false

def Lexeme.begins (toks : List Char) : Lexeme → Bool
  | .sym c => c ∈ toks
  | .append => '>' ∈ toks
  | .word _ => false

theorem length_tokens_le (text : List Char) : (tokens text).length ≤ text.length := by
  fun_induction tokens text with
  | case1 => exact le_rfl
  | case2 c rest space ih => exact Nat.le_succ_of_le ih
  | case3 c rest _ both ih =>
      have shorter := List.length_tail (l := rest)
      simp only [List.length_cons]
      omega
  | case4 c rest _ _ symbol ih => exact Nat.succ_le_succ ih
  | case5 c rest _ _ _ ih => exact Nat.succ_le_succ (ih.trans (List.length_dropWhile_le _ _))

theorem drop_length_takeWhile {α : Type} (p : α → Bool) (l : List α) : l.drop (l.takeWhile p).length = l.dropWhile p := by
  induction l with
  | nil => rfl
  | cons a rest ih =>
      by_cases holds : p a = true
      · rw [List.takeWhile_cons_of_pos holds, List.length_cons, List.drop_succ_cons, ih, List.dropWhile_cons_of_pos holds]
      · rw [List.takeWhile_cons_of_neg holds, List.dropWhile_cons_of_neg holds]
        rfl

theorem drop_skip (line : List Char) (s : Nat) : line.drop (skip line s) = (line.drop s).dropWhile (· ∈ whitespace) := by
  rw [skip, ← List.drop_drop, drop_length_takeWhile]

theorem tokens_dropWhile (text : List Char) : tokens (text.dropWhile (· ∈ whitespace)) = tokens text := by
  induction text with
  | nil => rfl
  | cons c rest ih =>
      by_cases space : c ∈ whitespace
      · rw [List.dropWhile_cons_of_pos (by simpa using space), ih, tokens, if_pos space]
      · rw [List.dropWhile_cons_of_neg (by simpa using space)]

@[simp] theorem left_skip (line : List Char) (s : Nat) : left line (skip line s) = left line s := by
  rw [left, drop_skip, tokens_dropWhile, left]

end Lexer

end OsLabs.Shell
