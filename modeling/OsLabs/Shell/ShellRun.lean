import Mathlib.Data.List.Induction
import OsLabs.Shell.ShellAgree

/-!
`runcmd` of both shells on the tree of a command. A REDIR node closes its descriptor and opens its file, which
gets the lowest free descriptor, and goes on with the command below it whatever `open` returned.
-/

namespace OsLabs.Shell

open Function

/-- The files that the descriptors of the process refer to, and what becomes of the next calls of `open`. -/
structure Env where
  fds : Nat → Option Word
  opens : List Bool

/-- What the shells differ in when they run a command: how many descriptors a process has, what is printed, and
where, when `open` fails, and whether LIST and BACK are known. -/
structure Runner where
  nofile : Nat
  complaint : List (Nat × String)
  lists : Bool

def xv6Runner : Runner := ⟨16, [(1, "error")], true⟩

def labRunner (nofile : Nat) : Runner := ⟨nofile, [], false⟩

def Env.close (e : Env) (fd : Nat) : Env := { e with fds := update e.fds fd none }

/-- `fdalloc`. -/
def Env.lowest (e : Env) (nofile : Nat) : Option Nat := (List.range nofile).find? fun fd => (e.fds fd).isNone

def Env.open (e : Env) (nofile : Nat) (file : Word) : Option Nat × Env :=
  let later := { e with opens := e.opens.tail }
  if e.opens.head?.getD true then
    (e.lowest nofile).elim (none, later) fun fd =>
      (some fd, { later with fds := update e.fds fd (some file) })
  else (none, later)

/-- What `runcmd` has done when it reaches `exec`, with the arguments, or exits. -/
structure Ran where
  execs : Option (List Word)
  fds : Nat → Option Word
  opened : List (Redir Word × Option Nat)
  printed : List (Nat × String)

def Ran.after (ran : Ran) (opened : List (Redir Word × Option Nat)) (printed : List (Nat × String)) : Ran :=
  { ran with opened := opened ++ ran.opened, printed := printed ++ ran.printed }

def Runner.runcmd (shell : Runner) : Cmd Word → Env → Ran
  | .exec argv, e => ⟨if argv = [] then none else some argv, e.fds, [], []⟩
  | .redir cmd target, e =>
      let (fd, next) := (e.close target.fd).open shell.nofile target.file
      (shell.runcmd cmd next).after [(target, fd)] (if fd = none then shell.complaint else [])
  | .pipe left _, e => (shell.runcmd left e).after [] [(2, "pipe not implemented\n")]
  | .list left _, e =>
      if shell.lists then (shell.runcmd left e).after [] [(2, "list not implemented\n")]
      else ⟨none, e.fds, [], [(2, "unknown runcmd\n")]⟩
  | .back cmd, e =>
      if shell.lists then (shell.runcmd cmd e).after [] [(2, "background not implemented\n")]
      else ⟨none, e.fds, [], [(2, "unknown runcmd\n")]⟩

def chain (redirs : List (Redir Word)) (argv : List Word) : Cmd Word := redirs.foldl .redir (.exec argv)

section Chain

variable {shell : Runner} {redirs : List (Redir Word)} {argv : List Word} {e : Env}

theorem runcmd_chain_concat (target : Redir Word) :
    shell.runcmd (chain (redirs ++ [target]) argv) e =
      (shell.runcmd (chain redirs argv) ((e.close target.fd).open shell.nofile target.file).2).after
        [(target, ((e.close target.fd).open shell.nofile target.file).1)]
        (if ((e.close target.fd).open shell.nofile target.file).1 = none then shell.complaint else []) := by
  rw [chain, List.foldl_append, List.foldl_cons, List.foldl_nil, Runner.runcmd]
  rfl

theorem runcmd_chain_execs : (shell.runcmd (chain redirs argv) e).execs = if argv = [] then none else some argv := by
  induction redirs using List.reverseRecOn generalizing e with
  | nil => rfl
  | append_singleton redirs target ih => rw [runcmd_chain_concat, Ran.after, ih]

theorem open_refused {nofile : Nat} {file : Word} {rest : List Bool} (refused : e.opens = false :: rest) :
    (e.open nofile file).1 = none := by
  simp [Env.open, refused]

theorem open_opens {nofile : Nat} {file : Word} : (e.open nofile file).2.opens = e.opens.tail := by
  rw [Env.open]
  split
  · cases e.lowest nofile <;> rfl
  · rfl

theorem lowest_close {nofile fd : Nat} (inside : fd < nofile) (below : ∀ n < fd, (e.fds n).isSome) :
    (e.close fd).lowest nofile = some fd := by
  rw [Env.lowest, List.find?_range_eq_some]
  refine ⟨by simp [Env.close], List.mem_range.mpr inside, fun n smaller => ?_⟩
  obtain ⟨file, used⟩ := Option.isSome_iff_exists.mp (below n smaller)
  simp [Env.close, update_of_ne smaller.ne, used]

theorem open_close {nofile fd : Nat} {file : Word} (inside : fd < nofile) (below : ∀ n < fd, (e.fds n).isSome)
    (succeeds : e.opens.head?.getD true = true) :
    (e.close fd).open nofile file = (some fd, ⟨update e.fds fd (some file), e.opens.tail⟩) := by
  rw [Env.open, if_pos (show (e.close fd).opens.head?.getD true = true from succeeds), lowest_close inside below,
    Option.elim_some, Env.close, update_idem]

def Env.Ready (e : Env) (nofile : Nat) (redirs : List (Redir Word)) : Prop :=
  ∀ target ∈ redirs, target.fd < nofile ∧ ∀ n < target.fd, (e.fds n).isSome

theorem Env.Ready.set {nofile : Nat} {target : Redir Word} (ready : e.Ready nofile (redirs ++ [target]))
    (opens : List Bool) : Env.Ready ⟨update e.fds target.fd (some target.file), opens⟩ nofile redirs := by
  intro other member
  obtain ⟨inside, below⟩ := ready other (List.mem_append_left _ member)
  refine ⟨inside, fun n smaller => ?_⟩
  dsimp only
  by_cases same : n = target.fd
  · rw [same, update_self]
    rfl
  · rw [update_of_ne same]
    exact below n smaller

theorem runcmd_chain (ready : e.Ready shell.nofile redirs) (succeed : ∀ ok ∈ e.opens.take redirs.length, ok = true) :
    (shell.runcmd (chain redirs argv) e).opened = redirs.reverse.map (fun target => (target, some target.fd)) ∧
      (shell.runcmd (chain redirs argv) e).fds =
        redirs.foldr (fun target (fds : Nat → Option Word) => update fds target.fd (some target.file)) e.fds := by
  induction redirs using List.reverseRecOn generalizing e with
  | nil => exact ⟨rfl, rfl⟩
  | append_singleton redirs target ih =>
      obtain ⟨inside, below⟩ := ready target (by simp)
      have first : e.opens.head?.getD true = true := by
        cases opens : e.opens with
        | nil => rfl
        | cons ok rest => exact succeed ok (by simp [opens])
      have later : ∀ ok ∈ e.opens.tail.take redirs.length, ok = true := by
        intro ok member
        refine succeed ok ?_
        cases opens : e.opens with
        | nil => simp [opens] at member
        | cons head rest =>
            rw [opens, List.tail_cons] at member
            rw [List.length_append, List.length_singleton, List.take_succ_cons]
            exact List.mem_cons_of_mem _ member
      rw [runcmd_chain_concat, open_close inside below first]
      obtain ⟨opened, fds⟩ := ih (ready.set e.opens.tail) later
      simp [Ran.after, opened, fds, List.foldr_append]

theorem runcmd_chain_refused (refused : false ∈ e.opens.take redirs.length) :
    ∃ target, (target, none) ∈ (shell.runcmd (chain redirs argv) e).opened := by
  induction redirs using List.reverseRecOn generalizing e with
  | nil => simp at refused
  | append_singleton redirs target ih =>
      rw [runcmd_chain_concat, Ran.after]
      cases opens : e.opens with
      | nil => simp [opens] at refused
      | cons ok rest =>
          rw [opens, List.length_append, List.length_singleton, List.take_succ_cons] at refused
          rcases List.mem_cons.mp refused with here | later
          · refine ⟨target, List.mem_append_left _ ?_⟩
            rw [open_refused (show (e.close target.fd).opens = _ from here ▸ opens)]
            exact List.mem_singleton_self _
          · have tail : false ∈ ((e.close target.fd).open shell.nofile target.file).2.opens.take redirs.length := by
              rw [open_opens]
              change false ∈ e.opens.tail.take redirs.length
              rwa [opens]
            obtain ⟨other, member⟩ := ih tail
            exact ⟨other, List.mem_append_right _ member⟩

end Chain

/-- In both shells the command below the redirections runs whatever becomes of them. So "the command runs only if
each file was opened as the descriptor that its node names" is kept exactly when there is no command or no `open`
fails. -/
theorem redirections_checked_iff (shell : Runner) (redirs : List (Redir Word)) (argv : List Word) (e : Env)
    (ready : e.Ready shell.nofile redirs) :
    ((shell.runcmd (chain redirs argv) e).execs.isSome →
        ∀ result ∈ (shell.runcmd (chain redirs argv) e).opened, result.2 = some result.1.fd) ↔
      argv = [] ∨ ∀ ok ∈ e.opens.take redirs.length, ok = true := by
  rw [runcmd_chain_execs]
  constructor
  · intro checked
    by_cases empty : argv = []
    · exact Or.inl empty
    refine Or.inr fun ok member => ?_
    by_contra failed
    rw [Bool.eq_false_iff.mpr failed] at member
    obtain ⟨target, refused⟩ := @runcmd_chain_refused shell redirs argv e member
    exact absurd (checked (by simp [empty]) _ refused) (by simp)
  · rintro (rfl | succeed)
    · simp
    · intro _ result member
      rw [(runcmd_chain ready succeed).1] at member
      obtain ⟨target, -, rfl⟩ := List.mem_map.mp member
      rfl

def console (opens : List Bool) : Env := ⟨fun fd => if fd < 3 then some "console".toList else none, opens⟩

def reads (file : String) : Redir Word := ⟨file.toList, ⟨false, false, false⟩, 0⟩

def writes (file : String) : Redir Word := ⟨file.toList, ⟨true, true, false⟩, 1⟩

@[simp] theorem console_opens (opens : List Bool) : (console opens).opens = opens := rfl

theorem console_fds (opens : List Bool) {fd : Nat} (low : fd < 3) : ((console opens).fds fd).isSome := by
  have used : (console opens).fds fd = some "console".toList := if_pos low
  rw [used]
  rfl

theorem console_ready (file other : String) (opens : List Bool) :
    (console opens).Ready xv6Runner.nofile [reads file, writes other] := by
  intro target member
  have named : target.fd = 0 ∨ target.fd = 1 := by
    rw [List.mem_cons, List.mem_singleton] at member
    rcases member with rfl | rfl
    · exact Or.inl rfl
    · exact Or.inr rfl
  have room : 3 ≤ xv6Runner.nofile := by decide
  exact ⟨by omega, fun n below => console_fds opens (by omega)⟩

/-- `sort <in >out`, when both files can be opened. -/
def sortInOut : Ran := xv6Runner.runcmd (chain [reads "in", writes "out"] ["sort".toList]) (console [true, true])

theorem redirections_checked_iff_sort :
    sortInOut.execs.isSome ∧ ∀ result ∈ sortInOut.opened, result.2 = some result.1.fd :=
  have runs : sortInOut.execs.isSome := by decide +kernel
  ⟨runs, (redirections_checked_iff xv6Runner [reads "in", writes "out"] ["sort".toList] (console [true, true])
    (console_ready "in" "out" _)).mpr (Or.inr (by simp)) runs⟩

/-- `sort >out <missing`, when `missing` cannot be opened. -/
def sortMissing (shell : Runner) : Ran :=
  shell.runcmd (chain [writes "out", reads "missing"] ["sort".toList]) (console [false, true])

/-- In both shells `sort` runs, with `out` opened as descriptor 0 and nothing as descriptor 1. -/
theorem failed_redirection_runs :
    ((sortMissing xv6Runner).execs = some ["sort".toList] ∧
        (sortMissing xv6Runner).opened = [(reads "missing", none), (writes "out", some 0)]) ∧
      (sortMissing (labRunner 1024)).execs = some ["sort".toList] ∧
        (sortMissing (labRunner 1024)).opened = [(reads "missing", none), (writes "out", some 0)] := by
  decide +kernel

end OsLabs.Shell
