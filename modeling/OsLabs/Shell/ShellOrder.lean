import OsLabs.Shell.ShellRun

/-!
The order of redirections. `parseredirs` wraps the command once for each redirection, from left to right, so the
outermost node is the rightmost redirection, and `runcmd` begins with it: of several redirections of a descriptor
the leftmost one is opened last and stays.
-/

namespace OsLabs.Shell

open OsLabs.Outcomes

variable {line : List Char} {ts : List Lexeme}

def Token.lexeme (line : List Char) (t : Token) : Option Lexeme :=
  match t.tok with
  | .eof => none
  | .sym c => some (.sym c)
  | .append => some .append
  | .word => some (.word (mkcopy line t.q t.eq))

/-- The tokens that `gettoken` finds from a pointer on. -/
inductive Lexes {W : Type} (d : Dialect W) (line : List Char) : Nat → List Lexeme → Prop
  | nil {ps} (ended : (d.gettoken line ps).lexeme line = none) : Lexes d line ps []
  | cons {ps first rest} (found : (d.gettoken line ps).lexeme line = some first)
      (more : Lexes d line (d.gettoken line ps).s rest) : Lexes d line ps (first :: rest)

def redirected : Lexeme → Option Nat
  | .sym c => if c = '<' then some 0 else if c = '>' then some 1 else none
  | .append => some 1
  | .word _ => none

def Lexeme.text : Lexeme → Option Word
  | .word text => some text
  | _ => none

/-- The redirections of a line from left to right: the descriptor and the word after the operator. -/
def redirections : List Lexeme → List (Nat × Word)
  | [] => []
  | first :: rest =>
      ((redirected first).bind fun fd => (rest.head?.bind Lexeme.text).map (fd, ·)).toList ++ redirections rest

theorem redirections_skip {first : Lexeme} (plain : redirected first = none) (rest : List Lexeme) :
    redirections (first :: rest) = redirections rest := by
  rw [redirections, plain]
  rfl

theorem redirections_pair {first : Lexeme} {fd : Nat} (operator : redirected first = some fd) (file : Word)
    (rest : List Lexeme) : redirections (first :: .word file :: rest) = (fd, file) :: redirections rest := by
  rw [redirections, operator, redirections_skip rfl]
  rfl

theorem redirections_fd {pair : Nat × Word} (member : pair ∈ redirections ts) : pair.1 < 2 := by
  induction ts with
  | nil => simp [redirections] at member
  | cons first rest ih =>
      rcases List.mem_append.mp member with here | later
      · obtain ⟨fd, operator, found⟩ := Option.bind_eq_some_iff.mp (Option.mem_toList.mp here)
        obtain ⟨file, -, rfl⟩ := Option.map_eq_some_iff.mp found
        cases first with
        | sym c =>
            rw [redirected] at operator
            split_ifs at operator <;> simp at operator <;> omega
        | append => simp [redirected] at operator; omega
        | word text => simp [redirected] at operator
      · exact ih later

def Redir.pair (target : Redir Word) : Nat × Word := (target.fd, target.file)

def Cmd.redirs : Cmd Word → List (Nat × Word)
  | .exec _ => []
  | .redir cmd target => cmd.redirs ++ [target.pair]
  | .pipe left right | .list left right => left.redirs ++ right.redirs
  | .back cmd => cmd.redirs

theorem redirs_foldl (redirs : List (Redir Word)) (cmd : Cmd Word) :
    (redirs.foldl .redir cmd).redirs = cmd.redirs ++ redirs.map Redir.pair := by
  induction redirs generalizing cmd with
  | nil => exact (List.append_nil _).symm
  | cons target rest ih => rw [List.foldl_cons, ih, Cmd.redirs, List.append_assoc, List.map_cons, List.singleton_append]

theorem redirs_backs (count : Nat) (cmd : Cmd Word) : (backs count cmd).redirs = cmd.redirs := by
  induction count generalizing cmd with
  | zero => rfl
  | succ count ih => exact ih (.back cmd)

section Grammar

variable {redirs : List (Redir Word)}

theorem Redirections.in_order (derived : Redirections ts redirs) (rest : List Lexeme) :
    redirections (ts ++ rest) = redirs.map Redir.pair ++ redirections rest := by
  induction derived with
  | nil => rfl
  | cons one more ih =>
      rw [List.append_assoc, List.map_cons, List.cons_append, ← ih]
      cases one with
      | input => exact redirections_pair rfl _ _
      | output => exact redirections_pair rfl _ _
      | append => exact redirections_pair rfl _ _

theorem Arguments.in_order {words : List Word} (derived : Arguments ts words redirs) (rest : List Lexeme) :
    redirections (ts ++ rest) = redirs.map Redir.pair ++ redirections rest := by
  induction derived with
  | nil => rfl
  | cons own others ih =>
      rw [List.cons_append, redirections_skip rfl, List.append_assoc, own.in_order, ih, List.map_append, List.append_assoc]

theorem redirections_backs (count : Nat) (rest : List Lexeme) :
    redirections (List.replicate count (.sym '&') ++ rest) = redirections rest := by
  induction count with
  | zero => rfl
  | succ count ih => rw [List.replicate_succ, List.cons_append, redirections_skip rfl, ih]

theorem Derives.in_order {kind : Nonterminal} {tree : Cmd Word} (derives : Derives kind ts tree)
    (rest : List Lexeme) : redirections (ts ++ rest) = tree.redirs ++ redirections rest := by
  induction derives generalizing rest with
  | line pipe ih => rw [List.append_assoc, ih, redirections_backs, redirs_backs]
  | list pipe more ih ih' =>
      rw [List.append_assoc, List.append_assoc, ih, redirections_backs, List.cons_append, redirections_skip rfl, ih',
        Cmd.redirs, redirs_backs, List.append_assoc]
  | single exec ih => exact ih rest
  | pipe exec more ih ih' =>
      rw [List.append_assoc, ih, List.cons_append, redirections_skip rfl, ih', Cmd.redirs, List.append_assoc]
  | block line redirected ih =>
      rw [List.cons_append, List.cons_append, redirections_skip rfl, List.append_assoc, ih, List.cons_append,
        redirections_skip rfl, redirected.in_order, redirs_foldl, List.append_assoc]
  | simple redirected arguments few =>
      rw [List.append_assoc, redirected.in_order, arguments.in_order, redirs_foldl, Cmd.redirs, List.nil_append,
        List.map_append, List.append_assoc]

end Grammar

theorem lexes_left (nulFree : nul ∉ line) (ps : Nat) : Lexes xv6 line ps (left line ps) := by
  induction h : (left line ps).length using Nat.strong_induction_on generalizing ps with
  | _ count ih =>
      cases gettoken_scans nulFree ps with
      | eof tok none =>
          rw [none]
          exact .nil (by rw [Token.lexeme, tok])
      | sym c tok first =>
          rw [first]
          exact .cons (by rw [Token.lexeme, tok]) (ih _ (by rw [← h, first]; simp) _ rfl)
      | append tok first =>
          rw [first]
          exact .cons (by rw [Token.lexeme, tok]) (ih _ (by rw [← h, first]; simp) _ rfl)
      | word tok span first =>
          rw [first]
          exact .cons (by rw [Token.lexeme, tok]; rfl) (ih _ (by rw [← h, first]; simp) _ rfl)

section Lab

variable {ps : Nat}

theorem gettoken_skip {W : Type} (d : Dialect W) (ps : Nat) : d.gettoken line (skip line ps) = d.gettoken line ps := by
  simp only [Dialect.gettoken, skip_skip]

theorem lexes_skip {W : Type} {d : Dialect W} : Lexes d line (skip line ps) ts → Lexes d line ps ts := by
  intro lexes
  cases lexes with
  | nil ended => exact .nil (by rwa [gettoken_skip] at ended)
  | cons found more => exact .cons (by rwa [gettoken_skip] at found) (by rwa [gettoken_skip] at more)

theorem gettoken_eof {W : Type} {d : Dialect W} (ended : (d.gettoken line ps).tok = .eof) :
    (d.gettoken line ps).s = skip line ps := by
  rw [Dialect.gettoken] at ended ⊢
  dsimp only at ended ⊢
  split at ended
  next none => rw [if_pos none, skip_skip]
  next => split_ifs at ended

theorem gettoken_redirects (more : (peek line ps ['<', '>']).2 = true) (file : Token) :
    ∃ op target, (lab.gettoken line ps).lexeme line = some op ∧
      lab.redirect line (lab.gettoken line ps).tok file = [target] ∧ target.file = mkcopy line file.q file.eq ∧
      redirected op = some target.fd := by
  simp only [peek, List.mem_cons, List.not_mem_nil, or_false, decide_eq_true_eq] at more
  rcases more.2 with input | output
  · have tok : (lab.gettoken line ps).tok = .sym '<' := by
      simp [Dialect.gettoken, input, nul, lab]
    exact ⟨.sym '<', _, by rw [Token.lexeme, tok], by rw [tok]; rfl, rfl, rfl⟩
  · have tok : (lab.gettoken line ps).tok = .sym '>' := by
      simp [Dialect.gettoken, output, nul, lab]
    exact ⟨.sym '>', _, by rw [Token.lexeme, tok], by rw [tok]; rfl, rfl, rfl⟩

structure Between (line : List Char) (ps ps' : Nat) (ts : List Lexeme) (pairs : List (Nat × Word)) : Prop where
  lexes : ∀ rest, Lexes lab line ps' rest → Lexes lab line ps (ts ++ rest)
  order : ∀ rest, redirections (ts ++ rest) = pairs ++ redirections rest

theorem Between.skip (ps : Nat) : Between line ps (skip line ps) [] [] :=
  ⟨fun _ => lexes_skip, fun _ => rfl⟩

theorem Between.trans {middle last : Nat} {more : List Lexeme} {pairs others : List (Nat × Word)}
    (first : Between line ps middle ts pairs) (second : Between line middle last more others) :
    Between line ps last (ts ++ more) (pairs ++ others) := by
  refine ⟨fun rest lexes => ?_, fun rest => ?_⟩
  · rw [List.append_assoc]
    exact first.lexes _ (second.lexes rest lexes)
  · rw [List.append_assoc, first.order, second.order, List.append_assoc]

theorem Between.pair {file : Token} {op : Lexeme} {target : Redir Word}
    (found : (lab.gettoken line ps).lexeme line = some op) (next : lab.gettoken line (lab.gettoken line ps).s = file)
    (word : file.tok = .word) (operator : redirected op = some target.fd) (named : target.file = mkcopy line file.q file.eq) :
    Between line ps file.s [op, .word target.file] [target.pair] := by
  refine ⟨fun rest lexes => .cons found (.cons ?_ ?_), fun rest => redirections_pair operator _ rest⟩
  · rw [next, Token.lexeme, word, named]
  · rwa [next]

theorem Between.word (word : (lab.gettoken line ps).tok = .word) :
    Between line ps (lab.gettoken line ps).s
      [.word (mkcopy line (lab.gettoken line ps).q (lab.gettoken line ps).eq)] [] := by
  refine ⟨fun rest lexes => .cons ?_ lexes, fun rest => redirections_skip rfl rest⟩
  rw [Token.lexeme, word]

theorem parseredirs_between {fuel : Nat} {redirs result : List (Redir Word)} {ps' : Nat}
    (parsed : lab.parseredirs line fuel redirs ps = .ok (result, ps')) :
    ∃ ts new, result = redirs ++ new ∧ Between line ps ps' ts (new.map Redir.pair) := by
  induction fuel generalizing redirs ps with
  | zero => simp [Dialect.parseredirs] at parsed
  | succ fuel ih =>
      rw [Dialect.parseredirs] at parsed
      dsimp only at parsed
      by_cases more : (peek line ps ['<', '>']).2 = true
      · rw [if_pos more] at parsed
        by_cases word : (lab.gettoken line (lab.gettoken line (peek line ps ['<', '>']).1).s).tok = .word
        · rw [if_neg (not_not.mpr word)] at parsed
          have same : lab.gettoken line (peek line ps ['<', '>']).1 = lab.gettoken line ps := gettoken_skip lab ps
          rw [same] at parsed word
          obtain ⟨op, target, found, list, named, operator⟩ := gettoken_redirects more
            (lab.gettoken line (lab.gettoken line ps).s)
          rw [list] at parsed
          obtain ⟨ts, new, rfl, between⟩ := ih parsed
          exact ⟨_, target :: new, by simp, (Between.pair found rfl word operator named).trans between⟩
        · rw [if_pos word] at parsed
          simp at parsed
      · rw [if_neg more] at parsed
        obtain ⟨rfl, rfl⟩ := Prod.mk.inj (Except.ok.inj parsed)
        exact ⟨[], [], (List.append_nil _).symm, Between.skip ps⟩

theorem parseargs_between {fuel : Nat} {argv words : List Word} {redirs result : List (Redir Word)} {ps' : Nat}
    (parsed : lab.parseargs line fuel argv redirs ps = .ok (words, result, ps')) :
    ∃ ts new, result = redirs ++ new ∧ Between line ps ps' ts (new.map Redir.pair) := by
  induction fuel generalizing argv redirs ps with
  | zero => simp [Dialect.parseargs] at parsed
  | succ fuel ih =>
      rw [Dialect.parseargs] at parsed
      dsimp only at parsed
      have same : lab.gettoken line (peek line ps lab.stops).1 = lab.gettoken line ps := gettoken_skip lab ps
      rw [same] at parsed
      by_cases stop : (peek line ps lab.stops).2 = true
      · rw [if_pos stop] at parsed
        obtain ⟨rfl, rfl, rfl⟩ : argv = words ∧ redirs = result ∧ _ = ps' := by simpa using parsed
        exact ⟨[], [], (List.append_nil _).symm, Between.skip ps⟩
      rw [if_neg stop] at parsed
      by_cases ended : (lab.gettoken line ps).tok = .eof
      · rw [if_pos ended, gettoken_eof ended] at parsed
        obtain ⟨rfl, rfl, rfl⟩ : argv = words ∧ redirs = result ∧ _ = ps' := by simpa using parsed
        exact ⟨[], [], (List.append_nil _).symm, Between.skip ps⟩
      rw [if_neg ended] at parsed
      by_cases word : (lab.gettoken line ps).tok = .word
      · rw [if_neg (not_not.mpr word)] at parsed
        split at parsed
        · simp at parsed
        · cases step : lab.parseredirs line fuel redirs (lab.gettoken line ps).s with
          | error failure => simp [step, bind, Except.bind] at parsed
          | ok value =>
              obtain ⟨between, middle⟩ := value
              rw [step, ok_bind] at parsed
              obtain ⟨first, own, rfl, left⟩ := parseredirs_between step
              obtain ⟨later, others, rfl, right⟩ := ih parsed
              have both := (Between.word word).trans (left.trans right)
              rw [← List.map_append] at both
              exact ⟨_, own ++ others, by rw [List.append_assoc], both⟩
      · rw [if_pos word] at parsed
        simp at parsed

theorem parsesimple_between {fuel : Nat} {cmd : Cmd Word} {ps' : Nat}
    (parsed : lab.parsesimple line fuel ps = .ok (cmd, ps')) :
    ∃ ts redirs argv, cmd = chain redirs argv ∧ Between line ps ps' ts (redirs.map Redir.pair) := by
  rw [Dialect.parsesimple] at parsed
  cases first : lab.parseredirs line fuel [] ps with
  | error failure => simp [first, bind, Except.bind] at parsed
  | ok value =>
      obtain ⟨redirs, middle⟩ := value
      rw [first, ok_bind] at parsed
      dsimp only at parsed
      cases second : lab.parseargs line fuel [] redirs middle with
      | error failure => simp [second, bind, Except.bind] at parsed
      | ok value =>
          obtain ⟨argv, all, last⟩ := value
          rw [second, ok_bind] at parsed
          obtain ⟨rfl, rfl⟩ := Prod.mk.inj (Except.ok.inj parsed)
          obtain ⟨early, own, rfl, left⟩ := parseredirs_between first
          obtain ⟨late, others, rfl, right⟩ := parseargs_between second
          have both := left.trans right
          rw [← List.map_append] at both
          exact ⟨_, redirs ++ others, argv, rfl, both⟩

theorem chain_inj {redirs others : List (Redir Word)} {argv words : List Word}
    (same : chain redirs argv = chain others words) : redirs.map Redir.pair = others.map Redir.pair := by
  have pairs := congrArg Cmd.redirs same
  rwa [chain, chain, redirs_foldl, redirs_foldl, Cmd.redirs, Cmd.redirs, List.nil_append, List.nil_append] at pairs

theorem chain_ne_pipe {redirs : List (Redir Word)} {argv : List Word} {left right : Cmd Word} :
    chain redirs argv ≠ .pipe left right := by
  induction redirs using List.reverseRecOn with
  | nil => simp [chain]
  | append_singleton redirs target _ => simp [chain, List.foldl_append]

theorem lab_in_order {redirs : List (Redir Word)} {argv : List Word}
    (parsed : Lab.parsecmd line = .ok (chain redirs argv)) :
    ∃ ts, Lexes lab line 0 ts ∧ redirections ts = redirs.map Redir.pair := by
  rw [Lab.parsecmd, Lab.parseline, Lab.parsepipe, Lab.parseexec] at parsed
  cases simple : lab.parsesimple line (4 * line.length + 1) 0 with
  | error failure => simp [simple, bind, Except.bind] at parsed
  | ok value =>
      obtain ⟨cmd, ps⟩ := value
      rw [simple, ok_bind] at parsed
      obtain ⟨ts, found, words, rfl, between⟩ := parsesimple_between simple
      dsimp only at parsed
      by_cases more : (peek line ps ['|']).2 = true
      · rw [if_pos more] at parsed
        cases rest : Lab.parsepipe line (4 * line.length + 2) (lab.gettoken line (peek line ps ['|']).1).s with
        | error failure => simp [rest, bind, Except.bind] at parsed
        | ok value =>
            rw [rest, ok_bind] at parsed
            simp only [pure, Except.pure, ok_bind] at parsed
            split at parsed
            · simp at parsed
            · exact absurd (Except.ok.inj parsed).symm chain_ne_pipe
      · rw [if_neg more] at parsed
        simp only [pure, Except.pure, ok_bind] at parsed
        split at parsed
        · simp at parsed
        · rename_i ended
          have stops : (lab.gettoken line ps).lexeme line = none := by
            have last : skip line ps = line.length := by
              rw [← not_not.mp ended]
              simp only [peek, skip_skip]
            have char : charAt line (skip line ps) = nul := charAt_of_nil (by rw [last, List.drop_length])
            simp [Token.lexeme, Dialect.gettoken, char]
          refine ⟨ts, ?_, ?_⟩
          · have whole := between.lexes [] (.nil stops)
            rwa [List.append_nil] at whole
          · have order := between.order []
            rw [List.append_nil, redirections, List.append_nil] at order
            rw [order, chain_inj (Except.ok.inj parsed)]

end Lab

/-- What a descriptor refers to after some redirections: the file of the leftmost one, if there is one. -/
def leftmost (pairs : List (Nat × Word)) (fds : Nat → Option Word) (fd : Nat) : Option Word :=
  (pairs.find? fun pair => pair.1 = fd).elim (fds fd) fun pair => some pair.2

theorem leftmost_foldr (redirs : List (Redir Word)) (fds : Nat → Option Word) (fd : Nat) :
    redirs.foldr (fun target (fds : Nat → Option Word) => Function.update fds target.fd (some target.file)) fds fd =
      leftmost (redirs.map Redir.pair) fds fd := by
  induction redirs with
  | nil => rfl
  | cons target rest ih =>
      rw [List.foldr_cons, List.map_cons, leftmost, List.find?_cons]
      by_cases here : target.fd = fd
      · simp [Redir.pair, here, Function.update_self]
      · rw [Function.update_of_ne (Ne.symm here), ih]
        simp [Redir.pair, here, leftmost]

theorem runcmd_leftmost {shell : Runner} {redirs : List (Redir Word)} {argv : List Word} {e : Env}
    (same : redirections ts = redirs.map Redir.pair) (wide : 2 ≤ shell.nofile) (input : (e.fds 0).isSome)
    (succeed : ∀ ok ∈ e.opens.take redirs.length, ok = true) :
    (shell.runcmd (chain redirs argv) e).fds = leftmost (redirections ts) e.fds := by
  have ready : e.Ready shell.nofile redirs := by
    intro target member
    have small : target.fd < 2 :=
      redirections_fd (same ▸ List.mem_map_of_mem (f := Redir.pair) member)
    refine ⟨by omega, fun n below => ?_⟩
    obtain rfl : n = 0 := by omega
    exact input
  rw [(runcmd_chain ready succeed).2, same]
  exact funext fun fd => leftmost_foldr redirs e.fds fd

/-- In both shells, when a line is one command and all its files can be opened, each descriptor refers to the file
of the leftmost redirection of it on the line. The line is read from descriptor 0, which is in use. -/
theorem leftmost_redirection_wins (line : List Char) (redirs : List (Redir Word)) (argv : List Word) (e : Env)
    (input : (e.fds 0).isSome) (succeed : ∀ ok ∈ e.opens.take redirs.length, ok = true) :
    (∀ cmd buf, nul ∉ line → Xv6.parsecmd line = .ok (cmd, buf) → cmd.strings buf = chain redirs argv →
      ∃ ts, Lexes xv6 line 0 ts ∧ (xv6Runner.runcmd (cmd.strings buf) e).fds = leftmost (redirections ts) e.fds) ∧
    ∀ nofile, 2 ≤ nofile → Lab.parsecmd line = .ok (chain redirs argv) →
      ∃ ts, Lexes lab line 0 ts ∧
        ((labRunner nofile).runcmd (chain redirs argv) e).fds = leftmost (redirections ts) e.fds := by
  refine ⟨fun cmd buf nulFree parsed one => ?_, fun nofile wide parsed => ?_⟩
  · have order := (parsecmd_derives nulFree parsed).in_order []
    rw [one, List.append_nil, redirections, List.append_nil, chain, redirs_foldl, Cmd.redirs, List.nil_append] at order
    have lexes := lexes_left nulFree 0
    rw [left_zero] at lexes
    rw [one]
    exact ⟨tokens line, lexes, runcmd_leftmost order (by decide) input succeed⟩
  · obtain ⟨ts, lexes, order⟩ := lab_in_order parsed
    exact ⟨ts, lexes, runcmd_leftmost order wide input succeed⟩

def twice : List Char := "cat <first <second".toList

def twiceRedirs : List (Redir Word) := [reads "first", reads "second"]

theorem twice_lab : Lab.parsecmd twice = .ok (chain twiceRedirs ["cat".toList]) :=
  eq_ok_of_toOption (by decide +kernel)

theorem leftmost_redirection_wins_twice :
    ∃ ts, Lexes lab twice 0 ts ∧
      ((labRunner 1024).runcmd (chain twiceRedirs ["cat".toList]) (console [])).fds =
        leftmost (redirections ts) (console []).fds :=
  (leftmost_redirection_wins twice twiceRedirs ["cat".toList] (console []) (console_fds [] (by decide)) (by simp)).2
    1024 (by decide) twice_lab

/-- `cat <first <second` in both shells: `cat` reads `first`. -/
theorem rightmost_redirection_loses : ∃ cmd buf, Xv6.parsecmd twice = .ok (cmd, buf) ∧
    cmd.strings buf = chain twiceRedirs ["cat".toList] ∧ Lab.parsecmd twice = .ok (chain twiceRedirs ["cat".toList]) ∧
    ∀ shell ∈ [xv6Runner, labRunner 1024],
      (shell.runcmd (chain twiceRedirs ["cat".toList]) (console [])).opened =
          [(reads "second", some 0), (reads "first", some 0)] ∧
        (shell.runcmd (chain twiceRedirs ["cat".toList]) (console [])).execs = some ["cat".toList] ∧
        (shell.runcmd (chain twiceRedirs ["cat".toList]) (console [])).fds 0 = some "first".toList := by
  have parsed : (Xv6.parsecmd twice).toOption.map (fun result => result.1.strings result.2) =
      some (chain twiceRedirs ["cat".toList]) := by decide +kernel
  obtain ⟨⟨cmd, buf⟩, returned, same⟩ := Option.map_eq_some_iff.mp parsed
  refine ⟨cmd, buf, eq_ok_of_toOption returned, same, twice_lab, ?_⟩
  rw [List.forall_mem_cons, List.forall_mem_singleton]
  exact ⟨by decide +kernel, by decide +kernel⟩

end OsLabs.Shell
