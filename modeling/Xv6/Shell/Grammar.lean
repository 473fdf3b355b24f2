import Mathlib.Data.List.Basic
import Mathlib.Logic.Function.Iterate
import Xv6.Shell.Parser

/-! # The shell's grammar

The parser over a list of tokens accepts what the grammar derives and builds the tree of
the derivation. -/

namespace Xv6.Shell

open List (append_assoc append_nil cons_append length_append length_cons)

/-! ## The grammar -/

/-- The operators of redirections. -/
inductive RedirOp
  | less
  | greater
  | append
deriving DecidableEq, Repr

def RedirOp.token : RedirOp → Token
  | less => .less
  | greater => .greater
  | append => .append

/-- `redir ::= ('<' | '>' | '>>') word` -/
structure Redirection where
  op : RedirOp
  file : Span

def Redirection.tokens (redir : Redirection) : List Token :=
  [redir.op.token, .word redir.file]

def redirTokens (redirs : List Redirection) : List Token :=
  redirs.flatMap Redirection.tokens

/-- Redirections around a command, the later ones outside. -/
def Cmd.redirected (cmd : Cmd) (redirs : List Redirection) : Cmd :=
  redirs.foldl (fun cmd redir => redircmd cmd (some redir.op.token) redir.file) cmd

/-- `word redir*` -/
structure Argument where
  word : Span
  redirs : List Redirection

def Argument.tokens (arg : Argument) : List Token := .word arg.word :: redirTokens arg.redirs

inductive Nonterminal
  | line
  | pipe
  | cmd

/-- The trees of the token lists that the grammar derives. -/
inductive Derives : Nonterminal → List Token → Cmd → Prop
  | exec (first : List Redirection) (args : List Argument) (few : args.length < maxArgs) :
      Derives .cmd (redirTokens first ++ args.flatMap Argument.tokens)
        ((Cmd.exec (args.map Argument.word)).redirected
          (first ++ args.flatMap Argument.redirs))
  | block {ts : List Token} {cmd : Cmd} (redirs : List Redirection)
      (line : Derives .line ts cmd) :
      Derives .cmd (.lparen :: (ts ++ .rparen :: redirTokens redirs)) (cmd.redirected redirs)
  | single {ts : List Token} {cmd : Cmd} (left : Derives .cmd ts cmd) : Derives .pipe ts cmd
  | pipe {ts ts' : List Token} {cmd cmd' : Cmd} (left : Derives .cmd ts cmd)
      (right : Derives .pipe ts' cmd') :
      Derives .pipe (ts ++ .bar :: ts') (.pipe cmd cmd')
  | last {ts : List Token} {cmd : Cmd} (n : Nat) (left : Derives .pipe ts cmd) :
      Derives .line (ts ++ List.replicate n .amp) (Cmd.back^[n] cmd)
  | more {ts ts' : List Token} {cmd cmd' : Cmd} (n : Nat) (left : Derives .pipe ts cmd)
      (right : Derives .line ts' cmd') :
      Derives .line (ts ++ (List.replicate n .amp ++ .semi :: ts'))
        (.list (Cmd.back^[n] cmd) cmd')

/-! ## The parser over tokens -/

/-- Whether the token's first character is one of `toks`, which are symbols. -/
def Token.startsIn (toks : List UInt8) : Token → Bool
  | bar => '|'.toUInt8 ∈ toks
  | lparen => '('.toUInt8 ∈ toks
  | rparen => ')'.toUInt8 ∈ toks
  | semi => ';'.toUInt8 ∈ toks
  | amp => '&'.toUInt8 ∈ toks
  | less => '<'.toUInt8 ∈ toks
  | greater => '>'.toUInt8 ∈ toks
  | append => '>'.toUInt8 ∈ toks
  | word _ => false

/-- Whether the next token starts with one of `toks`. -/
def nextIn (toks : List UInt8) : List Token → Bool
  | [] => false
  | token :: _ => token.startsIn toks

/-- A list of tokens as the parser's input. -/
def tokenLexer : Lexer (List Token) where
  gettoken ts := (ts.head?, ts.tail)
  peek toks ts := (nextIn toks ts, ts)

/-- The outcome `result` on the tokens `ts`: a tree for the tokens used, or a panic. -/
def Parsed (Tree : List Token → Cmd → Prop) (ts : List Token) :
    Except Halt (Cmd × List Token) → Prop
  | .ok (cmd, rest) => ∃ used, ts = used ++ rest ∧ Tree used cmd
  | .error (.panic _) => True
  | .error .outOfFuel => False

namespace Parsed

variable {Tree Tree' : List Token → Cmd → Prop} {ts : List Token}
  {out : Except Halt (Cmd × List Token)}

theorem bind {next : Cmd × List Token → Except Halt (Cmd × List Token)} (fst : Parsed Tree ts out)
    (then_ : ∀ used rest cmd, ts = used ++ rest → Tree used cmd →
    Parsed (fun used' cmd' => Tree' (used ++ used') cmd') rest (next (cmd, rest))) :
    Parsed Tree' ts (out >>= next) := by
  match out, fst with
  | .ok (cmd, rest), ⟨used, split, tree⟩ =>
    have after := then_ used rest cmd split tree
    change Parsed Tree' ts (next (cmd, rest))
    match next (cmd, rest), after with
    | .ok (cmd', rest'), ⟨used', split', tree'⟩ =>
      exact ⟨used ++ used', by rw [split, split', append_assoc], tree'⟩
    | .error (.panic _), _ => exact trivial
  | .error (.panic _), _ => exact trivial

theorem cons {token : Token} (after : Parsed (fun used cmd => Tree (token :: used) cmd) ts out) :
    Parsed Tree (token :: ts) out := by
  match out, after with
  | .ok (cmd, rest), ⟨used, split, tree⟩ =>
    exact ⟨token :: used, by rw [split, cons_append], tree⟩
  | .error (.panic _), _ => exact trivial

theorem mono (parsed : Parsed Tree ts out)
    (weaker : ∀ used cmd, Tree used cmd → Tree' used cmd) : Parsed Tree' ts out := by
  match out, parsed with
  | .ok (cmd, rest), ⟨used, split, tree⟩ => exact ⟨used, split, weaker used cmd tree⟩
  | .error (.panic _), _ => exact trivial

theorem stop {cmd : Cmd} (tree : Tree [] cmd) : Parsed Tree ts (.ok (cmd, ts)) := ⟨[], rfl, tree⟩

end Parsed

/-! ## Soundness

Enough fuel is a multiple of the number of tokens: between two tokens the parser makes at
most four calls. -/

theorem peek_eq (toks : List UInt8) (ts : List Token) :
    tokenLexer.peek toks ts = (nextIn toks ts, ts) := rfl

theorem nextIn_cons {toks : List UInt8} {ts : List Token} (hit : nextIn toks ts = true) :
    ∃ token rest, ts = token :: rest ∧ token.startsIn toks = true := by
  match ts, hit with
  | token :: rest, hit => exact ⟨token, rest, rfl, hit⟩

theorem startsIn_amp {token : Token} (hit : token.startsIn (chars "&") = true) :
    token = .amp := by
  match token, hit with
  | .amp, _ => rfl

theorem startsIn_semi {token : Token} (hit : token.startsIn (chars ";") = true) :
    token = .semi := by
  match token, hit with
  | .semi, _ => rfl

theorem startsIn_bar {token : Token} (hit : token.startsIn (chars "|") = true) :
    token = .bar := by
  match token, hit with
  | .bar, _ => rfl

theorem startsIn_lparen {token : Token} (hit : token.startsIn (chars "(") = true) :
    token = .lparen := by
  match token, hit with
  | .lparen, _ => rfl

theorem startsIn_rparen {token : Token} (hit : token.startsIn (chars ")") = true) :
    token = .rparen := by
  match token, hit with
  | .rparen, _ => rfl

theorem startsIn_redir {token : Token} (hit : token.startsIn (chars "<>") = true) :
    ∃ op : RedirOp, token = op.token := by
  match token, hit with
  | .less, _ => exact ⟨.less, rfl⟩
  | .greater, _ => exact ⟨.greater, rfl⟩
  | .append, _ => exact ⟨.append, rfl⟩

theorem parseredirs_sound {fuel : Nat} {ts : List Token} (enough : ts.length < fuel)
    (cmd : Cmd) : Parsed (fun used cmd' => ∃ redirs, used = redirTokens redirs ∧
    cmd' = cmd.redirected redirs) ts (parseredirs tokenLexer fuel cmd ts) := by
  induction fuel generalizing ts cmd with
  | zero => exact absurd enough (Nat.not_lt_zero _)
  | succ fuel ih =>
    rw [parseredirs, peek_eq]
    cases hit : nextIn (chars "<>") ts with
    | false => exact .stop ⟨[], rfl, rfl⟩
    | true =>
      obtain ⟨token, rest, rfl, starts⟩ := nextIn_cons hit
      obtain ⟨op, rfl⟩ := startsIn_redir starts
      match rest with
      | .word file :: rest =>
        have shorter : rest.length < fuel := by
          rw [length_cons, length_cons] at enough
          omega
        refine Parsed.cons (Parsed.cons ((ih shorter _).mono ?_))
        rintro used cmd' ⟨redirs, rfl, rfl⟩
        exact ⟨⟨op, file⟩ :: redirs, rfl, rfl⟩
      | [] | .bar :: _ | .lparen :: _ | .rparen :: _ | .semi :: _ | .amp :: _ | .less :: _
      | .greater :: _ | .append :: _ => exact trivial

theorem backLoop_sound {fuel : Nat} {ts : List Token} (enough : ts.length < fuel)
    (cmd : Cmd) : Parsed (fun used cmd' => ∃ n, used = List.replicate n .amp ∧
    cmd' = Cmd.back^[n] cmd) ts (backLoop tokenLexer fuel cmd ts) := by
  induction fuel generalizing ts cmd with
  | zero => exact absurd enough (Nat.not_lt_zero _)
  | succ fuel ih =>
    rw [backLoop, peek_eq]
    cases hit : nextIn (chars "&") ts with
    | false => exact .stop ⟨0, rfl, rfl⟩
    | true =>
      obtain ⟨token, rest, rfl, starts⟩ := nextIn_cons hit
      obtain rfl := startsIn_amp starts
      refine Parsed.cons ((ih (Nat.lt_of_succ_lt_succ enough) _).mono ?_)
      rintro used cmd' ⟨n, rfl, rfl⟩
      exact ⟨n + 1, rfl, rfl⟩

theorem Cmd.redirected_append (cmd : Cmd) (fst later : List Redirection) :
    (cmd.redirected fst).redirected later = cmd.redirected (fst ++ later) := by
  rw [redirected, redirected, redirected, List.foldl_append]

theorem Cmd.addArg_redirected (cmd : Cmd) (arg : Span) (redirs : List Redirection) :
    (cmd.redirected redirs).addArg arg = (cmd.addArg arg).redirected redirs := by
  induction redirs generalizing cmd with
  | nil => rfl
  | cons redir redirs ih =>
    have isIn : (redircmd cmd (some redir.op.token) redir.file).addArg arg =
        redircmd (cmd.addArg arg) (some redir.op.token) redir.file := by
      cases redir.op <;> rfl
    exact (ih _).trans (congrArg (·.redirected redirs) isIn)

/-- The command with the arguments `args` after those there are. -/
def withArgs (argv : List Span) (first : List Redirection) (args : List Argument) : Cmd :=
  (Cmd.exec (argv ++ args.map Argument.word)).redirected
    (first ++ args.flatMap Argument.redirs)

theorem withArgs_nil (argv : List Span) (first : List Redirection) :
    withArgs argv first [] = (Cmd.exec argv).redirected first := by
  rw [withArgs, List.map_nil, List.flatMap_nil, append_nil, append_nil]

theorem withArgs_cons (argv : List Span)
    (fst : List Redirection) (arg : Argument) (args : List Argument) :
    withArgs argv fst (arg :: args) = withArgs (argv ++ [arg.word]) (fst ++ arg.redirs) args := by
  rw [withArgs, withArgs, List.map_cons, List.flatMap_cons, append_assoc, append_assoc]
  rfl

theorem exec_addArg (argv : List Span) (fst later : List Redirection)
    (arg : Span) : (((Cmd.exec argv).redirected fst).addArg arg).redirected
    later = (Cmd.exec (argv ++ [arg])).redirected (fst ++ later) := by
  rw [Cmd.addArg_redirected, Cmd.redirected_append]
  rfl

theorem argLoop_word {fuel argc : Nat} (few : ¬argc + 1 ≥ maxArgs) (ret : Cmd) (arg : Span)
    (ts : List Token) : argLoop tokenLexer (fuel + 1) argc ret (.word arg :: ts) = (do
      let (ret, s) ← parseredirs tokenLexer fuel (ret.addArg arg) ts
      argLoop tokenLexer fuel (argc + 1) ret s) := by
  rw [argLoop]
  exact if_neg few

theorem argLoop_sound {fuel argc : Nat} {ts : List Token} (enough : ts.length < fuel)
    (few : argc < maxArgs) (argv : List Span) (fst : List Redirection) :
    Parsed (fun used cmd => ∃ args, used = args.flatMap Argument.tokens ∧
        argc + args.length < maxArgs ∧ cmd = withArgs argv fst args)
      ts (argLoop tokenLexer fuel argc ((Cmd.exec argv).redirected fst) ts) := by
  induction fuel generalizing ts argc argv fst with
  | zero => exact absurd enough (Nat.not_lt_zero _)
  | succ fuel ih =>
    rw [argLoop, peek_eq]
    cases hit : nextIn (chars "|)&;") ts with
    | true => exact .stop ⟨[], rfl, few, (withArgs_nil ..).symm⟩
    | false =>
      match ts with
      | [] => exact .stop ⟨[], rfl, few, (withArgs_nil ..).symm⟩
      | .word arg :: rest =>
        have shorter : rest.length < fuel := Nat.lt_of_succ_lt_succ enough
        by_cases many : argc + 1 ≥ maxArgs
        · simp only [tokenLexer, List.head?_cons, if_pos many]
          exact trivial
        change Parsed _ _ (argLoop tokenLexer (fuel + 1) argc _ (.word arg :: rest))
        rw [argLoop_word many]
        refine Parsed.cons (Parsed.bind (parseredirs_sound shorter _) ?_)
        rintro used rest' cmd split ⟨redirs, rfl, rfl⟩
        dsimp only
        rw [exec_addArg]
        have shorter' : rest'.length < fuel := by
          rw [split, length_append] at shorter
          omega
        refine (ih shorter' (Nat.lt_of_not_ge many) _ _).mono ?_
        rintro used' cmd' ⟨args, rfl, fewer, rfl⟩
        refine ⟨⟨arg, redirs⟩ :: args, rfl, ?_, (withArgs_cons argv fst ⟨arg, redirs⟩ args).symm⟩
        rw [length_cons]
        omega
      | .bar :: _ | .lparen :: _ | .rparen :: _ | .semi :: _ | .amp :: _ | .less :: _
      | .greater :: _ | .append :: _ => exact trivial

theorem parser_sound (fuel : Nat) : (∀ ts : List Token, 4 * ts.length + 4 ≤ fuel →
      Parsed (Derives .line) ts (parseline tokenLexer fuel ts)) ∧
    (∀ ts : List Token, 4 * ts.length + 3 ≤ fuel →
      Parsed (Derives .pipe) ts (parsepipe tokenLexer fuel ts)) ∧
    (∀ ts : List Token, 4 * ts.length + 2 ≤ fuel →
      Parsed (Derives .cmd) ts (parseexec tokenLexer fuel ts)) ∧
    (∀ ts : List Token, 4 * ts.length + 1 ≤ fuel →
      Parsed (Derives .cmd) ts (parseblock tokenLexer fuel ts)) := by
  induction fuel with
  | zero =>
    refine ⟨?_, ?_, ?_, ?_⟩
    all_goals
      intro ts enough
      omega
  | succ fuel ih =>
    obtain ⟨line, pipe, exec, block⟩ := ih
    refine ⟨?_, ?_, ?_, ?_⟩
    · intro ts enough
      rw [parseline]
      refine (pipe ts (by omega)).bind ?_
      intro used rest cmd split left
      rw [split, length_append] at enough
      refine (backLoop_sound (by omega) cmd).bind ?_
      rintro amps rest' cmd' split' ⟨n, rfl, rfl⟩
      rw [split', length_append] at enough
      dsimp only
      rw [peek_eq]
      cases hit : nextIn (chars ";") rest' with
      | false =>
        refine .stop ?_
        rw [append_nil]
        exact .last n left
      | true =>
        obtain ⟨token, later, rfl, starts⟩ := nextIn_cons hit
        obtain rfl := startsIn_semi starts
        rw [length_cons] at enough
        refine Parsed.cons ((line later (by omega)).bind ?_)
        intro used' _ right _ derived
        refine .stop ?_
        rw [append_nil]
        exact .more n left derived
    · intro ts enough
      rw [parsepipe]
      refine (exec ts (by omega)).bind ?_
      intro used rest cmd split left
      rw [split, length_append] at enough
      dsimp only
      rw [peek_eq]
      cases hit : nextIn (chars "|") rest with
      | false =>
        refine .stop ?_
        rw [append_nil]
        exact .single left
      | true =>
        obtain ⟨token, later, rfl, starts⟩ := nextIn_cons hit
        obtain rfl := startsIn_bar starts
        rw [length_cons] at enough
        refine Parsed.cons ((pipe later (by omega)).bind ?_)
        intro used' _ right _ derived
        refine .stop ?_
        rw [append_nil]
        exact .pipe left derived
    · intro ts enough
      rw [parseexec, peek_eq]
      cases hit : nextIn (chars "(") ts with
      | true => exact block ts (by omega)
      | false =>
        refine (parseredirs_sound (by omega) _).bind ?_
        rintro used rest cmd split ⟨fst, rfl, rfl⟩
        rw [split, length_append] at enough
        refine (argLoop_sound (by omega) (by decide) [] fst).mono ?_
        rintro used' cmd' ⟨args, rfl, few, rfl⟩
        rw [zero_add] at few
        exact .exec fst args few
    · intro ts enough
      rw [parseblock, peek_eq]
      cases hit : nextIn (chars "(") ts with
      | false => exact trivial
      | true =>
        obtain ⟨token, later, rfl, starts⟩ := nextIn_cons hit
        obtain rfl := startsIn_lparen starts
        rw [length_cons] at enough
        refine Parsed.cons ((line later (by omega)).bind ?_)
        intro used rest cmd split derived
        rw [split, length_append] at enough
        dsimp only
        rw [peek_eq]
        cases closed : nextIn (chars ")") rest with
        | false => exact trivial
        | true =>
          obtain ⟨token, after, rfl, starts'⟩ := nextIn_cons closed
          obtain rfl := startsIn_rparen starts'
          rw [length_cons] at enough
          refine Parsed.cons ((parseredirs_sound (by omega) cmd).mono ?_)
          rintro used' cmd' ⟨redirs, rfl, rfl⟩
          exact .block redirs derived

/-! ## Completeness

A derivation is found when the token after it cannot go on with it. -/

/-- The tokens that may follow, by their first characters. -/
def Nonterminal.follow : Nonterminal → List UInt8
  | line => chars ")"
  | pipe => chars ")&;"
  | cmd => chars "|)&;"

def Ended (nonterminal : Nonterminal) (rest : List Token) : Prop :=
  rest = [] ∨ nextIn nonterminal.follow rest = true

theorem among {toks toks' : List UInt8} (all : (toks.all fun c => c ∈ toks') = true) :
    ∀ c ∈ toks, c ∈ toks' := fun c isIn => of_decide_eq_true (List.all_eq_true.mp all c isIn)

theorem apart {toks toks' : List UInt8} (all : (toks.all fun c => c ∉ toks') = true) :
    ∀ c ∈ toks, c ∉ toks' := fun c isIn => of_decide_eq_true (List.all_eq_true.mp all c isIn)

theorem startsIn_mono {toks toks' : List UInt8} {token : Token} (included : ∀ c ∈ toks, c ∈ toks')
    (hit : token.startsIn toks = true) : token.startsIn toks' = true := by
  cases token with
  | word span => cases hit
  | _ => exact decide_eq_true (included _ (of_decide_eq_true hit))

theorem startsIn_apart {toks toks' : List UInt8} {token : Token} (apart : ∀ c ∈ toks, c ∉ toks')
    (hit : token.startsIn toks = true) : token.startsIn toks' = false := by
  cases token with
  | word span => rfl
  | _ => exact decide_eq_false (apart _ (of_decide_eq_true hit))

theorem Ended.not_next {nonterminal : Nonterminal} {rest : List Token} {toks : List UInt8}
    (ended : Ended nonterminal rest)
    (apart : ∀ c ∈ nonterminal.follow, c ∉ toks) : nextIn toks rest = false := by
  rcases ended with rfl | found
  · rfl
  · obtain ⟨token, later, rfl, starts⟩ := nextIn_cons found
    exact startsIn_apart apart starts

theorem Ended.weaken {strong weak : Nonterminal} {rest : List Token} (ended : Ended strong rest)
    (included : ∀ c ∈ strong.follow, c ∈ weak.follow) : Ended weak rest := by
  rcases ended with rfl | found
  · exact .inl rfl
  · obtain ⟨token, later, rfl, starts⟩ := nextIn_cons found
    exact .inr (startsIn_mono included starts)

theorem parseredirs_complete {fuel : Nat} {rest : List Token} (cmd : Cmd)
    (redirs : List Redirection) (ended : nextIn (chars "<>") rest = false)
    (enough : (redirTokens redirs ++ rest).length < fuel) :
    parseredirs tokenLexer fuel cmd (redirTokens redirs ++ rest) =
    .ok (cmd.redirected redirs, rest) := by
  obtain ⟨fuel, rfl⟩ := Nat.exists_eq_succ_of_ne_zero (Nat.ne_zero_of_lt enough)
  induction redirs generalizing fuel cmd with
  | nil =>
    have nothing : redirTokens [] ++ rest = rest := rfl
    rw [nothing, parseredirs, peek_eq, ended]
    rfl
  | cons redir redirs ih =>
    have hit : nextIn (chars "<>") (redirTokens (redir :: redirs) ++ rest) = true := by
      change redir.op.token.startsIn _ = true
      cases redir.op <;> rfl
    rw [parseredirs, peek_eq, hit]
    have shorter : (redirTokens redirs ++ rest).length < fuel :=
      Nat.lt_of_succ_lt (Nat.lt_of_succ_lt_succ enough)
    obtain ⟨fuel, rfl⟩ := Nat.exists_eq_succ_of_ne_zero (Nat.ne_zero_of_lt shorter)
    exact ih _ fuel shorter

theorem backLoop_complete {fuel n : Nat} {rest : List Token} (cmd : Cmd)
    (ended : nextIn (chars "&") rest = false)
    (enough : (List.replicate n Token.amp ++ rest).length < fuel) :
    backLoop tokenLexer fuel cmd (List.replicate n .amp ++ rest) =
    .ok (Cmd.back^[n] cmd, rest) := by
  obtain ⟨fuel, rfl⟩ := Nat.exists_eq_succ_of_ne_zero (Nat.ne_zero_of_lt enough)
  induction n generalizing fuel cmd with
  | zero =>
    rw [List.replicate_zero, List.nil_append, backLoop, peek_eq, ended]
    rfl
  | succ n ih =>
    have shorter : (List.replicate n Token.amp ++ rest).length < fuel :=
      Nat.lt_of_succ_lt_succ enough
    obtain ⟨fuel, rfl⟩ := Nat.exists_eq_succ_of_ne_zero (Nat.ne_zero_of_lt shorter)
    exact ih _ fuel shorter

theorem args_not_redir {args : List Argument} {rest : List Token} (ended : Ended .cmd rest) :
    nextIn (chars "<>") (args.flatMap Argument.tokens ++ rest) = false := by
  cases args with
  | nil => exact ended.not_next (apart rfl)
  | cons arg args => rfl

theorem argLoop_complete {fuel argc : Nat} {rest : List Token} (argv : List Span)
    (first : List Redirection) (args : List Argument) (few : argc + args.length < maxArgs)
    (ended : Ended .cmd rest) (enough : (args.flatMap Argument.tokens ++ rest).length < fuel) :
    argLoop tokenLexer fuel argc ((Cmd.exec argv).redirected first)
    (args.flatMap Argument.tokens ++ rest) = .ok (withArgs argv first args, rest) := by
  obtain ⟨fuel, rfl⟩ := Nat.exists_eq_succ_of_ne_zero (Nat.ne_zero_of_lt enough)
  induction args generalizing fuel argc argv first with
  | nil =>
    rw [List.flatMap_nil, List.nil_append, withArgs_nil, argLoop, peek_eq]
    rcases ended with rfl | found
    · rfl
    · change nextIn (chars "|)&;") rest = true at found
      rw [found]
  | cons arg args ih =>
    have fewer : ¬argc + 1 ≥ maxArgs := by
      rw [length_cons] at few
      omega
    rw [List.flatMap_cons, append_assoc] at enough ⊢
    have shorter : (redirTokens arg.redirs ++
      (args.flatMap Argument.tokens ++ rest)).length < fuel := Nat.lt_of_succ_lt_succ enough
    have shorter' : (args.flatMap Argument.tokens ++ rest).length < fuel := by
      rw [length_append] at shorter
      omega
    rw [Argument.tokens, cons_append, argLoop_word fewer,
      parseredirs_complete _ _ (args_not_redir ended) shorter, exec_addArg, withArgs_cons]
    obtain ⟨fuel, rfl⟩ := Nat.exists_eq_succ_of_ne_zero (Nat.ne_zero_of_lt shorter')
    refine ih _ _ ?_ fuel shorter'
    rw [length_cons] at few
    omega

/-- The function for each nonterminal, and the fuel that it needs besides that for the
tokens. -/
def Nonterminal.parser : Nonterminal → Nat → List Token → Except Halt (Cmd × List Token)
  | line => parseline tokenLexer
  | pipe => parsepipe tokenLexer
  | cmd => parseexec tokenLexer

def Nonterminal.calls : Nonterminal → Nat
  | line => 4
  | pipe => 3
  | cmd => 2

section

variable {fuel : Nat} {ts rest later : List Token} {cmd cmd' : Cmd}

theorem parsepipe_single (left : parseexec tokenLexer fuel ts = .ok (cmd, rest))
    (ended : nextIn (chars "|") rest = false) :
    parsepipe tokenLexer (fuel + 1) ts = .ok (cmd, rest) := by
  simp only [parsepipe, left, bind, Except.bind, peek_eq, ended]

theorem parsepipe_bar (left : parseexec tokenLexer fuel ts = .ok (cmd, .bar :: later))
    (right : parsepipe tokenLexer fuel later = .ok (cmd', rest)) :
    parsepipe tokenLexer (fuel + 1) ts = .ok (.pipe cmd cmd', rest) := by
  have hit : nextIn (chars "|") (.bar :: later) = true := rfl
  have taken : (tokenLexer.gettoken (.bar :: later)).2 = later := rfl
  simp only [parsepipe, left, bind, Except.bind, peek_eq, hit, taken, right]

theorem parseline_last {after : List Token} {back : Cmd}
    (left : parsepipe tokenLexer fuel ts = .ok (cmd, after))
    (backs : backLoop tokenLexer fuel cmd after = .ok (back, rest))
    (ended : nextIn (chars ";") rest = false) :
    parseline tokenLexer (fuel + 1) ts = .ok (back, rest) := by
  simp only [parseline, left, backs, bind, Except.bind, peek_eq, ended]

theorem parseline_semi {after : List Token} {back : Cmd}
    (left : parsepipe tokenLexer fuel ts = .ok (cmd, after))
    (backs : backLoop tokenLexer fuel cmd after = .ok (back, .semi :: later))
    (right : parseline tokenLexer fuel later = .ok (cmd', rest)) :
    parseline tokenLexer (fuel + 1) ts = .ok (.list back cmd', rest) := by
  have hit : nextIn (chars ";") (.semi :: later) = true := rfl
  have taken : (tokenLexer.gettoken (.semi :: later)).2 = later := rfl
  simp only [parseline, left, backs, bind, Except.bind, peek_eq, hit, taken, right]

theorem parseexec_block (line : parseline tokenLexer fuel ts = .ok (cmd, .rparen :: later))
    (redirs : parseredirs tokenLexer fuel cmd later = .ok (cmd', rest)) :
    parseexec tokenLexer (fuel + 2) (.lparen :: ts) = .ok (cmd', rest) := by
  have hit : nextIn (chars "(") (.lparen :: ts) = true := rfl
  have taken : (tokenLexer.gettoken (.lparen :: ts)).2 = ts := rfl
  have closed : nextIn (chars ")") (.rparen :: later) = true := rfl
  have taken' : (tokenLexer.gettoken (.rparen :: later)).2 = later := rfl
  simp only [parseexec, parseblock, peek_eq, hit, taken, line, bind, Except.bind, closed,
    taken', redirs]

theorem parseexec_simple {ret : Cmd} (not_paren : nextIn (chars "(") ts = false)
    (redirs : parseredirs tokenLexer fuel (.exec []) ts = .ok (ret, later))
    (args : argLoop tokenLexer fuel 0 ret later = .ok (cmd, rest)) :
    parseexec tokenLexer (fuel + 1) ts = .ok (cmd, rest) := by
  simp only [parseexec, peek_eq, not_paren, redirs, bind, Except.bind, args]

end

theorem simple_not_paren {fst : List Redirection} {args : List Argument}
    {rest : List Token} (ended : Ended .cmd rest) :
    nextIn (chars "(") (redirTokens fst ++ (args.flatMap Argument.tokens ++ rest)) = false := by
  cases fst with
  | nil =>
    cases args with
    | nil => exact ended.not_next (apart rfl)
    | cons arg args => rfl
  | cons redir fst =>
    change redir.op.token.startsIn _ = false
    cases redir.op <;> rfl

theorem parser_complete {nonterminal : Nonterminal} {ts : List Token} {cmd : Cmd}
    (derived : Derives nonterminal ts cmd) {fuel : Nat} {rest : List Token}
    (ended : Ended nonterminal rest) (enough : 4 * (ts ++ rest).length + nonterminal.calls ≤ fuel) :
    nonterminal.parser fuel (ts ++ rest) = .ok (cmd, rest) := by
  induction derived generalizing fuel rest with
  | exec fst args few =>
    dsimp only [Nonterminal.calls] at enough
    obtain ⟨fuel, rfl⟩ : ∃ less, fuel = less + 1 := ⟨fuel - 1, by omega⟩
    rw [append_assoc] at enough ⊢
    have shorter : (args.flatMap Argument.tokens ++ rest).length < fuel := by
      rw [length_append] at enough
      omega
    refine parseexec_simple (simple_not_paren ended)
      (parseredirs_complete _ _ (args_not_redir ended) (by omega))
      (argLoop_complete [] fst args ?_ ended shorter)
    rwa [zero_add]
  | @block ts cmd redirs line ih =>
    dsimp only [Nonterminal.calls] at enough ih
    obtain ⟨fuel, rfl⟩ : ∃ less, fuel = less + 2 := ⟨fuel - 2, by omega⟩
    rw [cons_append, append_assoc, cons_append] at enough ⊢
    rw [length_cons] at enough
    refine parseexec_block (ih (.inr rfl) (by omega))
      (parseredirs_complete _ _ (ended.not_next (apart rfl)) ?_)
    rw [length_append, length_cons] at enough
    omega
  | single left ih =>
    dsimp only [Nonterminal.calls] at enough ih
    obtain ⟨fuel, rfl⟩ : ∃ less, fuel = less + 1 := ⟨fuel - 1, by omega⟩
    exact parsepipe_single (ih (ended.weaken (among rfl)) (by omega)) (ended.not_next (apart rfl))
  | pipe left right left_ih right_ih =>
    dsimp only [Nonterminal.calls] at enough left_ih right_ih
    obtain ⟨fuel, rfl⟩ : ∃ less, fuel = less + 1 := ⟨fuel - 1, by omega⟩
    rw [append_assoc, cons_append] at enough ⊢
    refine parsepipe_bar (left_ih (.inr rfl) (by omega)) (right_ih ended ?_)
    rw [length_append, length_cons] at enough
    omega
  | last n left ih =>
    dsimp only [Nonterminal.calls] at enough ih
    obtain ⟨fuel, rfl⟩ : ∃ less, fuel = less + 1 := ⟨fuel - 1, by omega⟩
    rw [append_assoc] at enough ⊢
    have follows : Ended .pipe (List.replicate n Token.amp ++ rest) := by
      cases n with
      | zero => exact ended.weaken (among rfl)
      | succ n => exact .inr rfl
    refine parseline_last (ih follows (by omega))
      (backLoop_complete _ (ended.not_next (apart rfl)) ?_) (ended.not_next (apart rfl))
    rw [length_append] at enough
    omega
  | more n left right left_ih right_ih =>
    dsimp only [Nonterminal.calls] at enough left_ih right_ih
    obtain ⟨fuel, rfl⟩ : ∃ less, fuel = less + 1 := ⟨fuel - 1, by omega⟩
    rw [append_assoc, append_assoc, cons_append] at enough ⊢
    have follows {later : List Token} :
        Ended .pipe (List.replicate n Token.amp ++ .semi :: later) := by
      cases n with
      | zero | succ n => exact .inr rfl
    refine parseline_semi (left_ih follows (by omega))
      (backLoop_complete _ rfl ?_) (right_ih ended ?_)
    · rw [length_append] at enough
      omega
    · rw [length_append, length_append, length_cons] at enough
      omega

end Xv6.Shell
