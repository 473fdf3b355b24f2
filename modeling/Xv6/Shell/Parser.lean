import Mathlib.Logic.Function.Basic
import Xv6.Sysfile.Calls

/-! # The shell's parser

The tokeniser and the parser of `sh.c`. The line is a NUL-terminated string, and pointers
into it are offsets. The parser reads the line through `gettoken` and `peek` only, so that
it is written over a lexer. -/

namespace Xv6.Shell

open FsProgram (oRdonly oWronly oCreate oTrunc)

/-- `MAXARGS`. -/
def maxArgs : Nat := 10

/-- The characters of a string without escapes. -/
def chars (string : String) : List UInt8 := string.toList.map Char.toUInt8

/-- A string inside the line, from `q` up to `eq`. -/
structure Span where
  q : Nat
  eq : Nat
deriving DecidableEq, Repr

/-- What `gettoken` recognises. It returns `+` for `append` and `a` for `word`, and the span
is read for words only. -/
inductive Token
  | bar
  | lparen
  | rparen
  | semi
  | amp
  | less
  | greater
  | append
  | word (span : Span)
deriving DecidableEq, Repr

/-- The commands. -/
inductive Cmd
  | exec (argv : List Span)
  | redir (cmd : Cmd) (file : Span) (mode fd : Nat)
  | pipe (left right : Cmd)
  | list (left right : Cmd)
  | back (cmd : Cmd)
deriving DecidableEq, Repr

inductive Panic
  | leftovers
  | missingFile
  | parseblock
  | missingParen
  | badToken
  | tooManyArgs
deriving DecidableEq, Repr

/-- Why a call does not return. -/
inductive Halt
  | outOfFuel
  | panic (reason : Panic)
deriving DecidableEq, Repr

/-! ## Tokens -/

def whitespace : List UInt8 := [32, 9, 13, 10, 11]

def symbols : List UInt8 := chars "<|>&;()"

/-- The character at `s`, and NUL at the end. -/
def charAt (text : List UInt8) (s : Nat) : UInt8 := text.getD s 0

/-- `while(s < es && test(*s)) s++`, with `left` characters before `es`. -/
def scan (test : UInt8 → Bool) (text : List UInt8) : (left : Nat) → (s : Nat) → Nat
  | 0, s => s
  | left + 1, s => if test (charAt text s) then scan test text left (s + 1) else s

/-- The loop over whitespace. -/
def skip (text : List UInt8) (s : Nat) : Nat :=
  scan (fun c => c ∈ whitespace) text (text.length - s) s

/-- The loop over a word. -/
def wordEnd (text : List UInt8) (s : Nat) : Nat :=
  scan (fun c => c ∉ whitespace ∧ c ∉ symbols) text (text.length - s) s

/-- The token at `s`, where there is no whitespace, and its end. -/
def tokenAt (text : List UInt8) (s : Nat) : Option Token × Nat :=
  let c := charAt text s
  if c = 0 then (none, s)
  else if c = '|'.toUInt8 then (some .bar, s + 1)
  else if c = '('.toUInt8 then (some .lparen, s + 1)
  else if c = ')'.toUInt8 then (some .rparen, s + 1)
  else if c = ';'.toUInt8 then (some .semi, s + 1)
  else if c = '&'.toUInt8 then (some .amp, s + 1)
  else if c = '<'.toUInt8 then (some .less, s + 1)
  else if c = '>'.toUInt8 then
    if charAt text (s + 1) = '>'.toUInt8 then (some .append, s + 2)
    else (some .greater, s + 1)
  else (some (.word ⟨s, wordEnd text s⟩), wordEnd text s)

def gettoken (text : List UInt8) (s : Nat) : Option Token × Nat :=
  let (ret, eq) := tokenAt text (skip text s)
  (ret, skip text eq)

def peek (text : List UInt8) (toks : List UInt8) (s : Nat) : Bool × Nat :=
  let s := skip text s
  (charAt text s ≠ 0 ∧ charAt text s ∈ toks, s)

/-! ## The parser -/

/-- What the parser reads from. -/
structure Lexer (State : Type) where
  gettoken : State → Option Token × State
  peek : (toks : List UInt8) → State → Bool × State

/-- The line. -/
def lexer (text : List UInt8) : Lexer Nat where
  gettoken := gettoken text
  peek := peek text

/-- `cmd->argv[argc] = q` on the command inside the redirections of `ret`. -/
def Cmd.addArg (arg : Span) : Cmd → Cmd
  | exec argv => exec (argv ++ [arg])
  | redir cmd file mode fd => redir (cmd.addArg arg) file mode fd
  | cmd => cmd

/-- The command for a redirection. Only these three tokens start one. -/
def redircmd (cmd : Cmd) (tok : Option Token) (file : Span) : Cmd :=
  match tok with
  | some .less => .redir cmd file oRdonly 0
  | some .greater => .redir cmd file (oWronly ||| oCreate ||| oTrunc) 1
  | some .append => .redir cmd file (oWronly ||| oCreate) 1
  | _ => cmd

section

variable {State : Type} (lexer : Lexer State)

def parseredirs : (fuel : Nat) → Cmd → State → Except Halt (Cmd × State)
  | 0, _, _ => .error .outOfFuel
  | fuel + 1, cmd, s =>
    match lexer.peek (chars "<>") s with
    | (false, s) => .ok (cmd, s)
    | (true, s) =>
      match lexer.gettoken s with
      | (tok, s) =>
        match lexer.gettoken s with
        | (some (.word file), s) => parseredirs fuel (redircmd cmd tok file) s
        | _ => .error (.panic .missingFile)

/-- The loop of `parseline` over the `&`s. -/
def backLoop : (fuel : Nat) → Cmd → State → Except Halt (Cmd × State)
  | 0, _, _ => .error .outOfFuel
  | fuel + 1, cmd, s =>
    match lexer.peek (chars "&") s with
    | (false, s) => .ok (cmd, s)
    | (true, s) => backLoop fuel (.back cmd) (lexer.gettoken s).2

/-- The loop of `parseexec` over the arguments. -/
def argLoop : (fuel : Nat) → (argc : Nat) → Cmd → State → Except Halt (Cmd × State)
  | 0, _, _, _ => .error .outOfFuel
  | fuel + 1, argc, ret, s =>
    match lexer.peek (chars "|)&;") s with
    | (true, s) => .ok (ret, s)
    | (false, s) =>
      match lexer.gettoken s with
      | (none, s) => .ok (ret, s)
      | (some (.word arg), s) =>
        if argc + 1 ≥ maxArgs then .error (.panic .tooManyArgs)
        else do
          let (ret, s) ← parseredirs lexer fuel (ret.addArg arg) s
          argLoop fuel (argc + 1) ret s
      | _ => .error (.panic .badToken)

mutual

def parseline : (fuel : Nat) → State → Except Halt (Cmd × State)
  | 0, _ => .error .outOfFuel
  | fuel + 1, s => do
      let (cmd, s) ← parsepipe fuel s
      let (cmd, s) ← backLoop lexer fuel cmd s
      match lexer.peek (chars ";") s with
      | (false, s) => .ok (cmd, s)
      | (true, s) =>
        let (right, s) ← parseline fuel (lexer.gettoken s).2
        .ok (.list cmd right, s)

def parsepipe : (fuel : Nat) → State → Except Halt (Cmd × State)
  | 0, _ => .error .outOfFuel
  | fuel + 1, s => do
      let (cmd, s) ← parseexec fuel s
      match lexer.peek (chars "|") s with
      | (false, s) => .ok (cmd, s)
      | (true, s) =>
        let (right, s) ← parsepipe fuel (lexer.gettoken s).2
        .ok (.pipe cmd right, s)

def parseexec : (fuel : Nat) → State → Except Halt (Cmd × State)
  | 0, _ => .error .outOfFuel
  | fuel + 1, s =>
    match lexer.peek (chars "(") s with
    | (true, s) => parseblock fuel s
    | (false, s) => do
        let (ret, s) ← parseredirs lexer fuel (.exec []) s
        argLoop lexer fuel 0 ret s

def parseblock : (fuel : Nat) → State → Except Halt (Cmd × State)
  | 0, _ => .error .outOfFuel
  | fuel + 1, s =>
    match lexer.peek (chars "(") s with
    | (false, _) => .error (.panic .parseblock)
    | (true, s) => do
        let (cmd, s) ← parseline fuel (lexer.gettoken s).2
        match lexer.peek (chars ")") s with
        | (false, _) => .error (.panic .missingParen)
        | (true, s) => parseredirs lexer fuel cmd (lexer.gettoken s).2

end

end

/-! ## Termination of the strings -/

/-- The line in memory, with its NUL. -/
def buffer (text : List UInt8) (s : Nat) : UInt8 := charAt text s

/-- The strings are ended in place. -/
def nulterminate : Cmd → (Nat → UInt8) → Nat → UInt8
  | .exec argv, buf => argv.foldl (fun buf arg => Function.update buf arg.eq 0) buf
  | .redir cmd file _ _, buf => Function.update (nulterminate cmd buf) file.eq 0
  | .pipe left right, buf => nulterminate right (nulterminate left buf)
  | .list left right, buf => nulterminate right (nulterminate left buf)
  | .back cmd, buf => nulterminate cmd buf

/-- The tree, and the memory with the strings that it points to. -/
def parsecmd (fuel : Nat) (text : List UInt8) : Except Halt (Cmd × (Nat → UInt8)) := do
  let (cmd, s) ← parseline (lexer text) fuel 0
  if (peek text [] s).2 ≠ text.length then .error (.panic .leftovers)
  else .ok (cmd, nulterminate cmd (buffer text))

end Xv6.Shell
