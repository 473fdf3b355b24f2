import Mathlib.Data.List.Basic
import Mathlib.Logic.Function.Basic

/-! # The console

The input side of `console.c`. Characters go into a circular buffer with three indices:
`r` where readers take, `w` up to where characters are committed, `e` where the line that
is being edited ends. -/

namespace Xv6

open Function

/-- `INPUT_BUF`. -/
def inputBuf : Nat := 128

/-- `C(x)` of a letter is the letter's control character. -/
def ctrlD : UInt8 := 4
def ctrlH : UInt8 := 8
def ctrlP : UInt8 := 16
def ctrlU : UInt8 := 21
def delete : UInt8 := 127
def newline : UInt8 := 10
def carriageReturn : UInt8 := 13

/-- `cons`, without its lock. -/
structure Cons where
  buf : Nat → UInt8
  r : BitVec 32
  w : BitVec 32
  e : BitVec 32

namespace Cons

/-- `cons.buf[index % INPUT_BUF]`. -/
def charAt (cons : Cons) (index : BitVec 32) : UInt8 := cons.buf (index.toNat % inputBuf)

/-- The loop for kill line. -/
def killLine : (fuel : Nat) → Cons → Cons
  | 0, cons => cons
  | fuel + 1, cons =>
    if cons.e ≠ cons.w ∧ cons.charAt (cons.e - 1) ≠ newline then
      killLine fuel { cons with e := cons.e - 1 }
    else cons

/-- The input interrupt handler, but for what it echoes. -/
def consoleintr (c : UInt8) (cons : Cons) : Cons :=
  if c = ctrlP then cons
  else if c = ctrlU then killLine (cons.e - cons.w).toNat cons
  else if c = ctrlH ∨ c = delete then
    if cons.e ≠ cons.w then { cons with e := cons.e - 1 } else cons
  else if c ≠ 0 ∧ (cons.e - cons.r).toNat < inputBuf then
    let c := if c = carriageReturn then newline else c
    let cons := { cons with
      buf := update cons.buf (cons.e.toNat % inputBuf) c
      e := cons.e + 1 }
    if c = newline ∨ c = ctrlD ∨ cons.e = cons.r + .ofNat 32 inputBuf then
      { cons with w := cons.e }
    else cons
  else cons

/-- How a reader leaves the lock: it returns what it has, fails because its process has
been killed, or sleeps with `n` bytes to go. -/
inductive Leaves
  | returns
  | fails
  | sleeps (n : Nat)

/-- The loop of `consoleread`, from where `n` of the `target` bytes are missing until the
lock is given up. `bytes` are the ones copied out, and `taken` the characters that are
taken out of the buffer for good. -/
def readLoop (killed : Bool) (target : Nat) : (n : Nat) → (bytes taken : List UInt8) →
    Cons → Leaves × List UInt8 × List UInt8 × Cons
  | 0, bytes, taken, cons => (.returns, bytes, taken, cons)
  | n + 1, bytes, taken, cons =>
    if cons.r = cons.w then (if killed then .fails else .sleeps (n + 1), bytes, taken, cons)
    else
      let c := cons.charAt cons.r
      let cons := { cons with r := cons.r + 1 }
      if c = ctrlD then
        if n + 1 < target then (.returns, bytes, taken, { cons with r := cons.r - 1 })
        else (.returns, bytes, taken ++ [c], cons)
      else if c = newline then (.returns, bytes ++ [c], taken ++ [c], cons)
      else readLoop killed target n (bytes ++ [c]) (taken ++ [c]) cons

end Cons

/-! ## Line editing

What the handler does to the characters, without indices: a line is typed and edited, and
then committed as a whole. -/

/-- The committed characters since the start, and the line that is being edited. -/
structure Line where
  committed : List UInt8
  typed : List UInt8

namespace Line

/-- The effect of an input character when `taken` characters have been read. -/
def input (taken : Nat) (c : UInt8) (line : Line) : Line :=
  if c = ctrlP then line
  else if c = ctrlU then { line with typed := [] }
  else if c = ctrlH ∨ c = delete then { line with typed := line.typed.dropLast }
  else if c ≠ 0 ∧ line.committed.length + line.typed.length < taken + inputBuf then
    let c := if c = carriageReturn then newline else c
    let typed := line.typed ++ [c]
    if c = newline ∨ c = ctrlD ∨
        line.committed.length + typed.length = taken + inputBuf then
      { committed := line.committed ++ typed, typed := [] }
    else { line with typed := typed }
  else line

end Line

/-! ## Readers -/

/-- A call of `consoleread` that sleeps. -/
structure Reading where
  request : Int
  n : Nat
  bytes : List UInt8
  taken : List UInt8

/-- A call of `consoleread` that is over: what it copied out, the characters it took, the
number of characters that had been taken by then, and whether it failed. -/
structure ReadResult (Reader : Type) where
  reader : Reader
  request : Int
  bytes : List UInt8
  taken : List UInt8
  upTo : Nat
  failed : Bool

/-- The console with its readers. Besides the state of the code there are the `line` that
the input makes up, the `history` of the characters in the order in which readers took
them, and the `results` of the calls that are over. -/
structure Console (Reader : Type) where
  cons : Cons
  killed : Reader → Bool
  readers : Reader → Option Reading
  line : Line
  history : List (Reader × UInt8)
  results : List (ReadResult Reader)

/-- An input character, a call, a sleeping reader that gets the lock again, or a kill. -/
inductive ConsoleEvent (Reader : Type)
  | intr (c : UInt8)
  | read (p : Reader) (n : Int)
  | resume (p : Reader)
  | kill (p : Reader)

namespace Console

variable {Reader : Type} [DecidableEq Reader]

/-- The reader `p` has taken the characters `more`. -/
def took (p : Reader) (more : List UInt8) (cons : Cons) (console : Console Reader) :
    Console Reader :=
  { console with cons := cons, history := console.history ++ more.map (p, ·) }

/-- The call of `p` is over. -/
def finish (p : Reader) (request : Int) (bytes taken : List UInt8) (failed : Bool)
    (console : Console Reader) : Console Reader :=
  { console with
    readers := update console.readers p none
    results := console.results ++
      [⟨p, request, bytes, taken, console.history.length, failed⟩] }

/-- The call of `p` sleeps. -/
def pause (p : Reader) (reading : Reading) (console : Console Reader) : Console Reader :=
  { console with readers := update console.readers p (some reading) }

/-- A reader has the lock and runs until it gives it up. -/
def consoleread (p : Reader) (reading : Reading) (console : Console Reader) :
    Console Reader :=
  match console.cons.readLoop (console.killed p) reading.request.toNat
      reading.n reading.bytes reading.taken with
  | (leaves, bytes, taken, cons) =>
    let console := console.took p (taken.drop reading.taken.length) cons
    match leaves with
    | .returns => console.finish p reading.request bytes taken false
    | .fails => console.finish p reading.request bytes taken true
    | .sleeps n => console.pause p ⟨reading.request, n, bytes, taken⟩

/-- One event. A process makes a call only when it is not in one. -/
def exec (event : ConsoleEvent Reader) (console : Console Reader) : Console Reader :=
  match event with
  | .intr c =>
    { console with
      cons := console.cons.consoleintr c
      line := console.line.input console.history.length c }
  | .read p n =>
    match console.readers p with
    | none => console.consoleread p ⟨n, n.toNat, [], []⟩
    | some _ => console
  | .resume p =>
    match console.readers p with
    | none => console
    | some reading => console.consoleread p reading
  | .kill p => { console with killed := update console.killed p true }

/-- The console after the events `events`. -/
def run (events : List (ConsoleEvent Reader)) (console : Console Reader) : Console Reader :=
  events.foldl (fun console event => console.exec event) console

/-- A console without input whose indices have the value `start`. -/
def empty (buf : Nat → UInt8) (start : BitVec 32) : Console Reader where
  cons := ⟨buf, start, start, start⟩
  killed _ := false
  readers _ := none
  line := ⟨[], []⟩
  history := []
  results := []

end Console

end Xv6
