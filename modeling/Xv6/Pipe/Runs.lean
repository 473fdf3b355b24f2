import Xv6.Pipe.Protocol

/-! # Every run of a pipe

A pipe is a first-in first-out stream of bytes, and its users miss no wakeup, except
that a writer that is killed does not announce the bytes it has put in. -/

namespace Xv6

open Foundation

section

variable {Pid Hart : Type} [DecidableEq Pid] [DecidableEq Hart] {table : List Pid}

/-! ## The stream -/

theorem reachable_pipe (strict : Prop) (full : ∀ p, p ∈ table)
    {data : Nat → UInt8} {refs : PipeEnd → List Pid} {pool : Pool (pipeSystem Hart table)} (reach :
    (pipeSystem Hart table).Reachable (PipeAllowed strict) (pipeStart Hart table data refs) pool) :
    ∃ ts, (pipeProtocol Hart strict table).Fits pool ts := by
  refine reachable_sleepInv (pipe_sound strict full) (fun _ => ⟨.idle, 0⟩) ?_ ?_ reach
  · constructor
    · exact ⟨(Pipe.held_alloc data).symm, (Pipe.count_alloc data).trans_le (Nat.zero_le _)⟩
    · rintro p side ⟨⟩
    · rintro t side ⟨⟩
    · intro side closed
      cases side <;> cases closed
    · intro p
      rfl
  · rintro t ret ⟨⟩

/-- The two counters are never more than the buffer's size apart; what readers have
taken out and what is in the buffer is what writers have put in; and a `write` returns
the number of bytes it has put in, or `-1`. -/
theorem pipe_is_stream (complete : ∀ p, p ∈ table) {data : Nat → UInt8}
    {refs : PipeEnd → List Pid} {pool : Pool (pipeSystem Hart table)}
    (reach : (pipeSystem Hart table).Reachable (pipeSystem Hart table).always
      (pipeStart Hart table data refs) pool) :
    (pool.state.data.pipe.nwrite - pool.state.data.pipe.nread).toNat ≤ pipeSize ∧
    pool.state.data.putIn = pool.state.data.takenOut ++ pool.state.data.pipe.held ∧
    ∀ p kept returned, pool.threads (.process p) = .done kept →
      kept.value = .write returned → returned = -1 ∨ returned = pool.state.aux.written p := by
  have considered : (pipeSystem Hart table).Reachable (PipeAllowed False)
      (pipeStart Hart table data refs) pool := reach.mono fun _ _ _ _ no => no.elim
  obtain ⟨ts, fits⟩ := reachable_pipe False complete considered
  have inv : PipeInv _ _ _ := fits.1.extra
  refine ⟨inv.stream.bound, inv.stream.flow, ?_⟩
  intro p kept returned idle value
  rw [inv.written p]
  exact (fits.idle_of_done idle).2.2 returned value

/-! ## Lost wakeups -/

/-- Steps at which no process finds itself killed while the pipe holds bytes that
somebody waits for. -/
def NoneKilledWriting (_ : Context Pid Hart)
    (cmd : KernelCommand (pipeClient Pid Hart) PipeChan)
    (s : Kernel Pid PipeChan PipeData (PipeFiles Pid)) : Prop :=
  ∀ p, cmd = .getKilled p → KilledAlone p s

/-- Whenever the pipe's lock is free, nobody sleeps for bytes or for room in vain. -/
theorem pipe_wakes_sleepers (complete : ∀ p, p ∈ table) {data : Nat → UInt8}
    {refs : PipeEnd → List Pid} {pool : Pool (pipeSystem Hart table)}
    (reach : (pipeSystem Hart table).Reachable NoneKilledWriting
      (pipeStart Hart table data refs) pool)
    (free : pool.state.lk = false) (p : Pid) (chan : PipeChan)
    (asleep : (pool.state.procs p).state = .sleeping ∧ (pool.state.procs p).chan = some chan) :
    match chan with
    | .nread => pool.state.data.pipe.isEmpty = true ∧ pool.state.data.pipe.writeopen = true
    | .nwrite => pool.state.data.pipe.isFull = true ∧ pool.state.data.pipe.readopen = true := by
  have considered : (pipeSystem Hart table).Reachable (PipeAllowed True)
      (pipeStart Hart table data refs) pool := reach.mono fun _ _ _ alone _ => alone
  obtain ⟨ts, inv, _⟩ := reachable_pipe True complete considered
  have locks := inv.locks.lk
  rw [free] at locks
  have unready : ¬pool.state.data.pipe.Ready chan := by
    intro ready
    refine inv.not_waits ⟨trivial, ready⟩ ?_ p (Or.inr asleep)
    intro t q owed
    -- A wakeup is owed by the holder of the lock only.
    rcases (inv.sleepers.owes t chan q owed).1 with holds | early
    · rw [locks.none_of_free t] at holds
      cases holds
    · exact early
  cases chan with
  | nread =>
    obtain ⟨empty, opened⟩ := not_or.mp unready
    exact ⟨Bool.eq_true_of_not_eq_false empty, Bool.eq_true_of_not_eq_false opened⟩
  | nwrite =>
    obtain ⟨full, opened⟩ := not_or.mp unready
    exact ⟨Bool.eq_true_of_not_eq_false full, Bool.eq_true_of_not_eq_false opened⟩

end

/-! ## Sample runs -/

/-- Three processes that share a pipe. -/
inductive PipeProcess
  | reader
  | writer
  | killer
deriving DecidableEq

def pipeProcesses : List PipeProcess :=
  [.reader, .writer, .killer]

theorem mem_pipeProcesses (p : PipeProcess) : p ∈ pipeProcesses := by cases p <;> decide

/-- All of them have both ends open, on a machine with two harts. -/
def sharedPipe : Pool (pipeSystem Bool pipeProcesses) :=
  pipeStart Bool pipeProcesses (fun _ => 0) fun _ => pipeProcesses

abbrev PipeEvent :=
  System.Event (Context PipeProcess Bool) (KernelCall (PipeCall PipeProcess) PipeProcess)

/-- The reader asks for two bytes of the empty pipe and sleeps; its hart goes on to
the writer. -/
def readerSleeps : List PipeEvent :=
  .start (.scheduler false) .scheduler :: List.replicate 4 (.step (.scheduler false)) ++
  .start (.process .reader) (.client (.read (fun _ => true) 2 2)) ::
    List.replicate 14 (.step (.process .reader)) ++
  List.replicate 6 (.step (.scheduler false))

/-- The writer puts in three bytes and the reader gets two of them. -/
def bytesPass : List PipeEvent :=
  readerSleeps ++
  [.start (.process .writer) (.client (.write (fun i => some i.toUInt8) 3 5)),
    .finish (.process .writer), .start (.scheduler true) .scheduler] ++
  List.replicate 4 (.step (.scheduler true)) ++ [.finish (.process .reader)]

theorem pipe_is_stream_bytesPass :
    ∃ pool, (pipeSystem Bool pipeProcesses).Reachable (pipeSystem Bool pipeProcesses).always
        sharedPipe pool ∧ pool.state.data.takenOut = [0, 1] ∧
      (pool.state.data.pipe.nwrite - pool.state.data.pipe.nread).toNat ≤ pipeSize ∧
      pool.state.data.putIn = pool.state.data.takenOut ++ pool.state.data.pipe.held ∧
      ∀ p kept returned, pool.threads (.process p) = .done kept → kept.value = .write returned →
        returned = -1 ∨ returned = pool.state.aux.written p := by
  have run : (System.replay sharedPipe bytesPass).map
      (fun pool => pool.state.data.takenOut) = some [0, 1] := by
    decide +kernel
  obtain ⟨pool, reach, taken⟩ := System.exists_of_replay run
  exact ⟨pool, reach, taken, pipe_is_stream mem_pipeProcesses reach⟩

/-- Nobody is killed. -/
def nobodyKilled (_ : Context PipeProcess Bool)
    (cmd : KernelCommand (pipeClient PipeProcess Bool) PipeChan)
    (s : Kernel PipeProcess PipeChan PipeData (PipeFiles PipeProcess)) : Bool :=
  match cmd with
  | .getKilled p => !(s.procs p).killed
  | _ => true

theorem noneKilledWriting_of_nobodyKilled {t : Context PipeProcess Bool}
    {cmd : KernelCommand (pipeClient PipeProcess Bool) PipeChan}
    {s : Kernel PipeProcess PipeChan PipeData (PipeFiles PipeProcess)}
    (nobody : nobodyKilled t cmd s = true) : NoneKilledWriting t cmd s := by
  rintro p rfl killed
  simp [nobodyKilled, killed] at nobody

theorem pipe_wakes_sleepers_readerSleeps :
    ∃ pool, (pipeSystem Bool pipeProcesses).Reachable NoneKilledWriting sharedPipe pool ∧
      pool.state.lk = false ∧ ((pool.state.procs .reader).state = .sleeping ∧
        (pool.state.procs .reader).chan = some .nread) ∧
      pool.state.data.pipe.isEmpty = true ∧ pool.state.data.pipe.writeopen = true := by
  have run : (System.replayTested nobodyKilled sharedPipe readerSleeps).map
      (fun pool => (pool.state.lk, (pool.state.procs .reader).state,
        (pool.state.procs .reader).chan)) = some (false, .sleeping, some .nread) := by
    decide +kernel
  obtain ⟨pool, replayed, facts⟩ := Option.map_eq_some_iff.mp run
  simp only [Prod.mk.injEq] at facts
  obtain ⟨free, asleep⟩ := facts
  have reach := System.Reachable.initial.replayTested
    (fun _ _ _ _ => noneKilledWriting_of_nobodyKilled) _ replayed
  exact ⟨pool, reach, free, asleep,
    pipe_wakes_sleepers mem_pipeProcesses reach free .reader .nread asleep⟩

/-- The writer puts in the first of two bytes, is killed, and returns. -/
def writerIsKilled : List PipeEvent :=
  readerSleeps ++
  .start (.process .writer) (.client (.write (fun i => some i.toUInt8) 2 5)) ::
    List.replicate 10 (.step (.process .writer)) ++
  .start (.scheduler true) .scheduler :: List.replicate 10 (.step (.scheduler true)) ++
  [.start (.process .killer) (.kill .writer), .finish (.process .killer),
    .finish (.process .writer)]

/-- The reader sleeps on, while the pipe holds a byte and its lock is free. -/
theorem killed_writer_wakes_nobody :
    ∃ pool, (pipeSystem Bool pipeProcesses).Reachable (pipeSystem Bool pipeProcesses).always
        sharedPipe pool ∧ pool.state.lk = false ∧ pool.state.data.pipe.isEmpty = false ∧
      (pool.state.procs .reader).state = .sleeping ∧
      (pool.state.procs .reader).chan = some .nread := by
  have run : (System.replay sharedPipe writerIsKilled).map
      (fun pool => (pool.state.lk, pool.state.data.pipe.isEmpty,
        (pool.state.procs .reader).state, (pool.state.procs .reader).chan)) =
      some (false, false, .sleeping, some .nread) := by
    decide +kernel
  obtain ⟨pool, reach, facts⟩ := System.exists_of_replay run
  simp only [Prod.mk.injEq] at facts
  obtain ⟨free, some, asleep, chan⟩ := facts
  exact ⟨pool, reach, free, some, asleep, chan⟩

end Xv6
