import Xv6.Log.Log

/-! # Crash atomicity of one commit

The writes that `commit` and `recover_from_log` issue are those of a redo log,
so a commit cut anywhere and recovered any number of times is done or undone
as a whole. -/

namespace Xv6

open Foundation Function Machine RedoLog
open List (length_cons length_take mem_of_mem_take take_of_length_le)

/-! ## The header block reads back what was stored in it -/

theorem word_putEntries_of_le (hdr : Block) (ix pos : Nat) (entries : List Nat) (old : pos ≤ ix) :
    (putEntries hdr ix entries).word pos = hdr.word pos := by
  induction entries generalizing hdr ix with
  | nil => rfl
  | cons entry rest ih =>
    rw [putEntries, ih _ _ (by omega), Block.word_setWord_of_ne _ _ _ _ (by omega)]

theorem word_putEntries (hdr : Block) (ix pos : Nat) (entries : List Nat)
    (fits : 4 * (ix + entries.length) + 4 ≤ bSize) (bound : pos < entries.length) :
    (putEntries hdr ix entries).word (ix + pos + 1) = entries[pos] % 2 ^ 32 := by
  induction entries generalizing hdr ix pos with
  | nil => simp at bound
  | cons entry rest ih =>
    rw [length_cons] at fits bound
    cases pos with
    | zero =>
      rw [putEntries, word_putEntries_of_le _ _ _ _ (by omega),
        Block.word_setWord_self _ _ _ (by omega), List.getElem_cons_zero]
    | succ pos =>
      have later := ih (hdr.setWord (ix + 1) entry) (ix + 1) pos (by omega) (by omega)
      rw [putEntries, List.getElem_cons_succ, ← later]
      congr 1
      omega

theorem headerCount_putHeader (header : Block) (lh : List Nat) (short : lh.length ≤ logSize) :
    headerCount (putHeader header lh) = lh.length := by
  have counted : (putHeader header lh).word 0 = lh.length := by
    rw [putHeader, word_putEntries_of_le _ _ _ _ (Nat.le_refl 0),
      Block.word_setWord_self _ _ _ (by simp)]
    simp only [logSize_eq] at short
    omega
  simp only [logSize_eq] at short
  rw [headerCount, counted, toInt32, if_pos (by omega)]

theorem getHeader_putHeader (hdr : Block) (lh : List Nat) (short : lh.length ≤ logSize) (small :
    ∀ blockno, blockno ∈ lh → blockno < 2 ^ 32) : getHeader (putHeader hdr lh) = some lh := by
  rw [getHeader, headerCount_putHeader hdr lh short]
  simp only [logSize_eq] at short
  have withinLimit : (lh.length : Int) ≤ (logSize : Nat) := by
    simp only [logSize_eq]
    omega
  rw [if_pos withinLimit, Option.some.injEq, Int.toNat_natCast]
  apply List.ext_getElem
  · simp
  intro pos _ bound
  rw [List.getElem_map, List.getElem_range]
  have entry := word_putEntries (hdr.setWord 0 lh.length) 0 pos lh
    (by simp only [bSize_eq]; omega) bound
  rw [zero_add] at entry
  rw [putHeader, entry]
  exact Nat.mod_eq_of_lt (small _ (List.getElem_mem bound))

/-! ## The log area as a redo log -/

/-- The header as the redo log reads it: a negative count lists nothing valid. -/
def decodeHeader (header : Block) : Option (List Nat) :=
  if 0 ≤ headerCount header then getHeader header else none

theorem headerCount_eq_zero {hdr : Block}
    (cleared : decodeHeader hdr = some []) : headerCount hdr = 0 := by
  unfold decodeHeader getHeader at cleared
  split at cleared
  · rename_i nonnegative
    simp only [] at cleared
    split at cleared
    · simp only [Option.some.injEq, List.map_eq_nil_iff, List.range_eq_nil] at cleared
      omega
    · cases cleared
  · cases cleared

theorem decodeHeader_of_headerCount_eq_zero {hdr : Block}
    (cleared : headerCount hdr = 0) : decodeHeader hdr = some [] := by
  simp [decodeHeader, getHeader, cleared]

namespace Log

/-- A log area with room for its header. -/
def redoLog (log : Log) (sized : 0 < log.size) : RedoLog Nat Block where
  header := log.start
  slot index := log.start + index + 1
  area := { blockno | log.InArea blockno }
  Fits lh := lh.length ≤ logSize ∧ (lh = [] ∨ lh.length + 1 ≤ log.size) ∧
    ∀ blockno, blockno ∈ lh → blockno < 2 ^ 32
  encode lh header := putHeader header lh
  decode := decodeHeader
  header_mem := ⟨le_rfl, by omega⟩
  fits_nil := by simp
  slot_mem := by
    intro addresses index fits bound
    rcases fits with ⟨_, empty | room, _⟩
    · simp [empty] at bound
    · exact ⟨by omega, by omega⟩
  slot_ne_header := by
    intro index eq
    omega
  slot_injective := by
    intro left right eq
    simp only at eq
    omega
  decode_encode := by
    intro addresses value fits
    rw [decodeHeader, headerCount_putHeader value addresses fits.1, if_pos (by omega)]
    exact getHeader_putHeader value addresses fits.1 fits.2.2

variable {log : Log}

@[simp] theorem redoLog_decode (sized : 0 < log.size) :
    (log.redoLog sized).decode = decodeHeader := rfl

@[simp] theorem redoLog_header (sized : 0 < log.size) :
    (log.redoLog sized).header = log.start := rfl

@[simp] theorem redoLog_encode (sized : 0 < log.size) (lh : List Nat)
    (hdr : Block) : (log.redoLog sized).encode lh hdr = putHeader hdr lh := rfl

/-! ## The writes that the loops issue -/

theorem writeLog_view_of_outside (tail : Nat) (lh : List Nat) (m : Machine) (blockno : Nat)
    (outside : blockno ≤ log.start + tail ∨ log.start + tail + lh.length < blockno) :
    (log.writeLog tail lh m).view blockno = m.view blockno := by
  induction lh generalizing tail m with
  | nil => rfl
  | cons head rest ih =>
    rw [length_cons] at outside
    rw [writeLog, ih _ _ (by omega)]
    exact update_of_ne (by omega) _ _

theorem writeLog_view_slot (tail : Nat)
    (lh : List Nat) (m : Machine) (size : tail + lh.length + 1 ≤ log.size) (outside : ∀ blockno,
    blockno ∈ lh → ¬log.InArea blockno) (ix blockno : Nat) (hit : lh[ix]? = some blockno) :
    (log.writeLog tail lh m).view (log.start + (tail + ix) + 1) = m.view blockno := by
  induction lh generalizing tail m ix with
  | nil => simp at hit
  | cons head rest ih =>
    rw [length_cons] at size
    have restOff : ∀ o, o ∈ rest → ¬log.InArea o :=
      fun o mem => outside o (List.mem_cons_of_mem _ mem)
    cases ix with
    | zero =>
      have eq : head = blockno := by simpa using hit
      subst eq
      rw [writeLog, writeLog_view_of_outside _ _ _ _ (by omega)]
      exact update_self _ _ _
    | succ ix =>
      have restFound : rest[ix]? = some blockno := hit
      have later := ih (tail + 1) (log.writeLogBlock tail head m) (by omega) restOff ix restFound
      have bnoOff := restOff blockno (List.mem_of_getElem? restFound)
      have ne : blockno ≠ log.start + tail + 1 := by
        intro eq
        exact bnoOff ⟨by omega, by omega⟩
      rw [writeLog, show tail + (ix + 1) = tail + 1 + ix by omega, later]
      exact update_of_ne ne _ _

theorem writeLog_issued (sized : 0 < log.size)
    (tail : Nat) (lh : List Nat) (m : Machine) (size : tail + lh.length + 1 ≤ log.size)
    (outside : ∀ blockno, blockno ∈ lh → ¬log.InArea blockno) : (log.writeLog tail lh m).issued =
    m.issued ++ (log.redoLog sized).stageWrites m.view tail lh := by
  induction lh generalizing tail m with
  | nil => simp [writeLog, stageWrites]
  | cons head rest ih =>
    rw [length_cons] at size
    have restOff : ∀ o, o ∈ rest → ¬log.InArea o :=
      fun o mem => outside o (List.mem_cons_of_mem _ mem)
    have same : ∀ o, o ∈ rest → (log.writeLogBlock tail head m).view o = m.view o := by
      intro o mem
      have ne : o ≠ log.start + tail + 1 := by
        intro eq
        exact restOff o mem ⟨by omega, by omega⟩
      exact update_of_ne ne _ _
    rw [writeLog, ih _ _ (by omega) restOff, stageWrites_congr _ same, stageWrites]
    simp [writeLogBlock, Machine.bwrite, Machine.modify, Machine.bread, redoLog]

theorem installTrans_view_of_not_mem (tail : Nat) (lh : List Nat) (m : Machine) (blockno : Nat)
    (absent : blockno ∉ lh) : (log.installTrans tail lh m).view blockno = m.view blockno := by
  induction lh generalizing tail m with
  | nil => rfl
  | cons head rest ih =>
    rw [List.mem_cons, not_or] at absent
    rw [installTrans, ih _ _ absent.2]
    exact update_of_ne absent.1 _ _

theorem installTrans_issued (sized : 0 < log.size) (tail : Nat) (lh : List Nat)
    (m : Machine) (size : lh = [] ∨ tail + lh.length + 1 ≤ log.size)
    (outside : ∀ blockno, blockno ∈ lh → ¬log.InArea blockno) :
    (log.installTrans tail lh m).issued =
    m.issued ++ (log.redoLog sized).installWrites m.view tail lh := by
  induction lh generalizing tail m with
  | nil => simp [installTrans, installWrites]
  | cons head rest ih =>
    have bound : tail + rest.length + 2 ≤ log.size := by
      rcases size with empty | size
      · cases empty
      · rw [length_cons] at size
        omega
    have headOff := outside head (by simp)
    have same : ∀ ix, ix < rest.length → (log.installBlock tail head m).view
            ((log.redoLog sized).slot (tail + 1 + ix)) =
          m.view ((log.redoLog sized).slot (tail + 1 + ix)) := by
      intro ix indexBound
      have ne : log.start + (tail + 1 + ix) + 1 ≠ head := by
        intro eq
        exact headOff ⟨by omega, by omega⟩
      exact update_of_ne ne _ _
    rw [installTrans, ih _ _ (Or.inr (by omega))
        fun o mem => outside o (List.mem_cons_of_mem _ mem),
      installWrites_congr _ same, installWrites]
    simp [installBlock, Machine.bwrite, Machine.modify, Machine.bread, redoLog]

theorem writeHead_issued (m : Machine) :
    (log.writeHead m).issued = m.issued ++ [(log.start, putHeader (m.view log.start) log.lh)] := by
  simp [writeHead, Machine.bwrite, Machine.modify, Machine.bread]

theorem writeHead_view_of_ne (m : Machine) (blockno : Nat) (ne : blockno ≠ log.start) :
    (log.writeHead m).view blockno = m.view blockno := update_of_ne ne _ _

/-! ## The stages of a commit -/

theorem writeLog_append (tail : Nat) (fst snd : List Nat) (m : Machine) : log.writeLog
    tail (fst ++ snd) m = log.writeLog (tail + fst.length) snd (log.writeLog tail fst m) := by
  induction fst generalizing tail m with
  | nil => rfl
  | cons head rest ih =>
    rw [List.cons_append, writeLog, writeLog, ih, length_cons, add_right_comm, add_assoc]

theorem installTrans_append (tail : Nat) (fst snd : List Nat) (m : Machine) : log.installTrans tail
    (fst ++ snd) m = log.installTrans (tail + fst.length) snd (log.installTrans tail fst m) := by
  induction fst generalizing tail m with
  | nil => rfl
  | cons head rest ih =>
    rw [List.cons_append, installTrans, installTrans, ih, length_cons, add_right_comm, add_assoc]

end Log

/-- How far a commit has come: so many log blocks written, the header written
and so many blocks installed, or everything written and the header erased. -/
inductive CommitStage
  | staging (tail : Nat)
  | installing (tail : Nat)
  | erased

namespace Log

variable {log : Log}

/-- What a commit that started on `base` has made of the machine. -/
def machineAt (log : Log) (base : Machine) : CommitStage → Machine
  | .staging tail => log.writeLog 0 (log.lh.take tail) base
  | .installing tail =>
    log.installTrans 0 (log.lh.take tail)
      (log.writeHead (log.writeLog 0 log.lh base))
  | .erased =>
    { log with lh := [] }.writeHead (log.installTrans 0 log.lh
      (log.writeHead (log.writeLog 0 log.lh base)))

/-- The number of writes issued by a stage. -/
def writesAt (log : Log) : CommitStage → Nat
  | .staging tail => tail
  | .installing tail => log.lh.length + (tail + 1)
  | .erased => log.lh.length + (log.lh.length + 2)

/-- The stages that a commit of the listed blocks goes through. -/
def HasStage (log : Log) : CommitStage → Prop
  | .staging tail => tail ≤ log.lh.length
  | .installing tail => tail ≤ log.lh.length
  | .erased => True

section

variable (base : Machine)
include base

theorem machineAt_staging_succ (tail : Nat)
    (bound : tail < log.lh.length) : log.writeLogBlock tail log.lh[tail]
    (log.machineAt base (.staging tail)) = log.machineAt base (.staging (tail + 1)) := by
  rw [machineAt, machineAt, ← List.take_append_getElem bound, writeLog_append,
    length_take, min_eq_left (by omega), zero_add]
  rfl

theorem machineAt_installing_zero : log.writeHead
    (log.machineAt base (.staging log.lh.length)) = log.machineAt base (.installing 0) := by
  rw [machineAt, List.take_length]
  rfl

theorem machineAt_installing_succ (tail : Nat)
    (bound : tail < log.lh.length) : log.installBlock tail log.lh[tail]
    (log.machineAt base (.installing tail)) = log.machineAt base (.installing (tail + 1)) := by
  rw [machineAt, machineAt, ← List.take_append_getElem bound, installTrans_append,
    length_take, min_eq_left (by omega), zero_add]
  rfl

theorem machineAt_erased :
    { log with lh := [] }.writeHead (log.machineAt base (.installing log.lh.length)) =
      log.machineAt base .erased := by
  rw [machineAt, List.take_length]
  rfl

end

theorem commit_eq_machineAt (m : Machine) (listed : 0 < log.lh.length) :
    (log.commit m).2 = log.machineAt m .erased := by
  rw [commit, if_pos listed]
  rfl

section

variable (sized : 0 < log.size) (base : Machine) (room : log.lh.length + 1 ≤ log.size)
  (outside : ∀ blockno, blockno ∈ log.lh → ¬log.InArea blockno)

/-- The writes of a whole commit. -/
def commitTrace (log : Log) (sized : 0 < log.size) (view : Disk) :
    List (Nat × Block) :=
  (log.redoLog sized).commitWrites view log.lh (view log.start)
    (putHeader (view log.start) log.lh)

include room outside

theorem headed_view_slot (ix blockno : Nat) (hit : log.lh[ix]? = some blockno) :
    (log.machineAt base (.installing 0)).view (log.start + ix + 1) = base.view blockno := by
  have wrote := writeLog_view_slot 0 log.lh base (by omega) outside ix blockno hit
  rw [zero_add] at wrote
  have ne : log.start + ix + 1 ≠ log.start := by omega
  exact (writeHead_view_of_ne _ _ ne).trans wrote

theorem installing_issued (tail : Nat) : (log.machineAt base (.installing tail)).issued =
    (log.machineAt base (.installing 0)).issued ++ (homeWrites base.view log.lh).take tail := by
  have sized : 0 < log.size := by omega
  have slots : ∀ ix blockno, (log.lh.take tail)[ix]? = some blockno →
      (log.machineAt base (.installing 0)).view
        ((log.redoLog sized).slot (0 + ix)) = base.view blockno := by
    intro ix blockno hit
    rw [zero_add]
    rw [List.getElem?_take] at hit
    split at hit
    · exact headed_view_slot base room outside ix blockno hit
    · cases hit
  have size : log.lh.take tail = [] ∨ 0 + (log.lh.take tail).length + 1 ≤ log.size := by
    right
    rw [length_take]
    omega
  have issued := installTrans_issued sized 0 (log.lh.take tail)
    (log.machineAt base (.installing 0)) size
    fun blockno mem => outside blockno (mem_of_mem_take mem)
  rw [installWrites_eq_homeWrites slots] at issued
  rwa [homeWrites, ← List.map_take]

theorem machineAt_issued (stage : CommitStage) (has : log.HasStage stage) :
    (log.machineAt base stage).issued =
    base.issued ++ (log.commitTrace sized base.view).take (log.writesAt stage) := by
  have stagedIssued : ∀ tail, tail ≤ log.lh.length →
      (log.machineAt base (.staging tail)).issued = base.issued ++
        ((log.redoLog sized).stageWrites base.view 0 log.lh).take tail := by
    intro tail bound
    have issued := writeLog_issued sized 0 (log.lh.take tail) base (by rw [length_take]; omega)
      fun blockno mem => outside blockno (mem_of_mem_take mem)
    rwa [stageWrites_take] at issued
  have headerUntouched : (log.machineAt base (.staging log.lh.length)).view log.start =
      base.view log.start := by
    apply writeLog_view_of_outside
    omega
  have headedIssued : (log.machineAt base (.installing 0)).issued = base.issued ++
      ((log.redoLog sized).stageWrites base.view 0 log.lh ++
        [(log.start, putHeader (base.view log.start) log.lh)]) := by
    rw [← machineAt_installing_zero, writeHead_issued, headerUntouched,
      stagedIssued _ le_rfl, take_of_length_le (by simp), List.append_assoc]
  cases stage with
  | staging tail =>
    rw [stagedIssued tail has, commitTrace, commitWrites, writesAt,
      List.take_append_of_le_length (by rw [length_stageWrites]; exact has)]
  | installing tail =>
    have bound : tail ≤ (homeWrites base.view log.lh).length := by rwa [length_homeWrites]
    rw [installing_issued base room outside, headedIssued, commitTrace, writesAt,
      commitWrites_take_header, List.take_append_of_le_length bound]
    simp
  | erased =>
    have headerWritten : (log.machineAt base (.installing 0)).view log.start =
        putHeader (base.view log.start) log.lh := by
      rw [← machineAt_installing_zero, ← headerUntouched]
      exact update_self _ _ _
    have headerKept : (log.machineAt base (.installing log.lh.length)).view log.start =
        putHeader (base.view log.start) log.lh := by
      have absent : log.start ∉ log.lh.take log.lh.length := by
        intro mem
        exact outside log.start (mem_of_mem_take mem) ⟨le_rfl, by omega⟩
      exact (installTrans_view_of_not_mem 0 _ _ log.start absent).trans headerWritten
    rw [← machineAt_erased, writeHead_issued,
      installing_issued base room outside, headedIssued, commitTrace, writesAt,
      commitWrites_take_header, headerKept,
      take_of_length_le (by simp), take_of_length_le (by simp)]
    simp

theorem machineAt_view (stage : CommitStage) (has : log.HasStage stage) (blockno : Nat) (blkOff :
    ¬log.InArea blockno) : (log.machineAt base stage).view blockno = base.view blockno := by
  have notStart : blockno ≠ log.start := by
    intro eq
    exact blkOff ⟨by omega, by omega⟩
  have staged : ∀ tail, tail ≤ log.lh.length →
      (log.machineAt base (.staging tail)).view blockno = base.view blockno := by
    intro tail bound
    apply writeLog_view_of_outside
    rw [length_take]
    by_cases old : blockno < log.start
    · omega
    have beyond : log.start + log.size ≤ blockno := by
      by_contra isIn
      exact blkOff ⟨by omega, by omega⟩
    omega
  have headed : (log.machineAt base (.installing 0)).view blockno = base.view blockno := by
    rw [← machineAt_installing_zero, writeHead_view_of_ne _ _ notStart]
    exact staged _ le_rfl
  have installed : ∀ tail, tail ≤ log.lh.length →
      (log.machineAt base (.installing tail)).view blockno = base.view blockno := by
    intro tail
    induction tail with
    | zero => intro _; exact headed
    | succ tail ih =>
      intro bound
      have old := ih (by omega)
      rw [← machineAt_installing_succ base tail (by omega)]
      by_cases same : blockno = log.lh[tail]
      · subst same
        have slotOff : log.start + tail + 1 ∉ log.lh.take tail := by
          intro mem
          exact outside _ (mem_of_mem_take mem) ⟨by omega, by omega⟩
        have slot : (log.machineAt base (.installing tail)).view (log.start + tail + 1) =
            (log.machineAt base (.installing 0)).view (log.start + tail + 1) :=
          installTrans_view_of_not_mem 0 _ _ _ slotOff
        have held := headed_view_slot base room outside tail log.lh[tail]
          (List.getElem?_eq_getElem (by omega))
        exact (update_self _ _ _).trans (slot.trans held)
      · exact (update_of_ne same _ _).trans old
  cases stage with
  | staging tail => exact staged tail has
  | installing tail => exact installed tail has
  | erased =>
    have erased : (log.machineAt base .erased).view blockno =
        (log.machineAt base (.installing log.lh.length)).view blockno := by
      rw [← machineAt_erased]
      exact writeHead_view_of_ne _ _ notStart
    exact erased.trans (installed _ le_rfl)

end

theorem commit_issued (sized : 0 < log.size) (m : Machine) (listed : 0 < log.lh.length)
    (room : log.lh.length + 1 ≤ log.size) (outside : ∀ blockno, blockno ∈ log.lh →
    ¬log.InArea blockno) : (log.commit m).2.issued = m.issued ++ log.commitTrace sized m.view := by
  rw [commit_eq_machineAt m listed, machineAt_issued sized m room outside .erased trivial, writesAt,
    take_of_length_le]
  simp [commitTrace, commitWrites]

/-! ## Recovery -/

/-- The writes that `recover_from_log` issues after a reboot. -/
def recoverWrites (log : Log) (disk : Disk) : Option (List (Nat × Block)) :=
  (log.recoverFromLog (Machine.boot disk)).map fun out => out.2.issued

theorem recoverWrites_redoes (sized : 0 < log.size) :
    (log.redoLog sized).Redoes log.recoverWrites := by
  intro disk lh listed fits outside
  have loaded : getHeader (disk log.start) = some lh := by
    rw [redoLog_decode, redoLog_header, decodeHeader] at listed
    split at listed
    · exact listed
    · cases listed
  let hit : Log := { log with lh := lh }
  let home := hit.installTrans 0 lh (boot disk)
  have homeIssued : home.issued = (hit.redoLog sized).installWrites disk 0 lh := by
    have size : lh = [] ∨ 0 + lh.length + 1 ≤ hit.size := by
      rcases fits.2.1 with empty | room
      · exact Or.inl empty
      · exact Or.inr (by rw [zero_add]; exact room)
    exact (@installTrans_issued hit sized 0 lh (boot disk) size outside).trans (List.nil_append _)
  refine ⟨home.view log.start, ?_⟩
  have recovered : log.recoverFromLog (boot disk) =
      some ({ log with lh := [] }, { log with lh := [] }.writeHead home) := by
    simp [recoverFromLog, readHead, bread, boot, loaded, home, hit]
  rw [recoverWrites, recovered]
  simp only [Option.map_some, writeHead_issued, homeIssued]
  rfl

/-- Reboots after a crash: `recover_from_log` is cut after each number of
writes in turn, and the last run completes. -/
def recoverRuns (log : Log) (crashes : List Nat) (disk : Disk) : Option Disk :=
  RedoLog.recoverRuns log.recoverWrites crashes disk

/-- The disk after a crash that let `count` of the writes of `commit` through.
`cache` is what the buffer cache holds when `commit` starts. -/
def crashedCommit (log : Log) (disk cache : Disk) (count : Nat) : Disk :=
  applyWrites
    ((log.commit { view := cache, issued := [] }).2.issued.take count) disk

/-- What recovery makes of a commit cut anywhere: the log is cleared, blocks
outside the log and the transaction are untouched, and the home blocks are all
new when the first header write had reached the disk and all old otherwise. -/
def CrashAtomic (log : Log) (disk cache : Disk) : Prop :=
  ∀ count crashes, ∃ final,
    log.recoverRuns crashes (log.crashedCommit disk cache count) = some final ∧
    headerCount (final log.start) = 0 ∧
    (∀ blockno, ¬log.InArea blockno → blockno ∉ log.lh →
      final blockno = disk blockno) ∧
    ∀ blockno, blockno ∈ log.lh →
      final blockno =
        if log.lh.length < count then cache blockno else disk blockno

/-- A transaction within the limits of `log_write`, on blocks outside the log. -/
structure Loggable (log : Log) : Prop where
  limit : log.lh.length ≤ logSize
  room : log.lh.length + 1 ≤ log.size
  outside : ∀ blockno, blockno ∈ log.lh → ¬log.InArea blockno
  small : ∀ blockno, blockno ∈ log.lh → blockno < 2 ^ 32

theorem commit_crash_atomic (log : Log) (disk cache : Disk)
    (loggable : log.Loggable) (cleared : headerCount (disk log.start) = 0) :
    log.CrashAtomic disk cache := by
  intro count crashes
  have sized : 0 < log.size := by
    have room := loggable.room
    omega
  have settled : (log.redoLog sized).Settled disk disk := by
    refine ⟨?_, fun _ _ => rfl⟩
    rw [redoLog_decode, redoLog_header]
    exact decodeHeader_of_headerCount_eq_zero cleared
  have fits : (log.redoLog sized).Fits log.lh :=
    ⟨loggable.limit, Or.inr loggable.room, loggable.small⟩
  by_cases listed : 0 < log.lh.length
  · rcases settled.crash_atomic cache (recoverWrites_redoes sized) crashes
        fits loggable.outside (cache log.start) (putHeader (cache log.start) log.lh)
        count with ⟨final, run, cleared, blocks⟩
    rw [redoLog_decode, redoLog_header] at cleared
    have crashed : log.crashedCommit disk cache count =
        applyWrites ((log.commitTrace sized cache).take count) disk := by
      rw [crashedCommit, commit_issued sized _ listed loggable.room loggable.outside,
        List.nil_append]
    refine ⟨final, by rw [crashed]; exact run, headerCount_eq_zero cleared, ?_, ?_⟩
    · intro blockno outside absent
      rw [blocks blockno outside]
      split
      · exact if_neg absent
      · rfl
    · intro blockno mem
      rw [blocks blockno (loggable.outside blockno mem)]
      split
      · exact if_pos mem
      · rfl
  · have empty : log.lh = [] := by
      rw [← List.length_eq_zero_iff]
      omega
    have crashed : log.crashedCommit disk cache count = disk := by
      simp [crashedCommit, commit, empty]
    rcases settled.recoverRuns (recoverWrites_redoes sized) crashes with
      ⟨final, run, cleared, blocks⟩
    rw [redoLog_decode, redoLog_header] at cleared
    refine ⟨final, by rw [crashed]; exact run, headerCount_eq_zero cleared, ?_, ?_⟩
    · intro blockno outside _
      exact blocks blockno outside
    · simp [empty]

/-- A log laid out as on the disk that `mkfs` builds, with one block listed. -/
def sampleLog : Log :=
  { start := 2, size := 30, outstanding := 0, committing := true, lh := [40, 41] }

theorem sampleLog_loggable : sampleLog.Loggable where
  limit := by decide
  room := by decide
  outside := by decide
  small := by decide

theorem commit_crash_atomic_sample :
    headerCount ((fun _ => Block.zero : Disk) sampleLog.start) = 0 ∧
      sampleLog.CrashAtomic (fun _ => Block.zero) (fun _ _ => 1) :=
  ⟨by decide, commit_crash_atomic sampleLog _ _ sampleLog_loggable (by decide)⟩

/-- A disk whose header still lists block 50 from an earlier transaction. -/
def staleDisk : Disk :=
  update
    (update (fun _ => Block.zero) 2 (putHeader Block.zero [50]))
    3 (fun _ => 1)

/-- On a disk whose log is not cleared, recovery installs the stale transaction,
so a commit cut before its first write does change a block outside of it. -/
theorem commit_not_crash_atomic_of_stale_header :
    sampleLog.Loggable ∧ ¬sampleLog.CrashAtomic staleDisk (fun _ _ => 2) := by
  refine ⟨sampleLog_loggable, ?_⟩
  intro atomic
  have sized : 0 < sampleLog.size := by decide
  rcases atomic 0 [] with ⟨final, run, _, unchanged, _⟩
  have fits : (sampleLog.redoLog sized).Fits [50] := ⟨by decide, Or.inr (by decide), by decide⟩
  have listed : (sampleLog.redoLog sized).decode
      (staleDisk (sampleLog.redoLog sized).header) = some [50] :=
    @RedoLog.decode_encode _ _ (sampleLog.redoLog sized) [50] Block.zero fits
  have outside : ∀ blockno, blockno ∈ [50] → ¬sampleLog.InArea blockno := by decide
  rcases recoverWrites_redoes sized staleDisk [50] listed fits outside with
    ⟨cleared, issued⟩
  have crashed : sampleLog.crashedCommit staleDisk (fun _ _ => 2) 0 = staleDisk := by
    rw [crashedCommit, List.take_zero, applyWrites_nil]
  rw [crashed, recoverRuns, RedoLog.recoverRuns, issued] at run
  have finalEqual := Option.some.inj run
  have kept : final 50 = staleDisk 50 := unchanged 50 (by decide) (by decide)
  have installed : final 50 = staleDisk 3 := by
    rw [← finalEqual]
    rfl
  have firstByte := congrFun (kept.symm.trans installed) ⟨0, by decide⟩
  exact absurd firstByte (by decide)

end Log

end Xv6
