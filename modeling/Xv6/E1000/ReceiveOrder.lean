import Xv6.E1000.ReceiveOwnership

/-! # Packets are delivered once and in order

What `e1000_recv` does in every interleaving with the device, whoever calls it. -/

namespace Xv6

open Foundation Function Protocol RxProgram
open Receiver (exec e1000Init)

/-! ## Commands -/

namespace RxToken

/-- The thread is not serving an interrupt. -/
def Free (tok : RxToken) : Prop := tok.claim = false ∧ tok.stage.locks = false

/-- The tokens with which a thread comes to a command. In a guarded system
`e1000_recv` is only called by a thread that has claimed the interrupt, and the
device stores a packet in one step. -/
def Ready (guarded : Bool) : RxCommand → RxToken → Prop
  | .acquire, tok => tok.stage.locks = false ∧ (guarded = true → tok.claim = true)
  | .release, tok => tok.stage = .leaving
  | .readRdt, tok => tok.stage = .locked
  | .readStatus i, tok => tok.stage = .checking i
  | .setLen i, tok => tok.stage = .found i
  | .netRx i, tok => tok.stage = .sized i
  | .mbufalloc i _, tok => tok.stage = .handed i
  | .setAddr i m, tok => tok.stage = .fresh i m
  | .clearStatus i, tok => tok.stage = .addressed i
  | .writeRdt i, tok => tok.stage = .cleared i
  | .readIcr, tok => tok.claim = true ∧ tok.stage = .ended
  | .plicComplete, tok => tok.claim = true ∧ tok.stage = .idle
  | .write frame, tok => guarded = false ∧ frame.length ≤ mbufSize ∧ tok.Free
  | .arrive frame, tok => frame.length ≤ mbufSize ∧ tok.Free
  | .writeBack, tok | .advance, tok => guarded = false ∧ tok.Free
  | .plicClaim, tok | .mbuffree _, tok => tok.Free

/-- The token that a thread leaves a command with. -/
def next : (cmd : RxCommand) → cmd.Response → RxToken → RxToken
  | .acquire, _, tok => { tok with stage := .locked }
  | .release, _, tok => { tok with stage := .ended }
  | .readRdt, (rdt : Nat), tok =>
    { tok with stage := .checking ((rdt + 1) % rxRingSize) }
  | .readStatus i, (status : UInt8), tok =>
    { tok with stage := RxInv.afterStatus i status }
  | .setLen i, _, tok => { tok with stage := .sized i }
  | .netRx i, _, tok => { tok with stage := .handed i }
  | .mbufalloc i m, _, tok => { tok with stage := .fresh i m }
  | .setAddr i _, _, tok => { tok with stage := .addressed i }
  | .clearStatus i, _, tok => { tok with stage := .cleared i }
  | .writeRdt _, _, tok => { tok with stage := .leaving }
  | .readIcr, _, tok => { claim := tok.claim, stage := .idle }
  | .plicClaim, _, _ => { claim := true, stage := .idle }
  | .plicComplete, _, _ => { claim := false, stage := .idle }
  | .write _, _, tok | .writeBack, _, tok | .advance, _, tok | .arrive _, _, tok
  | .mbuffree _, _, tok => tok

end RxToken

namespace Receiver

theorem writeFrame_eq_ok {s after : Receiver} {frame : List UInt8}
    (wrote : s.writeFrame frame = .ok after) : s.phase = .waiting ∧ s.rdh ≠ s.rdt ∧
      ∃ mbuf, s.memory (s.rxRing s.rdh).addr.page = some mbuf ∧
        after = s.dma (s.rxRing s.rdh).addr.page mbuf (s.rxRing s.rdh).addr.offset frame := by
  cases phase : s.phase with
  | written o | marked => simp [writeFrame, phase] at wrote
  | waiting =>
    by_cases full : s.rdh = s.rdt
    · simp [writeFrame, phase, full] at wrote
    cases stored : s.memory (s.rxRing s.rdh).addr.page with
    | none => simp [writeFrame, phase, full, stored] at wrote
    | some mbuf =>
      simp only [writeFrame, phase, if_neg full, stored, Outcome.ok.injEq] at wrote
      exact ⟨rfl, full, mbuf, rfl, wrote.symm⟩

end Receiver

namespace RxInv

variable {Thread : Type} {s after : Receiver} {ts : Thread → RxToken}
  {t : Thread} {guarded : Bool} {cmd : RxCommand}

theorem writeFrame (inv : RxInv s ts) {frame : List UInt8} (small : frame.length ≤ mbufSize)
    (wrote : s.writeFrame frame = .ok after) : RxInv after ts ∧ after.phase = .written frame := by
  rcases Receiver.writeFrame_eq_ok wrote with ⟨phase, space, mbuf, stored, rfl⟩
  exact ⟨inv.dma phase space stored small, rfl⟩

theorem writeFrame_no_panic (inv : RxInv s ts) {frame : List UInt8}
    {why : RxFault} : s.writeFrame frame ≠ .panic why := by
  intro panics
  cases phase : s.phase with
  | written o | marked => simp [Receiver.writeFrame, phase] at panics
  | waiting =>
    have busy : s.phase.ahead.1 = 0 := by rw [phase]; rfl
    have live := inv.owned.live _ _ (inv.device_has busy)
    have page : (s.rxRing s.rdh).addr.page = s.rxMbufs (s.filled % rxRingSize) := by
      rw [inv.device_addr busy]
    rcases Option.isSome_iff_exists.mp live with ⟨mbuf, stored⟩
    rw [← page] at stored
    by_cases full : s.rdh = s.rdt
    · simp [Receiver.writeFrame, phase, full] at panics
    · simp [Receiver.writeFrame, phase, full, stored] at panics

theorem slot_stored (inv : RxInv s ts) {stage : RxStage}
    (h : (ts t).stage = stage) (locked : stage.locks = true) (whole : stage.bare = none) (k : Nat) :
    ∃ mbuf, s.memory (s.rxMbufs (k % rxRingSize)) = some mbuf := by
  have bare : ∀ o, (ts o).stage.bare ≠ some (k % rxRingSize) := by
    intro o bare
    by_cases same : o = t
    · rw [same, h, whole] at bare
      cases bare
    have never := unaddressed_of_bare bare
    rw [inv.none_recycles (h.symm ▸ locked) o same] at never
    cases never
  rcases inv.head _ (slot_lt k) bare with ⟨mbuf, stored, _⟩
  exact ⟨mbuf, stored⟩

theorem no_panic (inv : RxInv s ts) (ready : RxToken.Ready guarded cmd (ts t)) {why : RxFault} :
    s.exec cmd ≠ .panic why := by
  intro panics
  have fits := inv.fits t
  cases cmd with
  | acquire => cases free : s.e1000Lock2 <;> simp [exec, free] at panics
  | plicClaim => cases free : s.claimed <;> simp [exec, free] at panics
  | setLen i =>
    have stage : (ts t).stage = .found i := ready
    rw [stage] at fits
    rcases fits with ⟨rfl, _⟩
    rcases inv.slot_stored stage rfl rfl s.returned with ⟨mbuf, stored⟩
    simp only [exec, stored] at panics
    cases panics
  | netRx i =>
    have stage : (ts t).stage = .sized i := ready
    rw [stage] at fits
    rcases fits with ⟨_, _, _, mbuf, stored, _⟩
    simp [exec, stored] at panics
  | mbufalloc i m => cases stored : s.memory m <;> simp [exec, stored] at panics
  | setAddr i m =>
    have stage : (ts t).stage = .fresh i m := ready
    rw [stage] at fits
    rcases fits with ⟨rfl, _, ptr⟩
    rcases inv.slot_stored stage rfl rfl s.returned with ⟨mbuf, stored⟩
    rw [ptr] at stored
    simp [exec, stored] at panics
  | write frame | arrive frame =>
    cases wrote : s.writeFrame frame with
    | panic o => exact inv.writeFrame_no_panic wrote
    | ok out | blocked => simp [exec, wrote] at panics
  | writeBack | advance => cases phase : s.phase <;> simp [exec, phase] at panics
  | mbuffree m =>
    by_cases mem : m ∈ s.handed <;> simp [exec, mem] at panics
  | _ => cases panics

variable [DecidableEq Thread]

theorem step (inv : RxInv s ts) (ready : RxToken.Ready guarded cmd (ts t)) {r : cmd.Response} (ran :
    s.exec cmd = .ok (r, after)) : RxInv after (update ts t (RxToken.next cmd r (ts t))) := by
  cases cmd with
  | acquire =>
    cases free : s.e1000Lock2 with
    | true => simp [exec, free] at ran
    | false =>
      simp only [exec, free, Bool.false_eq_true, if_false, Outcome.ok.injEq]
        at ran
      cases ran
      exact inv.acquire ready.1 free
  | release => cases ran; exact inv.release ready
  | readRdt => cases ran; exact inv.readRdt ready
  | readStatus i => cases ran; exact inv.readStatus ready
  | setLen i =>
    cases stored : s.memory (s.rxMbufs i) with
    | none => simp [exec, stored] at ran
    | some mbuf =>
      simp only [exec, stored, Outcome.ok.injEq] at ran
      cases ran
      exact inv.setLen ready stored
  | netRx i =>
    cases stored : s.memory (s.rxMbufs i) with
    | none => simp [exec, stored] at ran
    | some mbuf =>
      simp only [exec, stored, Outcome.ok.injEq] at ran
      cases ran
      exact inv.netRx ready stored
  | mbufalloc i m =>
    cases stored : s.memory m with
    | some o => simp [exec, stored] at ran
    | none =>
      simp only [exec, stored, Outcome.ok.injEq] at ran
      cases ran
      exact inv.mbufalloc ready stored
  | setAddr i m =>
    cases stored : s.memory m with
    | none => simp [exec, stored] at ran
    | some mbuf =>
      simp only [exec, stored, Outcome.ok.injEq] at ran
      cases ran
      exact inv.setAddr ready stored
  | clearStatus i => cases ran; exact inv.clearStatus ready
  | writeRdt i => cases ran; exact inv.writeRdt ready
  | readIcr =>
    cases ran
    exact inv.interrupt (by rw [ready.2]; rfl) rfl (inv.claim.keep rfl)
  | plicClaim =>
    cases free : s.claimed with
    | true => simp [exec, free] at ran
    | false =>
      simp only [exec, free, Bool.false_eq_true, if_false, Outcome.ok.injEq]
        at ran
      cases ran
      have claim := inv.claim
      rw [free] at claim
      exact inv.interrupt ready.2 rfl claim.acquire
  | plicComplete =>
    cases ran
    exact inv.interrupt (by rw [ready.2]; rfl) rfl (inv.claim.release ready.1 rfl)
  | write frame =>
    cases wrote : s.writeFrame frame with
    | panic why | blocked => simp [exec, wrote] at ran
    | ok out =>
      simp only [exec, wrote, Outcome.ok.injEq] at ran
      cases ran
      rw [RxToken.next, update_eq_self]
      exact (inv.writeFrame ready.2.1 wrote).1
  | writeBack =>
    cases phase : s.phase with
    | waiting | marked => simp [exec, phase] at ran
    | written frame =>
      simp only [exec, phase, Outcome.ok.injEq] at ran
      cases ran
      rw [RxToken.next, update_eq_self]
      exact inv.mark phase
  | advance =>
    cases phase : s.phase with
    | waiting | written frame => simp [exec, phase] at ran
    | marked =>
      simp only [exec, phase, Outcome.ok.injEq] at ran
      cases ran
      rw [RxToken.next, update_eq_self]
      exact inv.moveHead phase
  | arrive frame =>
    cases wrote : s.writeFrame frame with
    | panic why | blocked => simp [exec, wrote] at ran
    | ok out =>
      simp only [exec, wrote, Outcome.ok.injEq] at ran
      cases ran
      rw [RxToken.next, update_eq_self]
      rcases inv.writeFrame ready.1 wrote with ⟨kept, phase⟩
      exact (kept.mark phase).moveHead rfl
  | mbuffree m =>
    by_cases mem : m ∈ s.handed
    · simp only [exec, if_pos mem, Outcome.ok.injEq] at ran
      cases ran
      rw [RxToken.next, update_eq_self]
      exact inv.mbuffree mem
    · simp [exec, mem] at ran

end RxInv

/-! ## Programs -/

/-- An invariant on top of the ring: which steps are considered, and that they
keep the invariant. -/
structure RxDiscipline (Thread : Type) [DecidableEq Thread] where
  guarded : Bool
  Extra : Receiver → (Thread → RxToken) → Prop
  Allowed : RxCommand → Receiver → Prop
  extra_step : RxInv s ts → Extra s ts →
    RxToken.Ready guarded cmd (ts t) → Allowed cmd s →
    exec cmd s = .ok (r, after) →
    Extra after (update ts t
      (RxToken.next cmd r (ts t)))

namespace RxDiscipline

variable {Thread : Type} [DecidableEq Thread] (d : RxDiscipline Thread)
  {Call : Type} (prog : Call → RxProgram Unit)

def protocol : Protocol (rxSystem Thread prog) RxToken where
  Inv s ts := RxInv s ts ∧ d.Extra s ts
  Ready := RxToken.Ready d.guarded
  Allowed _ := d.Allowed
  Tolerated _ := False
  Idle _ tok := tok.Free

variable {d prog} {t : Thread} {tok : RxToken}

theorem triple {cmd : RxCommand} (ready : RxToken.Ready d.guarded cmd tok) :
    (d.protocol prog).Triple t tok cmd fun r later => later = RxToken.next cmd r tok := by
  apply Triple.of_outcomes ready
  · rintro s ts r after rfl inv ok ran
    exact ⟨_, ⟨inv.1.step ready ran, d.extra_step inv.1 inv.2 ready ok ran⟩, rfl⟩
  · rintro s ts why rfl inv _ panics
    exact inv.1.no_panic ready panics

theorem valid_step {post : α → RxToken → Prop} {cmd : RxCommand} {next : cmd.Response → RxProgram α}
    (ready : RxToken.Ready d.guarded cmd tok) (rest : ∀ r, (d.protocol prog).Valid t post (next r)
    (RxToken.next cmd r tok)) : (d.protocol prog).Valid t post (step cmd >>= next) tok := by
  refine Valid.command_bind (triple ready) ?_
  rintro r _ rfl
  exact rest r

theorem valid_lastStep {post : RxToken → Prop} {cmd : RxCommand}
    (ready : RxToken.Ready d.guarded cmd tok) (sat : ∀ r, post (RxToken.next cmd r tok)) :
    (d.protocol prog).Valid t (fun _ later => post later) (step cmd) tok := by
  refine Valid.call _ (triple ready) ?_
  rintro r _ rfl
  exact sat r

theorem valid_takePacket (claim : Bool) (i : Nat) (m : Page) : (d.protocol prog).Valid t
      (fun _ later => later = { claim := claim, stage := .ended })
      (takePacket i m) { claim := claim, stage := .found i } := by
  refine valid_step rfl fun _ => ?_
  refine valid_step rfl fun _ => ?_
  refine valid_step rfl fun _ => ?_
  refine valid_step rfl fun _ => ?_
  refine valid_step rfl fun _ => ?_
  refine valid_step rfl fun _ => ?_
  exact valid_lastStep rfl fun _ => rfl

theorem valid_e1000Recv (unlocked : tok.stage.locks = false)
    (claims : d.guarded = true → tok.claim = true) (m : Page) : (d.protocol prog).Valid t
      (fun _ later => later = { claim := tok.claim, stage := .ended })
      (e1000Recv m) tok := by
  refine valid_step ⟨unlocked, claims⟩ fun _ => ?_
  refine valid_step rfl fun (rdt : Nat) => ?_
  refine valid_step rfl fun (status : UInt8) => ?_
  by_cases clear : status &&& e1000RxdStatDd = 0
  · rw [if_pos clear]
    refine valid_lastStep ?_ fun _ => rfl
    simp [RxToken.Ready, RxToken.next, RxInv.afterStatus, clear]
  rw [if_neg clear]
  simp only [RxToken.next, RxInv.afterStatus, if_neg clear]
  exact valid_takePacket tok.claim _ m

variable (d) in
theorem reachable_fits {s : Receiver} (valid : ∀ t call tok, tok.Free →
      (d.protocol prog).Valid t (fun _ later => later.Free) (prog call) tok)
    (inv : RxInv s fun _ : Thread => { claim := false, stage := .idle })
    (extra : d.Extra s fun _ => { claim := false, stage := .idle })
    {pool : Pool (rxSystem Thread prog)}
    (reach : (rxSystem Thread prog).Reachable (fun _ cmd cur => d.Allowed cmd cur)
      ((rxSystem Thread prog).idle s fun _ => ()) pool) :
    ∃ ts, (d.protocol prog).Fits pool ts := by
  have sound : (d.protocol prog).Sound := by
    intro t call _ tok idle
    exact valid t call tok idle
  have fits : (d.protocol prog).Fits ((rxSystem Thread prog).idle s fun _ => ())
      fun _ => { claim := false, stage := .idle } :=
    Protocol.Fits.idle ⟨inv, extra⟩ fun _ => ⟨rfl, rfl⟩
  exact Protocol.reachable_fits sound fits reach

end RxDiscipline

/-! ## Runs -/

theorem RxInv.init {Thread : Type} {pages : Nat → Page}
    (distinct : ∀ i j, i < rxRingSize → j < rxRingSize → pages i = pages j → i = j) :
    RxInv (e1000Init pages) fun _ : Thread => { claim := false, stage := .idle } := by
  have stored : ∀ i, i < rxRingSize → (e1000Init pages).memory (pages i) = some emptyMbuf := by
    intro i bound
    exact if_pos (List.mem_map.mpr ⟨i, List.mem_range.mpr bound, rfl⟩)
  constructor
  case ring =>
    constructor
    case slot => intro k pkt hit; cases hit
    case rdt | rdh | count | order => rfl
    case room | upper => exact Nat.zero_le _
    case lower | behind => exact Nat.le_refl 0
    case full => intro k pkt _ hit; cases hit
    case empty =>
      intro k _ _
      change (0 : UInt8) &&& e1000RxdStatDd = 0
      decide
    case written => intro frame phase; cases phase
  case fits => intro t; trivial
  case lock | claim => exact Exclusive.unheld fun _ => rfl
  case settled => intro _; rfl
  case owned =>
    constructor
    · intro owner page has
      cases owner with
      | slot i =>
        rcases has with ⟨bound, ptr, _⟩
        have eq : pages i = page := ptr
        rw [Receiver.Live, ← eq, stored i bound]
        rfl
      | stack => cases has
    · intro owner o page has oHas
      cases owner with
      | stack => cases has
      | slot i =>
        cases o with
        | stack => cases oHas
        | slot j =>
          have same : pages i = pages j := has.2.1.trans oHas.2.1.symm
          rw [distinct i j has.1 oHas.1 same]
  case nodup => exact List.nodup_nil
  case head => intro i bound _; exact ⟨emptyMbuf, stored i bound, rfl⟩
  case addr => intro i _ _; rfl

/-- A call of `e1000_recv`, one step of the device, or an mbuf freed by the
network stack. -/
inductive RxCall
  | recv (m : Page)
  | write (frame : List UInt8) (fits : frame.length ≤ mbufSize)
  | writeBack
  | advance
  | mbuffree (m : Page)

def RxCall.program : RxCall → RxProgram Unit
  | .recv m => RxProgram.e1000Recv m
  | .write frame _ => RxProgram.step (.write frame)
  | .writeBack => RxProgram.step .writeBack
  | .advance => RxProgram.step .advance
  | .mbuffree m => RxProgram.step (.mbuffree m)

/-- The command comes after `net_rx` and up to the clearing of the status. -/
def RxCommand.recycling : RxCommand → Bool
  | .mbufalloc _ _ | .setAddr _ _ | .clearStatus _ => true
  | _ => false

/-- The packet is delivered and the status not cleared. -/
def RxStage.window : RxStage → Bool
  | .handed _ | .fresh _ _ | .addressed _ => true
  | _ => false

theorem RxStage.window_of_not_locks {stage : RxStage} (unlocked : stage.locks = false) :
    stage.window = false := by
  cases stage with
  | idle | ended => rfl
  | _ => cases unlocked

theorem RxToken.window_of_ready {guarded : Bool} {cmd : RxCommand} {tok : RxToken}
    (ready : RxToken.Ready guarded cmd tok) : tok.stage.window = cmd.recycling := by
  cases cmd with
  | acquire => exact RxStage.window_of_not_locks ready.1
  | write frame => exact RxStage.window_of_not_locks ready.2.2.2
  | arrive frame | writeBack | advance => exact RxStage.window_of_not_locks ready.2.2
  | plicClaim | mbuffree m => exact RxStage.window_of_not_locks ready.2
  | readIcr | plicComplete => rw [ready.2]; rfl
  | _ => rw [show tok.stage = _ from ready]; rfl

/-- Nothing beyond the ring itself. -/
def ringOnly (Thread : Type) [DecidableEq Thread] : RxDiscipline Thread where
  guarded := false
  Extra _ _ := True
  Allowed _ _ := True
  extra_step _ _ _ _ _ := trivial

/-- The receive side at boot. -/
def rxBoot (Thread : Type) {Call : Type} (prog : Call → RxProgram Unit)
    (pages : Nat → Page) : Pool (rxSystem Thread prog) :=
  (rxSystem Thread prog).idle (e1000Init pages) fun _ => ()

section

variable {Thread : Type} [DecidableEq Thread]

theorem valid_rxCall (t : Thread) (call : RxCall) (tok : RxToken) (free : tok.Free) :
    ((ringOnly Thread).protocol RxCall.program).Valid t (fun _ later => later.Free)
    call.program tok := by
  cases call with
  | recv m =>
    apply (RxDiscipline.valid_e1000Recv free.2 (by intro guarded; cases guarded) m).mono
    rintro _ _ rfl
    exact ⟨free.1, rfl⟩
  | write frame fits => exact RxDiscipline.valid_lastStep ⟨rfl, fits, free⟩ fun _ => free
  | writeBack | advance => exact RxDiscipline.valid_lastStep ⟨rfl, free⟩ fun _ => free
  | mbuffree m => exact RxDiscipline.valid_lastStep free fun _ => free

theorem Receiver.mem_undelivered {s : Receiver} {packet : Packet} :
    packet ∈ s.undelivered ↔ ∃ k, s.delivered.length ≤ k ∧ s.stored[k]? = some packet := by
  rw [undelivered, List.mem_iff_getElem?]
  constructor
  · intro found
    rcases found with ⟨j, found⟩
    rw [List.getElem?_drop] at found
    exact ⟨_, Nat.le_add_right _ _, found⟩
  · rintro ⟨k, later, found⟩
    refine ⟨k - s.delivered.length, ?_⟩
    rwa [List.getElem?_drop, Nat.add_sub_cancel' later]

omit [DecidableEq Thread] in
theorem RxInv.status_next {s : Receiver} {ts : Thread → RxToken} (inv : RxInv s ts)
    (outside : ∀ t, (ts t).stage.window = false) :
    (s.rxRing ((s.rdt + 1) % rxRingSize)).status &&& e1000RxdStatDd ≠ 0 ↔
    ∃ packet, packet ∈ s.undelivered ∧ packet.slot = (s.rdt + 1) % rxRingSize := by
  rw [inv.ring.next_slot]
  by_cases clearing : ∃ t i, (ts t).stage = .cleared i
  · rcases clearing with ⟨t, i, stage⟩
    have fits := inv.fits t
    rw [stage] at fits
    rcases fits with ⟨rfl, ahead, clear⟩
    constructor
    · intro set
      exact absurd clear set
    rintro ⟨packet, mem, slot⟩
    rcases Receiver.mem_undelivered.mp mem with ⟨k, later, found⟩
    rw [inv.ring.slot k packet found] at slot
    exact absurd slot (inv.ring.slot_ne ahead later found)
  · have settled : s.delivered.length = s.returned := by
      apply inv.settled
      intro t
      have not := outside t
      cases stage : (ts t).stage with
      | handed i | fresh i m | addressed i => rw [stage] at not; cases not
      | cleared i => exact absurd ⟨t, i, stage⟩ clearing
      | _ => rfl
    rw [inv.ring.status_next settled]
    constructor
    · intro waiting
      have found := List.getElem?_eq_getElem waiting
      refine ⟨_, Receiver.mem_undelivered.mpr ⟨_, le_rfl, found⟩, ?_⟩
      rw [inv.ring.slot _ _ found, settled]
    · rintro ⟨packet, mem, _⟩
      rcases Receiver.mem_undelivered.mp mem with ⟨k, later, found⟩
      exact lt_of_le_of_lt later (getElem?_lt found)

/-- Packets reach `net_rx` in the order and with the bytes in which the device
stored them, the device writes to no mbuf that the network stack has, and, except
between `net_rx` and the clearing of the status, `DD` of the next descriptor is
set if and only if that descriptor holds an undelivered packet. -/
theorem received_in_order {pages : Nat → Page}
    (distinct : ∀ i j, i < rxRingSize → j < rxRingSize → pages i = pages j → i = j)
    {pool : Pool (rxSystem Thread RxCall.program)}
    (reach : (rxSystem Thread RxCall.program).Reachable
      (rxSystem Thread RxCall.program).always (rxBoot Thread RxCall.program pages) pool) :
    (∃ rest, pool.state.stored.map Packet.frame = pool.state.delivered ++ rest) ∧
    (∀ frame after, pool.state.writeFrame frame = .ok after →
      ∀ page, page ∈ pool.state.handed → after.memory page = pool.state.memory page) ∧
    ((∀ t cmd next, pool.threads t = .call cmd next → cmd.recycling = false) →
      ((pool.state.rxRing ((pool.state.rdt + 1) % rxRingSize)).status &&& e1000RxdStatDd ≠ 0 ↔
        ∃ packet, packet ∈ pool.state.undelivered ∧
          packet.slot = (pool.state.rdt + 1) % rxRingSize)) := by
  rcases (ringOnly Thread).reachable_fits valid_rxCall (RxInv.init distinct) trivial
    reach with ⟨ts, fits⟩
  have inv : RxInv pool.state ts := fits.1.1
  refine ⟨?_, ?_, ?_⟩
  · refine ⟨(pool.state.stored.drop pool.state.delivered.length).map Packet.frame, ?_⟩
    rw [inv.ring.order, List.length_map, List.length_take,
      min_eq_left inv.ring.behind, ← List.map_append, List.take_append_drop]
  · intro frame after wrote page mem
    rcases Receiver.writeFrame_eq_ok wrote with ⟨phase, _, mbuf, _, rfl⟩
    apply update_of_ne
    intro same
    rw [same] at mem
    exact inv.device_page_not_handed (by rw [phase]; rfl) mem
  · intro outside
    apply inv.status_next
    intro t
    cases cur : pool.threads t with
    | done value => exact RxStage.window_of_not_locks (fits.idle_of_done cur).2
    | call cmd next =>
      rw [RxToken.window_of_ready (fits.ready cur)]
      exact outside t cmd next cur

end

/-- The device stores two packets and the driver receives one of them. -/
def twoStored : List (System.Event Unit RxCall) :=
  [.start () (.write [1, 2, 3] (by decide)), .finish (), .start () .writeBack, .finish (),
    .start () .advance, .finish (), .start () (.write [4] (by decide)), .finish (),
    .start () .writeBack, .finish (), .start () .advance, .finish (),
    .start () (.recv 16), .finish ()]

theorem received_in_order_stored : ∃ pool : Pool (rxSystem Unit RxCall.program),
    pool.state.delivered = [[1, 2, 3]] ∧
    (∃ rest, pool.state.stored.map Packet.frame = pool.state.delivered ++ rest) ∧
    ((pool.state.rxRing ((pool.state.rdt + 1) % rxRingSize)).status &&& e1000RxdStatDd ≠ 0 ↔
      ∃ packet, packet ∈ pool.state.undelivered ∧
        packet.slot = (pool.state.rdt + 1) % rxRingSize) ∧
    pool.state.undelivered.map Packet.frame = [[4]] := by
  have found : (System.replay (rxBoot Unit RxCall.program fun i => i) twoStored).map
      (fun pool => (System.valueOf pool (), pool.state.delivered,
        pool.state.undelivered.map Packet.frame)) = some (some (), [[1, 2, 3]], [[4]]) := by
    decide +kernel
  rcases System.exists_of_replay found with ⟨pool, reach, values⟩
  simp only [Prod.mk.injEq] at values
  rcases values with ⟨idle, delivered, waiting⟩
  have isDone := System.done_of_valueOf idle
  have holds := received_in_order (fun _ _ _ _ eq => eq)
    reach
  refine ⟨pool, delivered, holds.1, holds.2.2 ?_, waiting⟩
  intro _ cmd next isCall
  cases isDone.symm.trans isCall

/-- The device stores a packet and the driver hands it to the network stack, as
far as the call of `mbufalloc`. -/
def onePacketTaken : List (System.Event Unit RxCall) :=
  [.start () (.write [1, 2, 3] (by decide)), .finish (), .start () .writeBack, .finish (),
    .start () .advance, .finish (), .start () (.recv 16)] ++ List.replicate 5 (.step ())

/-- After `net_rx` the descriptor still has `DD` set, though its packet has been
delivered. -/
theorem delivered_packet_marked : ∃ pool, (rxSystem Unit RxCall.program).Reachable
        (rxSystem Unit RxCall.program).always (rxBoot Unit RxCall.program fun i => i) pool ∧
      (pool.state.rxRing ((pool.state.rdt + 1) % rxRingSize)).status &&& e1000RxdStatDd ≠ 0 ∧
      ¬∃ packet, packet ∈ pool.state.undelivered ∧
        packet.slot = (pool.state.rdt + 1) % rxRingSize := by
  have found : (System.replay (rxBoot Unit RxCall.program fun i => i)
      onePacketTaken).map (fun pool =>
        ((pool.state.rxRing ((pool.state.rdt + 1) % rxRingSize)).status &&&
          e1000RxdStatDd, pool.state.undelivered)) = some (1, []) := by
    decide +kernel
  rcases System.exists_of_replay found with ⟨pool, reach, values⟩
  rcases Prod.mk.inj values with ⟨status, none⟩
  refine ⟨pool, reach, ?_, ?_⟩
  · rw [status]
    decide
  · rintro ⟨packet, mem, _⟩
    rw [none] at mem
    cases mem

end Xv6
