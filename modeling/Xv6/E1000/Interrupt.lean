import Xv6.E1000.ReceiveOrder

/-! # The receive interrupt

`e1000_intr` takes one packet, or none, and then reads `ICR`, which withdraws the
interrupt for every packet that has arrived so far. -/

namespace Xv6

open Foundation Function Receiver RxDiscipline

/-- A packet arrives when every packet before it has been delivered, and the
driver has not tested a descriptor since it last read `ICR`. -/
def RxCommand.OneByOne (s : Receiver) : RxCommand → Prop
  | .arrive _ => s.undelivered = [] ∧ s.tested = false
  | _ => True

instance (s : Receiver) (cmd : RxCommand) : Decidable (cmd.OneByOne s) := by
  cases cmd <;> unfold RxCommand.OneByOne <;> infer_instance

/-- The commands of `e1000_intr`. -/
def RxCommand.inHandler : RxCommand → Bool
  | .acquire | .release | .readRdt | .readStatus _ | .setLen _ | .netRx _
  | .mbufalloc _ _ | .setAddr _ _ | .clearStatus _ | .writeRdt _ | .readIcr => true
  | _ => false

/-- The thread has found a packet and not yet delivered it. -/
def RxStage.delivers : RxStage → Bool
  | .found _ | .sized _ => true
  | _ => false

/-- The thread has tested a descriptor, and not read `ICR` since. -/
def RxStage.pastTest : RxStage → Bool
  | .idle | .locked | .checking _ => false
  | _ => true

/-- At most one packet waits, and while it does the cause is set and the handler
has still to look for it or is about to deliver it. -/
structure Attended {Thread : Type} (s : Receiver) (ts : Thread → RxToken) :
    Prop where
  handler : ∀ t, (ts t).stage ≠ .idle → (ts t).claim = true
  one : s.stored.length ≤ s.delivered.length + 1
  pending : s.delivered.length < s.stored.length → s.icr = true
  past : ∀ t, (ts t).stage.pastTest = true → s.tested = true
  delivering : s.tested = true → s.delivered.length < s.stored.length →
    ∃ t, (ts t).stage.delivers = true

namespace Attended

variable {Thread : Type} {s after : Receiver} {ts : Thread → RxToken} {t : Thread} {tok : RxToken}

theorem locks_of_delivers {stage : RxStage} (delivers : stage.delivers = true) :
    stage.locks = true := by
  cases stage with
  | found i | sized i => rfl
  | _ => cases delivers

theorem all_delivered (heeds : Attended s ts) (inv : RxInv s ts) (claim : (ts t).claim = true)
    (ended : (ts t).stage = .ended) : s.stored.length ≤ s.delivered.length := by
  by_contra waits
  have tested := heeds.past t (by rw [ended]; rfl)
  rcases heeds.delivering tested (by omega) with ⟨o, delivers⟩
  have oClaim : (ts o).claim = true := by
    apply heeds.handler o
    intro idle
    rw [idle] at delivers
    cases delivers
  have same := inv.claim.alone o t oClaim claim
  rw [same, ended] at delivers
  cases delivers

variable [DecidableEq Thread]

theorem update (heeds : Attended s ts) (handler : tok.stage ≠ .idle → tok.claim = true)
    (stored : after.stored = s.stored) (sent : after.delivered = s.delivered)
    (icr : s.delivered.length < s.stored.length → after.icr = true)
    (past : ∀ o, o ≠ t → (ts o).stage.pastTest = true → after.tested = true)
    (own : tok.stage.pastTest = true → after.tested = true)
    (delivering : after.tested = true → s.delivered.length < s.stored.length →
      tok.stage.delivers = true ∨ ∃ o, o ≠ t ∧ (ts o).stage.delivers = true) :
    Attended after (Function.update ts t tok) where
  handler := by
    intro o notIdle
    by_cases same : o = t
    · rw [same, update_self] at notIdle ⊢
      exact handler notIdle
    · rw [update_of_ne same] at notIdle ⊢
      exact heeds.handler o notIdle
  one := by
    rw [stored, sent]
    exact heeds.one
  pending := by rwa [stored, sent]
  past := by
    intro o isPast
    by_cases same : o = t
    · rw [same, update_self] at isPast
      exact own isPast
    · rw [update_of_ne same] at isPast
      exact past o same isPast
  delivering := by
    rw [stored, sent]
    intro tested waits
    rcases delivering tested waits with mine | ⟨o, ne, delivers⟩
    · exact ⟨t, by rw [update_self]; exact mine⟩
    · exact ⟨o, by rw [update_of_ne ne]; exact delivers⟩

theorem inside (heeds : Attended s ts) (handler : tok.stage ≠ .idle → tok.claim = true)
    (stored : after.stored = s.stored) (sent : after.delivered = s.delivered)
    (icr : after.icr = s.icr) (tested : after.tested = s.tested)
    (past : tok.stage.pastTest = true → (ts t).stage.pastTest = true)
    (delivers : (ts t).stage.delivers = true → tok.stage.delivers = true) :
    Attended after (Function.update ts t tok) := by
  apply heeds.update handler stored sent
  · rw [icr]
    exact heeds.pending
  · rw [tested]
    exact fun o _ => heeds.past o
  · rw [tested]
    exact fun isPast => heeds.past t (past isPast)
  rw [tested]
  intro isTested waits
  rcases heeds.delivering isTested waits with ⟨o, oDelivers⟩
  by_cases same : o = t
  · rw [same] at oDelivers
    exact Or.inl (delivers oDelivers)
  · exact Or.inr ⟨o, same, oDelivers⟩

theorem step (heeds : Attended s ts) (inv : RxInv s ts) {cmd : RxCommand} {r : cmd.Response}
    (ready : RxToken.Ready true cmd (ts t)) (allowed : cmd.OneByOne s)
    (ran : s.exec cmd = .ok (r, after)) : Attended after (Function.update ts t
    (RxToken.next cmd r (ts t))) := by
  -- Inside `e1000_recv` the thread has claimed the interrupt.
  have claimed : ∀ {stage}, (ts t).stage = stage → stage ≠ .idle → (ts t).claim = true := by
    intro stage eq notIdle
    apply heeds.handler t
    rwa [eq]
  cases cmd with
  | acquire =>
    cases free : s.e1000Lock2 with
    | true => simp [exec, free] at ran
    | false =>
      simp only [exec, free, Bool.false_eq_true, if_false, Outcome.ok.injEq]
        at ran
      cases ran
      refine heeds.inside (fun _ => ready.2 rfl) rfl rfl rfl rfl ?_ ?_
      · rintro ⟨⟩
      intro delivers
      have locks := locks_of_delivers delivers
      rw [ready.1] at locks
      cases locks
  | release =>
    cases ran
    have stage : (ts t).stage = .leaving := ready
    exact heeds.inside (fun _ => claimed stage (by simp)) rfl rfl rfl rfl
      (fun _ => by rw [stage]; rfl) fun delivers => by rw [stage] at delivers; cases delivers
  | readRdt =>
    cases ran
    have stage : (ts t).stage = .locked := ready
    exact heeds.inside (fun _ => claimed stage (by simp)) rfl rfl rfl rfl
      (fun past => by cases past) fun delivers => by rw [stage] at delivers; cases delivers
  | readStatus i =>
    cases ran
    have stage : (ts t).stage = .checking i := ready
    have fits := inv.fits t
    rw [stage] at fits
    rcases fits with ⟨rfl, settled⟩
    apply heeds.update
    · exact fun _ => claimed stage (by simp)
    · rfl
    · rfl
    · exact heeds.pending
    · intro _ _ _
      rfl
    · intro _
      rfl
    -- A packet that waits is in this descriptor, so the test finds it.
    intro _ waits
    left
    have set := (inv.ring.status_next settled).mpr waits
    simp only [RxToken.next, RxInv.afterStatus, if_neg set]
    rfl
  | setLen i =>
    have stage : (ts t).stage = .found i := ready
    cases stored : s.memory (s.rxMbufs i) with
    | none => simp [exec, stored] at ran
    | some mbuf =>
      simp only [exec, stored, Outcome.ok.injEq] at ran
      cases ran
      exact heeds.inside (fun _ => claimed stage (by simp)) rfl rfl rfl rfl
        (fun _ => by rw [stage]; rfl) fun _ => rfl
  | netRx i =>
    have stage : (ts t).stage = .sized i := ready
    cases stored : s.memory (s.rxMbufs i) with
    | none => simp [exec, stored] at ran
    | some mbuf =>
      simp only [exec, stored, Outcome.ok.injEq] at ran
      cases ran
      have one := heeds.one
      have longer : (s.deliver i mbuf).delivered.length = s.delivered.length + 1 := by
        simp [deliver]
      have none : ¬(s.deliver i mbuf).delivered.length < (s.deliver i mbuf).stored.length := by
        rw [longer]
        exact not_lt.mpr one
      refine ⟨?_, ?_, fun waits => absurd waits none, ?_, fun _ waits => absurd waits none⟩
      · intro o notIdle
        by_cases here : o = t
        · rw [here, update_self]
          exact claimed stage (by simp)
        · rw [update_of_ne here] at notIdle ⊢
          exact heeds.handler o notIdle
      · rw [longer]
        change s.stored.length ≤ _
        omega
      · intro o past
        by_cases here : o = t
        · exact heeds.past t (by rw [stage]; rfl)
        · rw [update_of_ne here] at past
          exact heeds.past o past
  | mbufalloc i m =>
    have stage : (ts t).stage = .handed i := ready
    cases stored : s.memory m with
    | some o => simp [exec, stored] at ran
    | none =>
      simp only [exec, stored, Outcome.ok.injEq] at ran
      cases ran
      exact heeds.inside (fun _ => claimed stage (by simp)) rfl rfl rfl rfl
        (fun _ => by rw [stage]; rfl)
        fun delivers => by rw [stage] at delivers; cases delivers
  | setAddr i m =>
    have stage : (ts t).stage = .fresh i m := ready
    cases stored : s.memory m with
    | none => simp [exec, stored] at ran
    | some mbuf =>
      simp only [exec, stored, Outcome.ok.injEq] at ran
      cases ran
      exact heeds.inside (fun _ => claimed stage (by simp)) rfl rfl rfl rfl
        (fun _ => by rw [stage]; rfl)
        fun delivers => by rw [stage] at delivers; cases delivers
  | clearStatus i =>
    cases ran
    have stage : (ts t).stage = .addressed i := ready
    exact heeds.inside (fun _ => claimed stage (by simp)) rfl rfl rfl rfl
      (fun _ => by rw [stage]; rfl) fun delivers => by rw [stage] at delivers; cases delivers
  | writeRdt i =>
    cases ran
    have stage : (ts t).stage = .cleared i := ready
    exact heeds.inside (fun _ => claimed stage (by simp)) rfl rfl rfl rfl
      (fun _ => by rw [stage]; rfl) fun delivers => by rw [stage] at delivers; cases delivers
  | readIcr =>
    cases ran
    have none := heeds.all_delivered inv ready.1 ready.2
    apply heeds.update
    · exact fun notIdle => absurd rfl notIdle
    · rfl
    · rfl
    · intro waits
      omega
    · intro o ne past
      have oClaim := heeds.handler o (by
        intro idle
        rw [idle] at past
        cases past)
      exact absurd (inv.claim.alone o t oClaim ready.1) ne
    · rintro ⟨⟩
    · rintro ⟨⟩
  | plicClaim =>
    cases free : s.claimed with
    | true => simp [exec, free] at ran
    | false =>
      simp only [exec, free, Bool.false_eq_true, if_false, Outcome.ok.injEq]
        at ran
      cases ran
      refine heeds.inside (fun notIdle => absurd rfl notIdle) rfl rfl rfl rfl ?_ ?_
      · rintro ⟨⟩
      intro delivers
      have locks := locks_of_delivers delivers
      rw [ready.2] at locks
      cases locks
  | plicComplete =>
    cases ran
    refine heeds.inside (fun notIdle => absurd rfl notIdle) rfl rfl rfl rfl ?_ ?_
    · rintro ⟨⟩
    · intro delivers
      rw [ready.2] at delivers
      cases delivers
  | write frame | writeBack | advance => cases ready.1
  | arrive frame =>
    cases wrote : s.writeFrame frame with
    | panic why | blocked => simp [exec, wrote] at ran
    | ok out =>
      simp only [exec, wrote, Outcome.ok.injEq] at ran
      cases ran
      rcases writeFrame_eq_ok wrote with ⟨_, _, mbuf, _, rfl⟩
      rw [RxToken.next, update_eq_self]
      rcases allowed with ⟨none, untested⟩
      have all : s.stored.length ≤ s.delivered.length := List.drop_eq_nil_iff.mp none
      refine ⟨heeds.handler, ?_, fun _ => rfl, heeds.past, ?_⟩
      · change (s.stored ++ [_]).length ≤ s.delivered.length + 1
        simpa using all
      intro tested
      change s.tested = true at tested
      rw [untested] at tested
      cases tested
  | mbuffree m =>
    by_cases mem : m ∈ s.handed
    · simp only [exec, if_pos mem, Outcome.ok.injEq] at ran
      cases ran
      exact heeds.inside (heeds.handler t) rfl rfl rfl rfl id id
    · simp [exec, mem] at ran

end Attended

/-! ## Runs -/

/-- An interrupt that is served, with the page that `mbufalloc` will return, a
packet that arrives, or an mbuf freed by the network stack. -/
inductive IntrCall
  | devintr (m : Page)
  | arrive (frame : List UInt8) (fits : frame.length ≤ mbufSize)
  | mbuffree (m : Page)

def IntrCall.program : IntrCall → RxProgram Unit
  | .devintr m => RxProgram.devintr m
  | .arrive frame _ => RxProgram.step (.arrive frame)
  | .mbuffree m => RxProgram.step (.mbuffree m)

section

variable {Thread : Type} [DecidableEq Thread]

/-- Interrupts with packets that come one by one. -/
def oneByOne (Thread : Type) [DecidableEq Thread] : RxDiscipline Thread where
  guarded := true
  Extra := Attended
  Allowed cmd s := cmd.OneByOne s
  extra_step inv attended ready allowed ran :=
    attended.step inv ready allowed ran

theorem valid_intrCall (t : Thread) (call : IntrCall) (tok : RxToken) (free : tok.Free) :
    ((oneByOne Thread).protocol IntrCall.program).Valid t (fun _ later => later.Free)
    call.program tok := by
  cases call with
  | devintr m =>
    refine valid_step free fun _ => ?_
    refine Protocol.Valid.bind (fun _ later => later = { claim := true, stage := .idle }) ?_ ?_
    · refine Protocol.Valid.bind _ (valid_e1000Recv rfl (fun _ => rfl) m) ?_
      rintro _ _ rfl
      exact valid_lastStep ⟨rfl, rfl⟩ fun _ => rfl
    · rintro _ _ rfl
      exact valid_lastStep ⟨rfl, rfl⟩ fun _ => ⟨rfl, rfl⟩
  | arrive frame fits => exact valid_lastStep ⟨fits, free⟩ fun _ => free
  | mbuffree m => exact valid_lastStep free fun _ => free

omit [DecidableEq Thread] in
theorem Attended.idle_of_free {s : Receiver} {ts : Thread → RxToken}
    (heeds : Attended s ts) {t : Thread} (free : (ts t).Free) : (ts t).stage = .idle := by
  by_contra notIdle
  have claim := heeds.handler t notIdle
  rw [free.1] at claim
  cases claim

omit [DecidableEq Thread] in
theorem Attended.idle_of_ready {s : Receiver} {ts : Thread → RxToken}
    (heeds : Attended s ts) {t : Thread} {cmd : RxCommand} (ready : RxToken.Ready true cmd (ts t))
    (outside : cmd.inHandler = false) : (ts t).stage = .idle := by
  cases cmd with
  | plicComplete => exact ready.2
  | write frame => exact heeds.idle_of_free ready.2.2
  | writeBack | advance | arrive frame => exact heeds.idle_of_free ready.2
  | plicClaim | mbuffree m => exact heeds.idle_of_free ready
  | _ => cases outside

/-- When packets come one by one, none is left waiting without an interrupt:
whenever no thread is in the handler and the cause is clear, the next descriptor
has `DD` clear. -/
theorem packets_attended {pages : Nat → Page}
    (distinct : ∀ i j, i < rxRingSize → j < rxRingSize → pages i = pages j → i = j)
    {pool : Pool (rxSystem Thread IntrCall.program)}
    (reach : (rxSystem Thread IntrCall.program).Reachable (fun _ cmd s => RxCommand.OneByOne s cmd)
      (rxBoot Thread IntrCall.program pages) pool)
    (outside : ∀ t cmd next, pool.threads t = .call cmd next → RxCommand.inHandler cmd = false)
    (quiet : pool.state.icr = false) :
    (pool.state.rxRing ((pool.state.rdt + 1) % rxRingSize)).status &&& e1000RxdStatDd = 0 := by
  have start : Attended (Receiver.e1000Init pages)
      fun _ : Thread => { claim := false, stage := .idle } := by
    refine ⟨fun _ notIdle => absurd rfl notIdle, Nat.zero_le _, ?_, ?_, ?_⟩
    · rintro ⟨⟩
    · rintro _ ⟨⟩
    · rintro ⟨⟩
  rcases (oneByOne Thread).reachable_fits valid_intrCall (RxInv.init distinct) start
    reach with ⟨ts, fits⟩
  have inv : RxInv pool.state ts := fits.1.1
  have attended : Attended pool.state ts := fits.1.2
  have idle : ∀ t, (ts t).stage = .idle := by
    intro t
    cases cur : pool.threads t with
    | done value => exact attended.idle_of_free (fits.idle_of_done cur)
    | call cmd next =>
      exact attended.idle_of_ready (fits.ready cur) (outside t cmd next cur)
  have settled : pool.state.delivered.length = pool.state.returned := by
    apply inv.settled
    intro t
    rw [idle t]
    rfl
  rw [inv.ring.next_slot]
  by_contra set
  have waiting := (inv.ring.status_next settled).mp set
  have cause := attended.pending waiting
  rw [quiet] at cause
  cases cause

end

/-- Two packets arrive, each of which is served before the next. -/
def servedPackets : List (System.Event Unit IntrCall) :=
  [.start () (.arrive [1] (by decide)), .step (), .start () (.devintr 16)] ++
  List.replicate 13 (.step ()) ++
  [.start () (.arrive [2] (by decide)), .step (), .start () (.devintr 17)] ++
  List.replicate 13 (.step ())

theorem packets_attended_served : ∃ pool : Pool (rxSystem Unit IntrCall.program),
    pool.threads () = .done () ∧ pool.state.delivered = [[1], [2]] ∧
    (pool.state.rxRing ((pool.state.rdt + 1) % rxRingSize)).status &&& e1000RxdStatDd = 0 := by
  have found : (System.replayTested (fun _ (cmd : RxCommand) s => decide (cmd.OneByOne s))
      (rxBoot Unit IntrCall.program fun i => i) servedPackets).map (fun pool =>
        (System.valueOf pool (), pool.state.delivered, pool.state.icr)) =
      some (some (), [[1], [2]], false) := by decide +kernel
  rcases Option.map_eq_some_iff.mp found with ⟨pool, replayed, values⟩
  simp only [Prod.mk.injEq] at values
  rcases values with ⟨idle, delivered, quiet⟩
  have isDone := System.done_of_valueOf idle
  refine ⟨pool, isDone, delivered, packets_attended (fun _ _ _ _ eq => eq) ?_ ?_ quiet⟩
  · exact System.Reachable.initial.replayTested
      (fun _ _ _ _ passes => by simpa using passes) _ replayed
  · intro _ cmd next isCall
    cases isDone.symm.trans isCall

/-- Two packets arrive before the handler runs once. -/
def twoPackets : List (System.Event Unit IntrCall) :=
  [.start () (.arrive [1] (by decide)), .finish (), .start () (.arrive [2] (by decide)),
    .finish (), .start () (.devintr 16), .finish ()]

/-- The second packet is left in the ring with no interrupt to deliver it. -/
theorem second_packet_stranded : ∃ pool, (rxSystem Unit IntrCall.program).Reachable
        (rxSystem Unit IntrCall.program).always (rxBoot Unit IntrCall.program fun i => i) pool ∧
      (∃ value, pool.threads () = .done value) ∧ pool.state.icr = false ∧
      (pool.state.rxRing ((pool.state.rdt + 1) % rxRingSize)).status &&& e1000RxdStatDd ≠ 0 ∧
      pool.state.undelivered.map Packet.frame = [[2]] := by
  have found : (System.replay (rxBoot Unit IntrCall.program fun i => i) twoPackets).map
      (fun pool => (System.valueOf pool (), pool.state.icr,
        (pool.state.rxRing ((pool.state.rdt + 1) % rxRingSize)).status &&& e1000RxdStatDd,
        pool.state.undelivered.map Packet.frame)) = some (some (), false, 1, [[2]]) := by
    decide +kernel
  rcases System.exists_of_replay found with ⟨pool, reach, values⟩
  simp only [Prod.mk.injEq] at values
  rcases values with ⟨idle, quiet, status, waiting⟩
  refine ⟨pool, reach,
    ⟨_, System.done_of_valueOf idle⟩, quiet, ?_, waiting⟩
  rw [status]
  decide

end Xv6
