import Xv6.E1000.TransmitOwnership

/-! # Packets are transmitted once and in order

`e1000_transmit` only looks at the `DD` bit of the descriptor at `TDT`, and that
bit is set from the start and never cleared. So the driver relies on the device
to keep up: where it does, the ring keeps its promise, and where it does not,
packets are lost and mbufs are freed under the device. -/

namespace Xv6

open Foundation Function Protocol List Outcome Transmitter Triple TxCommand TxProgram Valid

/-- At the test of the descriptor, fewer than `TX_RING_SIZE` accepted packets are
unfinished, and fewer than `TX_RING_SIZE - 1` are not yet taken by the device. -/
def TxCommand.KeepsUp (s : Transmitter) : TxCommand → Prop
  | .readStatus _ => s.HasRoom
  | _ => True

instance (s : Transmitter) (cmd : TxCommand) : Decidable (cmd.KeepsUp s) := by
  cases cmd <;> unfold TxCommand.KeepsUp <;> try unfold HasRoom
  all_goals infer_instance

/-- The command writes to a descriptor, or frees an mbuf, that the device has not
finished with. -/
def TxCommand.Clobbers (s : Transmitter) : TxCommand → Prop
  | .store i _ => ∃ request, request ∈ s.unfinished ∧ request.slot = i
  | .mbuffree m => ∃ request, request ∈ s.unfinished ∧ request.addr.page = m
  | _ => False

/-- A thread tests the descriptor it has found at `TDT`, comes to a store with the
slot taken over, and frees pages of its own only. -/
def TxToken.Ready : TxCommand → TxToken → Prop
  | .readStatus i, tok => ∃ m mbuf, tok = .checking m mbuf i
  | .store i _, tok => tok.refills = some i
  | .mbuffree m, tok => m ∈ tok.pages
  | _, _ => True

variable {Thread : Type}

def txProtocol (Thread : Type) : Protocol (txSystem Thread) TxToken where
  Inv := TxInv
  Ready := TxToken.Ready
  Allowed _ command s := command.KeepsUp s
  Tolerated _ := False
  Idle _ tok := tok = .idle

theorem TxInv.not_clobbers {s : Transmitter} {ts : Thread → TxToken} (inv : TxInv s ts)
    {t : Thread} {cmd : TxCommand} (ready : TxToken.Ready cmd (ts t)) : ¬cmd.Clobbers s := by
  have pos : ∀ {req}, req ∈ s.unfinished → ∃ k, s.finished ≤ k ∧ s.accepted[k]? = some req := by
    intro req mem
    rcases mem_iff_getElem?.mp mem with ⟨j, hit⟩
    rw [unfinished, getElem?_drop] at hit
    exact ⟨s.finished + j, Nat.le_add_right _ _, hit⟩
  cases cmd with
  | store i what =>
    intro clobbers
    rcases clobbers with ⟨req, mem, rfl⟩
    rcases pos mem with ⟨k, later, hit⟩
    apply inv.unfinished_free later hit t
    rwa [← inv.ring.slot k req hit]
  | mbuffree m =>
    rintro ⟨req, mem, rfl⟩
    rcases pos mem with ⟨k, later, hit⟩
    exact inv.unfinished_not_held later hit t ready
  | _ => exact id

theorem TxRing.no_room {s : Transmitter}
    (ring : TxRing s) (none : ¬s.HasRoom) : (∃ req, req ∈ s.unfinished ∧ req.slot = s.tdt) ∨
    (s.tdt + 1) % txRingSize = s.tdh ∧ s.taken < s.accepted.length := by
  have unfinished := ring.unfinished
  have untaken := ring.untaken
  have tail := ring.tdt
  have head := ring.tdh
  simp only [Transmitter.HasRoom, txRingSize_eq] at none unfinished untaken tail head ⊢
  by_cases full : s.accepted.length = s.finished + 16
  · left
    have isIn : s.finished < s.accepted.length := by omega
    refine ⟨s.accepted[s.finished], ?_, ?_⟩
    · rw [Transmitter.unfinished, drop_eq_getElem_cons isIn]
      exact mem_cons_self
    · rw [ring.slot _ _ (getElem?_eq_getElem isIn), txRingSize_eq]
      omega
  · right
    omega

/-! ## Commands -/

section

variable [DecidableEq Thread] {t : Thread} {m : Page} {mbuf : Mbuf} {work : Filling}

theorem triple_mbufalloc (small : mbuf.len < 2 ^ 16) : (txProtocol Thread).Triple
    t .idle (mbufalloc m mbuf) fun _ later => later = .packet m mbuf := by
  apply of_outcomes trivial
  · intro s ts r s' h inv _ ran
    cases unused : s.memory m with
    | some o => simp [txSystem, exec, unused] at ran
    | none =>
      simp only [txSystem, exec, unused, ok.injEq] at ran
      cases ran
      exact ⟨_, inv.mbufalloc h unused small, rfl⟩
  · intro s ts why _ _ _ panics
    cases unused : s.memory m <;> simp [txSystem, exec, unused] at panics

theorem triple_mbuffree {tok next : TxToken} (own : m ∈ tok.pages)
    (pages : ∀ page, tok.pages.Nodup → page ∈ next.pages → page ∈ tok.pages ∧ page ≠ m)
    (nodup : tok.pages.Nodup → next.pages.Nodup)
    (refills : next.refills = tok.refills) (locks : next.locks = tok.locks)
    (fits : ∀ s : Transmitter, tok.pages.Nodup → tok.Fits s →
      next.Fits { s with memory := update s.memory m none }) :
    (txProtocol Thread).Triple t tok (mbuffree m) fun _ later => later = next := by
  apply of_outcomes own
  · rintro s ts r s' rfl inv _ ran
    have once := inv.nodup t
    cases stored : s.memory m with
    | none => simp [txSystem, exec, stored] at ran
    | some o =>
      simp only [txSystem, exec, stored, ok.injEq] at ran
      cases ran
      exact ⟨_, inv.mbuffree own (fun page mem => pages page once mem)
        (nodup once) refills locks (fits s once (inv.fits t)), rfl⟩
  · rintro s ts why rfl inv _ panics
    have live := inv.owned.live (.thread t) m own
    cases stored : s.memory m with
    | none => simp [Transmitter.Live, stored] at live
    | some o => simp [txSystem, exec, stored] at panics

theorem triple_freeLast {last : Page} (old : work.old = some last) :
    (txProtocol Thread).Triple t (.filling work) (mbuffree last)
      fun _ later => later = .filling { work with old := none } := by
  have pages : (TxToken.filling work).pages = [work.m, last] := by
    rw [TxToken.pages, old]
    rfl
  apply triple_mbuffree
  · rw [pages]
    simp
  · intro page once mem
    rw [pages] at once ⊢
    rcases mem_singleton.mp mem with rfl
    exact ⟨mem_cons_self, by simpa using once⟩
  · intro _
    exact nodup_singleton _
  · rfl
  · rfl
  · intro s once fits
    rw [pages] at once
    rcases fits with ⟨prep, rest⟩
    refine ⟨⟨?_, prep.2⟩, rest⟩
    rw [← prep.1]
    exact update_of_ne (by simpa using once) _ _

theorem triple_acquire : (txProtocol Thread).Triple
    t (.packet m mbuf) acquire fun _ later => later = .locked m mbuf := by
  apply of_outcomes trivial
  · intro s ts r s' h inv _ ran
    cases free : s.e1000Lock with
    | true => simp [txSystem, exec, free] at ran
    | false =>
      simp only [txSystem, exec, free, Bool.false_eq_true, if_false, ok.injEq] at ran
      cases ran
      exact ⟨_, inv.acquire h free, rfl⟩
  · intro s ts why _ _ _ panics
    cases free : s.e1000Lock <;> simp [txSystem, exec, free] at panics

theorem triple_release :
    (txProtocol Thread).Triple t .leaving release fun _ later => later = .idle := by
  apply of_outcomes trivial
  · intro s ts r s' h inv _ ran
    cases ran
    have fits : TxToken.idle.Fits { s with e1000Lock := false } := trivial
    exact ⟨_, inv.release (by rw [h]; rfl) rfl fits (by rw [h]; rfl) (by rw [h]; rfl), rfl⟩
  · rintro s ts why _ _ _ ⟨⟩

theorem triple_readTdt : (txProtocol Thread).Triple
    t (.locked m mbuf) readTdt fun slot later => later = .checking m mbuf slot := by
  apply of_outcomes trivial
  · intro s ts r s' h inv _ ran
    cases ran
    exact ⟨_, inv.readTdt h, rfl⟩
  · rintro s ts why _ _ _ ⟨⟩

theorem triple_readStatus {slot : Nat} : (txProtocol Thread).Triple t (.checking m mbuf slot)
    (readStatus slot) fun (status : UInt8) later => status &&& e1000TxdStatDd ≠ 0 ∧
    ∃ desc stash, later = .filling ⟨m, mbuf, slot, desc, stash, stash⟩ := by
  refine of_outcomes ?_ ?_ ?_
  · exact ⟨m, mbuf, rfl⟩
  · intro s ts r after h inv room ran
    cases ran
    have fits := inv.fits t
    rw [h] at fits
    rcases fits.2 with rfl
    exact ⟨_, inv.readStatus h room, inv.ring.done _, _, _, rfl⟩
  · rintro s ts why _ _ _ ⟨⟩

theorem triple_readTxMbufs : (txProtocol Thread).Triple t (.filling work)
    (readTxMbufs work.slot) fun last later => last = work.stash ∧ later = .filling work := by
  apply of_outcomes trivial
  · intro s ts r s' h inv _ ran
    cases ran
    have fits := inv.fits t
    rw [h] at fits
    rcases fits with ⟨_, number, _, stashed, _⟩
    refine ⟨ts t, by rw [update_eq_self]; exact inv, ?_, h⟩
    rw [number, stashed]
  · rintro s ts why _ _ _ ⟨⟩

theorem triple_readNext : (txProtocol Thread).Triple
    t (.filling work) (readNext work.m) fun _ later => later = .filling work := by
  apply of_outcomes trivial
  · intro s ts r s' h inv _ ran
    have fits := inv.fits t
    rw [h] at fits
    simp only [txSystem, exec, fits.1.1, ok.injEq] at ran
    cases ran
    exact ⟨ts t, by rw [update_eq_self]; exact inv, h⟩
  · intro s ts why h inv _ panics
    have fits := inv.fits t
    rw [h] at fits
    simp [txSystem, exec, fits.1.1] at panics

theorem triple_store {what : TxStore} (change : TxDesc → TxDesc)
    (status : ∀ desc, (change desc).status = desc.status)
    (stores : ∀ s : Transmitter, s.memory work.m = some work.mbuf → s.put work.slot what =
        .ok (s.setDesc work.slot (change (s.txRing work.slot)))) :
    (txProtocol Thread).Triple t (.filling work) (store work.slot what)
      fun _ later => later = .filling { work with desc := change work.desc } := by
  apply of_outcomes rfl
  · intro s ts r s' h inv _ ran
    have fits := inv.fits t
    rw [h] at fits
    rcases fits with ⟨prep, number, descriptor, _⟩
    simp only [txSystem, exec, stores s prep.1, ok.injEq] at ran
    cases ran
    have cur : s.txRing work.slot = work.desc := by rwa [number]
    rw [cur]
    exact ⟨_, inv.setDesc h (status work.desc), rfl⟩
  · intro s ts why h inv _ panics
    have fits := inv.fits t
    rw [h] at fits
    simp [txSystem, exec, stores s fits.1.1] at panics

theorem triple_stash : (txProtocol Thread).Triple t (.filling work) (store work.slot (.mbuf m))
      fun _ later => later = .filling { work with stash := some m } := by
  apply of_outcomes rfl
  · intro s ts r s' h inv _ ran
    cases ran
    exact ⟨_, inv.setTxMbufs m h, rfl⟩
  · rintro s ts why _ _ _ ⟨⟩

theorem triple_writeTdt (stash : work.stash = some work.m)
    (freed : work.old = none) (addr : work.desc.addr = ⟨work.m, work.mbuf.head⟩)
    (length : work.desc.length = work.mbuf.len) : (txProtocol Thread).Triple
    t (.filling work) (writeTdt work.slot work.m) fun _ later => later = .leaving := by
  apply of_outcomes trivial
  · intro s ts r s' h inv _ ran
    have fits := inv.fits t
    rw [h] at fits
    simp only [txSystem, exec, fits.1.1, ok.injEq] at ran
    cases ran
    exact ⟨_, inv.writeTdt h stash freed addr length, rfl⟩
  · intro s ts why h inv _ panics
    have fits := inv.fits t
    rw [h] at fits
    simp [txSystem, exec, fits.1.1] at panics

theorem triple_device {cmd : TxCommand} (ready : TxToken.Ready cmd .idle)
    (keeps : ∀ (s : Transmitter) (ts : Thread → TxToken) r s',
    TxInv s ts → s.exec cmd = .ok (r, s') → TxInv s' ts)
    (never : ∀ (s : Transmitter) why, s.exec cmd ≠ .panic why) :
    (txProtocol Thread).Triple t .idle cmd fun _ later => later = .idle := by
  apply of_outcomes ready
  · intro s ts r s' h inv _ ran
    refine ⟨ts t, ?_, h⟩
    rw [update_eq_self]
    exact keeps s ts r s' inv ran
  · intro s ts why _ _ _ panics
    exact never s why panics

end

/-! ## Programs -/

section

variable [DecidableEq Thread] {t : Thread} {m : Page} {mbuf : Mbuf}

theorem valid_freeLast {work : Filling} {last : Option Page} (old : work.old = last) :
    (txProtocol Thread).Valid t (fun _ later => later = .filling { work with old := none })
      (freeLast last) (.filling work) := by
  cases last with
  | some page => exact call _ (triple_freeLast old) fun _ _ h => h
  | none =>
    apply done
    rw [← old]

theorem valid_setEop {work : Filling} {slot : Nat} (number : work.slot = slot)
    (next : Option Page) : (txProtocol Thread).Valid t (fun _ later => ∃ cmd, later =
        .filling { work with desc := { work.desc with cmd := cmd } })
      (setEop slot next) (.filling work) := by
  subst number
  cases next with
  | some page => exact done ⟨work.desc.cmd, rfl⟩
  | none =>
    refine call _ (triple_store (fun desc => { desc with cmd := desc.cmd ||| e1000TxdCmdEop })
      (fun _ => rfl) fun _ _ => rfl) ?_
    intro _ later h
    exact ⟨_, h⟩

theorem valid_fillDescriptor (small : mbuf.len < 2 ^ 16) (slot : Nat)
    (desc : TxDesc) (stash : Option Page) : (txProtocol Thread).Valid t (fun out later => out = 0 ∧
    later = .idle) (fillDescriptor slot m) (.filling ⟨m, mbuf, slot, desc, stash, stash⟩) := by
  refine command_bind triple_readTxMbufs ?_
  rintro last _ ⟨rfl, rfl⟩
  refine bind _ (valid_freeLast rfl) ?_
  rintro _ _ rfl
  refine command_bind (triple_store
    (fun desc => { desc with addr := ⟨m, mbuf.head⟩ }) (fun _ => rfl) ?_) ?_
  · intro s stored
    simp only [put, stored]
  rintro _ _ rfl
  refine command_bind (triple_store
    (fun desc => { desc with length := mbuf.len % 2 ^ 16 }) (fun _ => rfl) ?_) ?_
  · intro s stored
    simp only [put, stored]
  rintro _ _ rfl
  refine command_bind (triple_store
    (fun desc => { desc with cmd := desc.cmd ||| e1000TxdCmdRs }) (fun _ => rfl)
    fun _ _ => rfl) ?_
  rintro _ _ rfl
  refine command_bind triple_readNext ?_
  rintro next _ rfl
  refine bind _ (valid_setEop ?_ next) ?_
  · rfl
  rintro _ _ ⟨cmd, rfl⟩
  refine command_bind triple_stash ?_
  rintro _ _ rfl
  refine command_bind (triple_writeTdt rfl rfl rfl (Nat.mod_eq_of_lt small)) ?_
  rintro _ _ rfl
  refine command_bind triple_release ?_
  rintro _ _ rfl
  exact done ⟨rfl, rfl⟩

theorem valid_e1000Transmit (small : mbuf.len < 2 ^ 16) : (txProtocol Thread).Valid
    t (fun out later => out = 0 ∧ later = .idle) (e1000Transmit m) (.packet m mbuf) := by
  refine command_bind triple_acquire ?_
  rintro _ _ rfl
  refine command_bind triple_readTdt ?_
  rintro slot _ rfl
  refine command_bind triple_readStatus ?_
  rintro status _ ⟨done, desc, stash, rfl⟩
  rw [if_neg done]
  exact valid_fillDescriptor small slot desc stash

theorem valid_send (small : mbuf.len < 2 ^ 16) : (txProtocol Thread).Valid t (fun _ later =>
    later = .idle) (TxCall.send m mbuf small).program .idle := by
  refine command_bind (triple_mbufalloc small) ?_
  rintro _ _ rfl
  refine bind _ (valid_e1000Transmit small) ?_
  rintro out _ ⟨rfl, rfl⟩
  exact done rfl

theorem txProtocol_sound : (txProtocol Thread).Sound := by
  intro t call v tok idle
  cases idle
  cases call with
  | send m mbuf small => exact valid_send small
  | take =>
    refine Valid.call _ (triple_device trivial ?_ ?_) fun _ _ h => h
    · intro s ts r s' inv ran
      by_cases empty : s.tdh = s.tdt
      · simp [exec, empty] at ran
      simp only [exec, if_neg empty, ok.injEq] at ran
      cases ran
      exact inv.fetch empty
    · intro s why panics
      by_cases empty : s.tdh = s.tdt <;>
        simp [exec, empty] at panics
  | transmit =>
    refine Valid.call _ (triple_device trivial ?_ ?_) fun _ _ h => h
    · intro s ts r s' inv ran
      cases fst : s.fetched with
      | nil => simp [exec, fst] at ran
      | cons head rest =>
        simp only [exec, fst, ok.injEq] at ran
        cases ran
        exact inv.emit fst
    · intro s why panics
      cases fst : s.fetched <;> simp [exec, fst] at panics
  | writeBack =>
    refine Valid.call _ (triple_device trivial ?_ ?_) fun _ _ h => h
    · intro s ts r s' inv ran
      cases fst : s.sent with
      | nil => simp [exec, fst] at ran
      | cons slot rest =>
        simp only [exec, fst, ok.injEq] at ran
        cases ran
        exact inv.finish fst
    · intro s why panics
      cases fst : s.sent <;> simp [exec, fst] at panics

end

/-! ## Runs -/

theorem TxInv.init : TxInv e1000Init fun _ : Thread => TxToken.idle where
  ring := TxRing.init
  fits _ := trivial
  lock := Exclusive.unheld fun _ => rfl
  owned :=
    { live := by
        intro owner page has
        cases owner with
        | thread t => cases has
        | slot i => cases has.1
      unique := by
        intro owner o page has
        cases owner with
        | thread t => cases has
        | slot i => cases has.1 }
  nodup _ := nodup_nil

/-- The driver and the device at boot. -/
def txBoot (Thread : Type) : Pool (txSystem Thread) :=
  (txSystem Thread).idle Transmitter.e1000Init fun _ => ()

variable [DecidableEq Thread]

/-- The mbuf that a thread is about to free. -/
def TxProgram.frees : TxProgram Unit → Option Page
  | .call (.mbuffree m) _ => some m
  | _ => none

theorem TxProgram.frees_eq_some {prog : TxProgram Unit} {m : Page} (hit : prog.frees = some m) :
    ∃ next, prog = .call (.mbuffree m) next := by
  cases prog with
  | done v => cases hit
  | call cmd next =>
    cases cmd with
    | mbuffree page =>
      cases hit
      exact ⟨next, rfl⟩
    | _ => cases hit

/-- A packet of one byte. -/
def onePacket (m : Page) : TxCall :=
  .send m { next := none, head := mbufDefaultHeadroom, len := 1, buf := fun _ => 7 }
    (by decide)

/-- As many packets as the ring has descriptors, while the device does nothing. -/
def sixteenPackets : List (System.Event Unit TxCall) :=
  (List.range txRingSize).flatMap fun m => [.start () (onePacket m), .finish ()]

/-- One more, as far as its first write to what the device should own. -/
def oneMorePacket : List (System.Event Unit TxCall) :=
  sixteenPackets ++ .start () (onePacket txRingSize) :: List.replicate 5 (.step ())

/-- As many packets, each of which the device finishes before the next, and one
more, which is about to free the mbuf of the first. -/
def keptUp : List (System.Event Unit TxCall) :=
  (List.range txRingSize).flatMap (fun m =>
    .start () (onePacket m) :: List.replicate 13 (.step ()) ++
      [.start () .take, .step (), .start () .transmit, .step (), .start () .writeBack, .step ()])
  ++ .start () (onePacket txRingSize) :: List.replicate 5 (.step ())

end Xv6
