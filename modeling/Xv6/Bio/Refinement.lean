import Xv6.Bio.Coherence

/-! # The buffer cache refines an array of blocks

Processes that change a buffer only while they hold its lock, and leave it
written or pinned when they release it, see one array of blocks, whatever
buffers are recycled in between. -/

namespace Xv6

open Foundation Function Protocol Bcache BioProgram BioState BioToken Outcome Valid

variable {Pid : Type}

/-- What processes promise. A process changes, writes and releases only buffers
it has locked; a buffer that is released was written since its last
change, or is pinned; a pin is undone only once the buffer is written. A call
of `bread` finds its block or an unused buffer, and no count overflows. -/
def BioCommand.Disciplined (p : Pid) (s : BioState Pid) :
    BioCommand → Prop
  | .bget blockno =>
    (∀ b, s.bcache.lookup rootDev blockno = some b →
      s.bcache.refcnt b + 1 < 2 ^ 32) ∧
    (s.bcache.lookup rootDev blockno = none → ∃ b, s.bcache.refcnt b = 0)
  | .store b _ => s.bcache.lock b = some p
  | .bwrite b => s.bcache.lock b = some p
  | .releasesleep b => s.bcache.lock b = some p ∧
      (s.history.dirty b = true → 0 < s.history.pins b)
  | .bpin b => s.bcache.refcnt b + 1 < 2 ^ 32
  | .bunpin b => 0 < s.history.pins b ∧ s.history.dirty b = false
  | _ => True

instance [DecidableEq Pid] (p : Pid) (s : BioState Pid) (cmd : BioCommand) :
    Decidable (cmd.Disciplined p s) := by
  cases cmd <;> unfold BioCommand.Disciplined <;> infer_instance

theorem Bcache.unused_isSome {bcache : Bcache Pid} {b : BufIndex}
    (free : bcache.refcnt b = 0) : ∃ found, bcache.unused = some found := by
  cases lost : bcache.unused with
  | some found => exact ⟨found, rfl⟩
  | none =>
    have passed := List.find?_eq_none.mp lost b (List.mem_reverse.mpr (bcache.lru.complete b))
    simp [free] at passed

theorem Bcache.bget_cases {bcache after : Bcache Pid}
    {dev blockno : Nat} {b : BufIndex} (got : bcache.bget dev blockno = some (b, after)) :
    (bcache.lookup dev blockno = some b ∧ after = bcache.bpin b) ∨
    (bcache.lookup dev blockno = none ∧ bcache.refcnt b = 0 ∧
      after = bcache.recycle b dev blockno) := by
  unfold bget at got
  cases hit : bcache.lookup dev blockno with
  | some o =>
    simp only [hit, Option.some.injEq, Prod.mk.injEq] at got
    rcases got with ⟨rfl, rfl⟩
    exact Or.inl ⟨rfl, rfl⟩
  | none =>
    simp only [hit, Option.map_eq_some_iff, Prod.mk.injEq] at got
    rcases got with ⟨o, unused, rfl, rfl⟩
    exact Or.inr ⟨rfl, unused_some unused, rfl⟩

section

variable [Fintype Pid] [DecidableEq Pid] {origin : Disk} {s after : BioState Pid} {p : Pid}
  {ts : Pid → BioToken} {cmd : BioCommand}

theorem Coherent.step {r : cmd.Response} (inv : Coherent origin s ts) (ready :
    BioToken.Ready cmd (ts p)) (disc : cmd.Disciplined p s) (ran : s.exec p cmd = .ok (r, after)) :
    Coherent origin after (update ts p (BioToken.next cmd r (ts p))) := by
  cases cmd with
  | bget blockno =>
    cases got : s.bcache.bget rootDev blockno with
    | none => simp [exec, got] at ran
    | some out =>
      rcases out with ⟨b, bcache⟩
      simp only [exec, got, ok.injEq, Prod.mk.injEq] at ran
      rcases ran with ⟨rfl, rfl⟩
      rcases bget_cases got with ⟨hit, rfl⟩ | ⟨lost, free, rfl⟩
      · exact inv.bget_found ready hit (disc.1 b hit)
      · exact inv.bget_recycled ready lost free
  | acquiresleep b =>
    rcases ready with ⟨blockno, waits⟩
    cases lock : s.bcache.lock b with
    | some holder => simp [exec, lock] at ran
    | none =>
      simp only [exec, lock, ok.injEq, Prod.mk.injEq] at ran
      rcases ran with ⟨_, rfl⟩
      exact inv.acquiresleep waits lock
  | testValid b =>
    rcases ready with ⟨blockno, locked⟩
    cases ran
    have identity := (inv.fits p).identity _ locked
    cases valid : s.bcache.valid b with
    | false => exact inv.testValid_invalid locked valid
    | true =>
      have arrived := inv.arrive locked rfl (inv.contents b identity.1 valid)
        (inv.clean b identity.1 valid)
      rwa [← valid, update_eq_self] at arrived
  | diskRead b =>
    rcases ready with ⟨blockno, reads⟩
    cases ran
    exact inv.diskRead reads
  | setValid b =>
    rcases ready with ⟨blockno, loads⟩
    cases ran
    have fits := inv.fits p
    have identity := fits.identity _ loads
    have loaded := fits.loaded _ loads rfl
    have upToDate := inv.disk_of_invalid identity.1 (fits.reading _ loads (Or.inr rfl))
    have stored : s.bcache.data b = s.array origin (s.bcache.blockno b) := by rwa [identity.2]
    exact inv.arrive loads rfl stored fun _ => upToDate.trans stored.symm
  | store b data =>
    cases ran
    rw [BioToken.next, update_eq_self]
    exact inv.store ready disc data
  | bwrite b =>
    simp only [exec, if_pos (show _ = _ from disc), ok.injEq, Prod.mk.injEq] at ran
    rcases ran with ⟨_, rfl⟩
    rw [BioToken.next, update_eq_self]
    exact inv.bwrite ready disc
  | releasesleep b =>
    simp only [exec, if_pos disc.1, ok.injEq, Prod.mk.injEq] at ran
    rcases ran with ⟨_, rfl⟩
    exact inv.releasesleep ready disc.1 disc.2
  | unref b =>
    rcases ready with ⟨blockno, releases⟩
    cases ran
    exact inv.unref releases
  | bpin b =>
    cases ran
    rw [BioToken.next, update_eq_self]
    exact inv.bpin ready disc
  | bunpin b =>
    cases ran
    rw [BioToken.next, update_eq_self]
    exact inv.bunpin ready disc.1 disc.2

omit [Fintype Pid] in
theorem BioState.exec_ne_panic {why : BioPanic} (disc : cmd.Disciplined p s) :
    s.exec p cmd ≠ .panic why := by
  intro panics
  cases cmd with
  | bget blockno =>
    cases got : s.bcache.bget rootDev blockno with
    | some out => simp [exec, got] at panics
    | none =>
      cases found : s.bcache.lookup rootDev blockno with
      | some b => simp [Bcache.bget, found] at got
      | none =>
        rcases disc.2 found with ⟨b, free⟩
        rcases unused_isSome free with ⟨o, unused⟩
        simp [Bcache.bget, found, unused] at got
  | acquiresleep b => cases lock : s.bcache.lock b <;> simp [exec, lock] at panics
  | bwrite b => simp [exec, show _ = _ from disc] at panics
  | releasesleep b => simp [exec, disc.1] at panics
  | testValid b => cases panics
  | diskRead b => cases panics
  | setValid b => cases panics
  | store b data => cases panics
  | unref b => cases panics
  | bpin b => cases panics
  | bunpin b => cases panics

def bioProtocol (Pid : Type) [Fintype Pid] [DecidableEq Pid]
    (origin : Disk) : Protocol (bioSystem Pid) BioToken where
  Inv := Coherent origin
  Ready := BioToken.Ready
  Allowed p cmd s := cmd.Disciplined p s
  Tolerated _ := False
  Idle held tok := tok = { held := held, pending := none }

namespace BioProtocol

variable {tok : BioToken}

theorem triple (ready : BioToken.Ready cmd tok) : (bioProtocol Pid origin).Triple
    p tok cmd fun r later => ∃ s ts after, ts p = tok ∧ Coherent origin s ts ∧
    cmd.Disciplined p s ∧ exec p cmd s = .ok (r, after) ∧ later = BioToken.next cmd r tok := by
  refine Triple.of_next (bioProtocol Pid origin) p (fun _ r => BioToken.next cmd r tok) ready ?_ ?_
  · rintro s ts r after rfl inv ok ran
    exact inv.step ready ok ran
  · rintro s ts why rfl inv ok panics
    exact exec_ne_panic ok panics

theorem valid_step {post : α → BioToken → Prop}
    {next : cmd.Response → BioProgram α} (ready : BioToken.Ready cmd tok)
    (rest : ∀ r, (bioProtocol Pid origin).Valid p post (next r) (BioToken.next cmd r tok)) :
    (bioProtocol Pid origin).Valid p post (step cmd >>= next) tok := by
  apply command_bind (triple ready)
  rintro r later ⟨_, _, _, _, _, _, _, rfl⟩
  exact rest r

variable {held : Holdings}

theorem valid_bread (blockno : Nat) : (bioProtocol Pid origin).Valid p (fun b later => later =
        { held := update held b (some blockno), pending := none })
      (bread blockno) { held := held, pending := none } := by
  refine valid_step rfl fun b => ?_
  refine valid_step ⟨blockno, rfl⟩ fun _ => ?_
  refine valid_step ⟨blockno, rfl⟩ fun (valid : Bool) => ?_
  cases valid with
  | true => exact done rfl
  | false =>
    refine valid_step ⟨blockno, rfl⟩ fun _ => ?_
    refine valid_step ⟨blockno, rfl⟩ fun _ => ?_
    exact done rfl

theorem valid_brelse (b : BufIndex) : (bioProtocol Pid origin).Valid p
      (fun _ later => later = { held := update held b none, pending := none })
      (brelse b) { held := held, pending := none } := by
  refine command_bind (triple rfl) ?_
  rintro r _ ⟨s, ts, after, h, inv, disc, _, rfl⟩
  -- A process that may release a buffer holds it.
  have btw : (ts p).pending = none := by rw [h]
  have known := (inv.held_of_lock btw disc.1).1
  rw [h] at known
  have released : BioToken.next (.releasesleep b) r
      { held := held, pending := none } =
        { held := update held b none
          pending := some
            { b := b, blockno := s.bcache.blockno b, stage := .releasing } } := by
    change held b = _ at known
    simp [BioToken.next, release, known]
  rw [released]
  exact valid_step ⟨_, rfl⟩ fun _ => done rfl

theorem sound : (bioProtocol Pid origin).Sound := by
  rintro p call held _ rfl
  cases call with
  | bread blockno =>
    refine bind _ (valid_bread blockno) ?_
    rintro b _ rfl
    exact done rfl
  | brelse b =>
    refine bind _ (valid_brelse b) ?_
    rintro _ _ rfl
    exact done rfl
  | store b data | bwrite b | bpin b | bunpin b => exact valid_step rfl fun _ => done rfl

end BioProtocol

end

/-! ## The array that processes see -/

theorem BioState.exec_keeps_block [DecidableEq Pid] {p : Pid} {r : cmd.Response}
    {s after : BioState Pid} (ran : s.exec p cmd = .ok (r, after)) (b : BufIndex)
    (referenced : 0 < s.bcache.refcnt b) : after.bcache.dev b = s.bcache.dev b ∧
    after.bcache.blockno b = s.bcache.blockno b := by
  cases cmd with
  | bget blockno =>
    cases got : s.bcache.bget rootDev blockno with
    | none => simp [exec, got] at ran
    | some out =>
      rcases out with ⟨found, bcache⟩
      simp only [exec, got, ok.injEq, Prod.mk.injEq] at ran
      rcases ran with ⟨_, rfl⟩
      rcases bget_cases got with ⟨_, rfl⟩ | ⟨_, free, rfl⟩
      · exact ⟨rfl, rfl⟩
      have ne : b ≠ found := by
        rintro rfl
        omega
      exact ⟨update_of_ne ne _ _, update_of_ne ne _ _⟩
  | acquiresleep o =>
    cases lock : s.bcache.lock o with
    | some holder => simp [exec, lock] at ran
    | none =>
      simp only [exec, lock, ok.injEq, Prod.mk.injEq] at ran
      rcases ran with ⟨_, rfl⟩
      exact ⟨rfl, rfl⟩
  | bwrite o | releasesleep o =>
    simp only [exec] at ran
    split at ran <;> cases ran
    exact ⟨rfl, rfl⟩
  | unref o =>
    cases ran
    rcases s.bcache.unref_eq o with ⟨lru, eq⟩
    rw [eq]
    exact ⟨rfl, rfl⟩
  | testValid o => cases ran; exact ⟨rfl, rfl⟩
  | diskRead o => cases ran; exact ⟨rfl, rfl⟩
  | setValid o => cases ran; exact ⟨rfl, rfl⟩
  | store o data => cases ran; exact ⟨rfl, rfl⟩
  | bpin o => cases ran; exact ⟨rfl, rfl⟩
  | bunpin o => cases ran; exact ⟨rfl, rfl⟩

section

variable [Fintype Pid] [DecidableEq Pid]

/-- What the cache shows to the processes of a pool. -/
structure RefinesArray (disk : Disk) (pool : Pool (bioSystem Pid)) : Prop where
  unique : ∀ b other, pool.state.bcache.dev b = rootDev →
    pool.state.bcache.dev other = rootDev →
    pool.state.bcache.blockno b = pool.state.bcache.blockno other → b = other
  keepsBlock : ∀ p cmd next r after,
    pool.threads p = .call cmd next →
    cmd.Disciplined p pool.state →
    pool.state.exec p cmd = .ok (r, after) →
    ∀ b, 0 < pool.state.bcache.refcnt b →
      after.bcache.dev b = pool.state.bcache.dev b ∧
        after.bcache.blockno b = pool.state.bcache.blockno b
  returned : ∀ p held, pool.threads p = .done held →
    ∀ b blockno, held b = some blockno →
      0 < pool.state.bcache.refcnt b ∧
      pool.state.bcache.lock b = some p ∧
      pool.state.bcache.dev b = rootDev ∧
      pool.state.bcache.blockno b = blockno ∧
      pool.state.bcache.data b = pool.state.array disk blockno
  noPanic : ∀ reason, ¬(bioSystem Pid).Panics
    (fun p cmd s => cmd.Disciplined p s) pool reason

omit [DecidableEq Pid] in
theorem Coherent.binit (disk : Disk) : Coherent disk (binit Pid disk) fun _ =>
      { held := fun _ => none, pending := none } where
  counted b := by simp [Xv6.binit, tally, refs, refersTo]
  bounded b := by simp [Xv6.binit]
  unique b o dev := by cases dev
  owned b p locked := by cases locked
  fits p := by constructor <;> simp
  contents b dev := by cases dev
  clean b dev := by cases dev
  absent blockno _ := rfl
  kept b dirty := by cases dirty

theorem bcache_refines_array (disk : Disk) (pool : Pool (bioSystem Pid))
    (reach : (bioSystem Pid).Reachable (fun p cmd s => cmd.Disciplined p s)
      ((bioSystem Pid).idle (binit Pid disk) fun _ _ => none) pool) : RefinesArray disk pool := by
  have sound : (bioProtocol Pid disk).Sound := BioProtocol.sound
  rcases Protocol.reachable_fits sound
    (Protocol.Fits.idle (Coherent.binit disk) fun _ => rfl) reach with
    ⟨ts, fits⟩
  have inv : Coherent disk pool.state ts := fits.1
  constructor
  case unique => exact inv.unique
  case keepsBlock =>
    intro p cmd next r after _ _ ran b referenced
    exact BioState.exec_keeps_block ran b referenced
  case returned =>
    intro p held isDone b blockno known
    have tok : ts p = { held := held, pending := none } := fits.idle_of_done isDone
    have tokenHeld : (ts p).held b = some blockno := by rwa [tok]
    rcases (inv.fits p).holding b blockno tokenHeld with
      ⟨locked, dev, rfl, valid⟩
    have referenced : (ts p).refs b ≠ 0 := by simp [BioToken.refs, tokenHeld]
    exact ⟨inv.refcnt_pos referenced, locked, dev, rfl, inv.contents b dev valid⟩
  case noPanic =>
    intro reason panics
    exact fits.tolerated panics

end

/-- A process changes block 7 and releases it pinned, then writes it as a commit
does. The other process takes every buffer, that of block 7 as the last, and
releases one of them, in which block 7 is read again. -/
def evictingRun (b : BufIndex) : List (System.Event Bool BioCall) :=
  [.start false (.bread 7)] ++ List.replicate 5 (.step false) ++
  [.start false (.store b fun _ => 1), .step false, .start false (.bpin b), .step false,
    .start false (.brelse b), .step false, .step false, .start false (.bread 7)] ++
  List.replicate 3 (.step false) ++
  [.start false (.bwrite b), .step false, .start false (.bunpin b), .step false,
    .start false (.brelse b), .step false, .step false] ++
  (List.range nBuf).flatMap (fun index =>
    .start true (.bread (100 + index)) :: List.replicate 5 (.step true)) ++
  [.start true (.brelse b), .step true, .step true, .start false (.bread 7)] ++
  List.replicate 5 (.step false)

/-- The block that was stored comes back from the disk. -/
theorem bcache_refines_array_evicted : ∃ pool : Pool (bioSystem Bool),
    pool.state.history.stores.map Prod.fst = [7] ∧
    (∃ b, pool.state.bcache.blockno b = 7 ∧ pool.state.bcache.data b ⟨0, by decide⟩ = 1) ∧
    RefinesArray (fun _ => Block.zero) pool := by
  have found : (System.replayTested (fun p (cmd : BioCommand) s => decide (cmd.Disciplined p s))
      ((bioSystem Bool).idle (binit Bool fun _ => Block.zero) fun _ _ => none)
      (evictingRun ⟨0, by decide⟩)).map (fun pool => (pool.state.history.stores.map Prod.fst,
        decide (∃ b, pool.state.bcache.blockno b = 7 ∧
          pool.state.bcache.data b ⟨0, by decide⟩ = 1))) = some ([7], true) := by
    decide +kernel
  rcases Option.map_eq_some_iff.mp found with ⟨pool, replayed, shown⟩
  simp only [Prod.mk.injEq, decide_eq_true_eq] at shown
  refine ⟨pool, shown.1, shown.2, bcache_refines_array _ pool ?_⟩
  exact System.Reachable.initial.replayTested (fun _ _ _ _ passes => by simpa using passes)
    _ replayed

/-- After `binit` every buffer carries block 0 of device 0. -/
theorem binit_buffers_share_identity : ∃ pool, (bioSystem (Fin 2)).Reachable
        (fun p cmd s => cmd.Disciplined p s)
        ((bioSystem (Fin 2)).idle (binit (Fin 2) fun _ => Block.zero) fun _ _ => none) pool ∧
      ∃ b other, b ≠ other ∧ pool.state.bcache.dev b = pool.state.bcache.dev other ∧
        pool.state.bcache.blockno b = pool.state.bcache.blockno other :=
  ⟨_, .initial, ⟨0, by decide⟩, ⟨1, by decide⟩, by decide, rfl, rfl⟩

end Xv6
