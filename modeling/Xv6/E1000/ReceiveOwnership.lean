import Xv6.Foundation.Ownership
import Xv6.E1000.ReceiveRing

/-! # Ownership of the receive ring

An mbuf belongs to a slot of `rx_mbufs`, and so to the device, or to the network
stack. `e1000_recv` hands the mbuf of the next slot to the stack, and for a while
the slot has none. -/

namespace Xv6

open Foundation Function Option Or

/-- How far a thread is in `e1000_recv`. -/
inductive RxStage
  | idle
  | locked
  | checking (i : Nat)
  | found (i : Nat)
  | sized (i : Nat)
  | handed (i : Nat)
  | fresh (i : Nat) (m : Page)
  | addressed (i : Nat)
  | cleared (i : Nat)
  | leaving
  | ended

/-- Whether a thread has claimed the interrupt, and how far it is. -/
structure RxToken where
  claim : Bool
  stage : RxStage

namespace RxStage

def locks : RxStage → Bool
  | .idle | .ended => false
  | _ => true

/-- The packet is delivered and its slot not returned. -/
def recycles : RxStage → Bool
  | .handed _ | .fresh _ _ | .addressed _ | .cleared _ => true
  | _ => false

/-- The slot whose mbuf has been handed over. -/
def bare : RxStage → Option Nat
  | .handed i => some i
  | _ => none

/-- The slot whose descriptor does not point at its mbuf. -/
def unaddressed : RxStage → Option Nat
  | .handed i | .fresh i _ => some i
  | _ => none

/-- What a stage says of the state. -/
def Fits (s : Receiver) : RxStage → Prop
  | .idle | .leaving | .ended => True
  | .locked => s.delivered.length = s.returned
  | .checking i => i = s.returned % rxRingSize ∧
      s.delivered.length = s.returned
  | .found i => i = s.returned % rxRingSize ∧
      s.delivered.length = s.returned ∧
      s.delivered.length < s.stored.length
  | .sized i => i = s.returned % rxRingSize ∧
      s.delivered.length = s.returned ∧
      s.delivered.length < s.stored.length ∧
      ∃ mbuf, s.memory (s.rxMbufs i) = some mbuf ∧
        mbuf.len = (s.rxRing i).length
  | .handed i | .addressed i => i = s.returned % rxRingSize ∧
      s.delivered.length = s.returned + 1
  | .fresh i m => i = s.returned % rxRingSize ∧
      s.delivered.length = s.returned + 1 ∧ s.rxMbufs i = m
  | .cleared i => i = s.returned % rxRingSize ∧
      s.delivered.length = s.returned + 1 ∧
      (s.rxRing i).status &&& e1000RxdStatDd = 0

theorem fits_of_not_locks {s : Receiver} {stage : RxStage}
    (unlocked : stage.locks = false) : stage.Fits s := by
  cases stage with
  | idle | ended => trivial
  | _ => cases unlocked

theorem not_recycles {stage : RxStage} (unlocked : stage.locks = false) :
    stage.recycles = false := by
  cases stage with
  | idle | ended => rfl
  | _ => cases unlocked

theorem Fits.frame {s after : Receiver} {stage : RxStage} (fits : stage.Fits s)
    (ret : after.returned = s.returned) (sent : after.delivered = s.delivered)
    (stored : s.stored.length ≤ after.stored.length) (mbufs : after.rxMbufs = s.rxMbufs)
    (mem : ∀ mbuf, s.delivered.length = s.returned →
      s.memory (s.rxMbufs (s.returned % rxRingSize)) = some mbuf →
      ∃ o, after.memory (s.rxMbufs (s.returned % rxRingSize)) = some o ∧ o.len = mbuf.len)
    (desc : s.delivered.length < s.stored.length ∨ s.delivered.length = s.returned + 1 →
      after.rxRing (s.returned % rxRingSize) =
        s.rxRing (s.returned % rxRingSize)) : stage.Fits after := by
  cases stage with
  | idle | leaving | ended => trivial
  | locked =>
    change after.delivered.length = after.returned
    rwa [sent, ret]
  | found i =>
    change _ ∧ _ ∧ after.delivered.length < _
    rw [sent, ret]
    exact ⟨fits.1, fits.2.1, lt_of_lt_of_le fits.2.2 stored⟩
  | sized i =>
    rcases fits with ⟨rfl, settled, waits, mbuf, held, len⟩
    rcases mem mbuf settled held with ⟨o, oHeld, oLen⟩
    change _ ∧ _ ∧ after.delivered.length < _ ∧ _
    rw [sent, ret, mbufs, desc (Or.inl waits)]
    exact ⟨rfl, settled, lt_of_lt_of_le waits stored, o, oHeld, oLen.trans len⟩
  | checking i | handed i | addressed i =>
    change _ ∧ _
    rwa [sent, ret]
  | fresh i m =>
    change _ ∧ _ ∧ _
    rwa [sent, ret, mbufs]
  | cleared i =>
    rcases fits with ⟨rfl, ahead, clear⟩
    change _ ∧ _ ∧ _
    rw [sent, ret, desc (Or.inr ahead)]
    exact ⟨rfl, ahead, clear⟩

end RxStage

inductive RxOwner
  | slot (i : Nat)
  | stack

/-- Who has a page: a slot, or the network stack. -/
def Receiver.Has {Thread : Type} (s : Receiver) (ts : Thread → RxToken) :
    RxOwner → Page → Prop
  | .slot i, page => i < rxRingSize ∧ s.rxMbufs i = page ∧
      ∀ t, (ts t).stage.bare ≠ some i
  | .stack, page => page ∈ s.handed

def Receiver.Live (s : Receiver) (page : Page) : Prop :=
  (s.memory page).isSome = true

/-- The ring, and who holds what of it. -/
structure RxInv {Thread : Type} (s : Receiver) (ts : Thread → RxToken) :
    Prop where
  ring : RxRing s
  fits : ∀ t, (ts t).stage.Fits s
  lock : Exclusive s.e1000Lock2 (fun tok : RxToken => tok.stage.locks) ts
  claim : Exclusive s.claimed RxToken.claim ts
  settled : (∀ t, (ts t).stage.recycles = false) →
    s.delivered.length = s.returned
  owned : Owned (s.Has ts) s.Live
  nodup : s.handed.Nodup
  head : ∀ i, i < rxRingSize → (∀ t, (ts t).stage.bare ≠ some i) →
    ∃ mbuf, s.memory (s.rxMbufs i) = some mbuf ∧ mbuf.head = 0
  addr : ∀ i, i < rxRingSize → (∀ t, (ts t).stage.unaddressed ≠ some i) →
    (s.rxRing i).addr = ⟨s.rxMbufs i, 0⟩

namespace RxInv

variable {Thread : Type} {s after : Receiver} {ts : Thread → RxToken} {t : Thread} {tok : RxToken}

theorem slot_lt (k : Nat) : k % rxRingSize < rxRingSize := Nat.mod_lt _ (by decide)

theorem bare_slot (inv : RxInv s ts) {i : Nat} (bare : (ts t).stage.bare = some i) :
    i = s.returned % rxRingSize ∧ s.delivered.length = s.returned + 1 := by
  have fits := inv.fits t
  cases stage : (ts t).stage with
  | handed j =>
    rw [stage] at fits bare
    cases bare
    exact fits
  | _ =>
    rw [stage] at bare
    cases bare

theorem unaddressed_slot (inv : RxInv s ts) {i : Nat}
    (unaddressed : (ts t).stage.unaddressed = some i) :
    i = s.returned % rxRingSize ∧ s.delivered.length = s.returned + 1 := by
  have fits := inv.fits t
  cases stage : (ts t).stage with
  | handed j =>
    rw [stage] at fits unaddressed
    cases unaddressed
    exact fits
  | fresh j m =>
    rw [stage] at fits unaddressed
    cases unaddressed
    exact ⟨fits.1, fits.2.1⟩
  | _ =>
    rw [stage] at unaddressed
    cases unaddressed

theorem packet_not_bare (inv : RxInv s ts) {k : Nat} {pkt : Packet} (later : s.delivered.length ≤ k)
    (hit : s.stored[k]? = some pkt) (o : Thread) : (ts o).stage.bare ≠ some (k % rxRingSize) := by
  intro bare
  rcases inv.bare_slot bare with ⟨same, ahead⟩
  exact inv.ring.slot_ne ahead later hit same

theorem device_not_unaddressed (inv : RxInv s ts) (busy : s.phase.ahead.1 = 0) (o : Thread) :
    (ts o).stage.unaddressed ≠ some (s.filled % rxRingSize) := by
  intro unaddressed
  rcases inv.unaddressed_slot unaddressed with ⟨same, ahead⟩
  exact inv.ring.head_ne ahead busy same

theorem unaddressed_of_bare {stage : RxStage} {i : Nat} (bare : stage.bare = some i) :
    stage.unaddressed = some i := by
  cases stage with
  | handed j => exact bare
  | _ => cases bare

section

variable (inv : RxInv s ts)
include inv

section

variable (busy : s.phase.ahead.1 = 0)
include busy

theorem device_not_bare (o : Thread) : (ts o).stage.bare ≠ some (s.filled % rxRingSize) :=
  fun bare => inv.device_not_unaddressed busy o (unaddressed_of_bare bare)

theorem device_addr : (s.rxRing s.rdh).addr = ⟨s.rxMbufs (s.filled % rxRingSize), 0⟩ := by
  rw [inv.ring.rdh]
  exact inv.addr _ (slot_lt _) (inv.device_not_unaddressed busy)

theorem device_has : s.Has ts (.slot (s.filled % rxRingSize)) (s.rxMbufs (s.filled % rxRingSize)) :=
  ⟨slot_lt _, rfl, inv.device_not_bare busy⟩

theorem device_page_not_handed : (s.rxRing s.rdh).addr.page ∉ s.handed := by
  intro mem
  rw [inv.device_addr busy] at mem
  cases inv.owned.unique _ .stack _ (inv.device_has busy) mem

end

/-! ## Steps of the device and the stack -/

theorem environment (ring : RxRing after) (fits : ∀ t, (ts t).stage.Fits after)
    (lock : after.e1000Lock2 = s.e1000Lock2) (claim : after.claimed = s.claimed)
    (ret : after.returned = s.returned) (sent : after.delivered = s.delivered)
    (handed : after.handed = s.handed) (mbufs : after.rxMbufs = s.rxMbufs)
    (mem : ∀ page mbuf, s.memory page = some mbuf →
      ∃ o, after.memory page = some o ∧ o.head = mbuf.head)
    (addr : ∀ i, (after.rxRing i).addr = (s.rxRing i).addr) : RxInv after ts where
  ring := ring
  fits := fits
  lock := by rw [lock]; exact inv.lock
  claim := by rw [claim]; exact inv.claim
  settled := by rw [sent, ret]; exact inv.settled
  owned := by
    apply inv.owned.lose
    · intro owner page has
      cases owner with
      | slot i => rw [Receiver.Has, mbufs] at has; exact has
      | stack => rw [Receiver.Has, handed] at has; exact has
    · intro _ page _ live
      rcases isSome_iff_exists.mp live with ⟨mbuf, stored⟩
      rcases mem page mbuf stored with ⟨o, oStored, _⟩
      rw [Receiver.Live, oStored]
      rfl
  nodup := by rw [handed]; exact inv.nodup
  head := by
    intro i bound bare
    rcases inv.head i bound bare with ⟨mbuf, stored, head⟩
    rcases mem _ mbuf stored with ⟨o, oStored, oHead⟩
    rw [mbufs]
    exact ⟨o, oStored, oHead.trans head⟩
  addr := by
    intro i bound unaddressed
    rw [addr, mbufs]
    exact inv.addr i bound unaddressed

theorem dma (phase : s.phase = .waiting) (space : s.rdh ≠ s.rdt) {mbuf : Mbuf} {frame : List UInt8}
    (stored : s.memory (s.rxRing s.rdh).addr.page = some mbuf) (small : frame.length ≤ mbufSize) :
    RxInv (s.dma (s.rxRing s.rdh).addr.page mbuf (s.rxRing s.rdh).addr.offset frame) ts := by
  have busy : s.phase.ahead.1 = 0 := by rw [phase]; rfl
  rw [inv.device_addr busy] at stored ⊢
  have head : mbuf.head = 0 := by
    rcases inv.head _ (slot_lt _) (inv.device_not_bare busy) with ⟨o, held, zero⟩
    rw [held] at stored
    cases stored
    exact zero
  have mem : ∀ page o, s.memory page = some o →
      ∃ later, (s.dma (s.rxMbufs (s.filled % rxRingSize)) mbuf 0 frame).memory
        page = some later ∧ later.head = o.head ∧ later.len = o.len := by
    intro page o held
    change ∃ later, update s.memory _ _ page = some later ∧ _
    by_cases same : page = s.rxMbufs (s.filled % rxRingSize)
    · subst same
      rw [held] at stored
      cases stored
      rw [update_self]
      exact ⟨_, rfl, rfl, rfl⟩
    · rw [update_of_ne same]
      exact ⟨o, held, rfl, rfl⟩
  apply inv.environment
  · apply inv.ring.dma phase space head small
    intro k pkt later hit ne same
    have pktHas : s.Has ts (.slot (k % rxRingSize)) (s.rxMbufs (k % rxRingSize)) :=
      ⟨slot_lt _, rfl, inv.packet_not_bare later hit⟩
    rw [same] at pktHas
    have eq := inv.owned.unique _ _ _ pktHas (inv.device_has busy)
    exact ne (RxOwner.slot.inj eq)
  · intro o
    apply (inv.fits o).frame
    · rfl
    · rfl
    · exact le_rfl
    · rfl
    · intro held _ heldStored
      rcases mem _ held heldStored with ⟨later, laterStored, _, len⟩
      exact ⟨later, laterStored, len⟩
    · intro _
      rfl
  · rfl
  · rfl
  · rfl
  · rfl
  · rfl
  · rfl
  · intro page o held
    rcases mem page o held with ⟨later, laterStored, sameHead, _⟩
    exact ⟨later, laterStored, sameHead⟩
  · intro _
    rfl

theorem mark {frame : List UInt8} (phase : s.phase = .written frame) : RxInv (s.mark frame) ts := by
  have count := inv.ring.count
  have room := inv.ring.room
  rw [phase] at count room
  simp only [RxPhase.ahead] at count room
  have lower := inv.ring.lower
  have behind := inv.ring.behind
  apply inv.environment (inv.ring.mark phase)
  · intro o
    apply (inv.fits o).frame
    · rfl
    · rfl
    · change s.stored.length ≤ (s.stored ++ [_]).length
      simp
    · rfl
    · intro mbuf _ held
      exact ⟨mbuf, held, rfl⟩
    -- The device is past the packet that the driver is working on.
    intro working
    apply update_of_ne
    rw [inv.ring.rdh]
    intro same
    have eq := eq_of_mod_eq same (by omega) (by rw [rxRingSize_eq]; omega)
    omega
  · rfl
  · rfl
  · rfl
  · rfl
  · rfl
  · rfl
  · intro page mbuf held
    exact ⟨mbuf, held, rfl⟩
  · intro i
    by_cases same : i = s.rdh
    · subst same
      simp [Receiver.mark, Receiver.setDesc]
    · simp [Receiver.mark, Receiver.setDesc, same]

theorem moveHead (phase : s.phase = .marked) : RxInv s.moveHead ts := by
  apply inv.environment (inv.ring.moveHead phase)
  · intro o
    exact (inv.fits o).frame rfl rfl le_rfl rfl (fun mbuf _ held => ⟨mbuf, held, rfl⟩) fun _ => rfl
  · rfl
  · rfl
  · rfl
  · rfl
  · rfl
  · rfl
  · intro page mbuf held
    exact ⟨mbuf, held, rfl⟩
  · intro _
    rfl

theorem mbuffree {m : Page} (mem : m ∈ s.handed) :
    RxInv { s.setMbuf m none with handed := s.handed.erase m } ts := by
  have notSlot : ∀ i, i < rxRingSize → (∀ o, (ts o).stage.bare ≠ some i) → s.rxMbufs i ≠ m := by
    intro i bound bare same
    cases inv.owned.unique (.slot i) .stack m ⟨bound, same, bare⟩ mem
  have away : ∀ {page}, page ≠ m → update s.memory m none page = s.memory page :=
    fun ne => update_of_ne ne _ _
  have same : ∀ i, i < rxRingSize → (∀ o, (ts o).stage.bare ≠ some i) →
      s.SameBuffer { s with memory := update s.memory m none } i := by
    intro i bound bare mbuf held head
    refine ⟨mbuf, ?_, head, rfl⟩
    change update s.memory m none (s.rxMbufs i) = _
    rwa [away (notSlot i bound bare)]
  have memory : RxRing { s with memory := update s.memory m none } := by
    apply inv.ring.of_buffers
    · intro k pkt later hit
      exact same _ (slot_lt _) (inv.packet_not_bare later hit)
    · intro frame phase
      exact same _ (slot_lt _) (inv.device_not_bare (by rw [phase]; rfl))
  refine { inv with ring := ?ring, fits := ?fits, owned := ?owned, nodup := ?nodup, head := ?head }
  case ring => exact { memory with }
  case fits =>
    intro o
    apply (inv.fits o).frame
    · rfl
    · rfl
    · exact le_rfl
    · rfl
    · intro mbuf settled held
      refine ⟨mbuf, ?_, rfl⟩
      change update s.memory m none _ = _
      rw [away, held]
      apply notSlot _ (slot_lt _)
      intro third bare
      have ahead := (inv.bare_slot bare).2
      omega
    · intro _
      rfl
  case owned =>
    have notFreed : ∀ owner page, Receiver.Has
        { s.setMbuf m none with handed := s.handed.erase m } ts owner page →
        s.Has ts owner page ∧ page ≠ m := by
      intro owner page has
      cases owner with
      | slot i =>
        rcases has with ⟨bound, rfl, bare⟩
        exact ⟨⟨bound, rfl, bare⟩, notSlot i bound bare⟩
      | stack =>
        have split := (inv.nodup.mem_erase_iff).mp has
        exact ⟨split.2, split.1⟩
    apply inv.owned.lose fun owner page has => (notFreed owner page has).1
    intro owner page has live
    change (update s.memory m none page).isSome = true
    rwa [away (notFreed owner page has).2]
  case nodup => exact inv.nodup.erase m
  case head =>
    intro i bound bare
    rcases inv.head i bound bare with ⟨mbuf, held, zero⟩
    refine ⟨mbuf, ?_, zero⟩
    change update s.memory m none (s.rxMbufs i) = _
    rwa [away (notSlot i bound bare)]

end

/-! ## Steps of the driver -/

variable [DecidableEq Thread]

omit [DecidableEq Thread] in
theorem others_fit (inv : RxInv s ts) (h : (ts t).stage.locks = true) (o : Thread)
    (ne : o ≠ t) : (ts o).stage.Fits after := RxStage.fits_of_not_locks (inv.lock.other h ne)

theorem fits_update (fits : tok.stage.Fits after) (others : ∀ o, o ≠ t → (ts o).stage.Fits after)
    (o : Thread) : (update ts t tok o).stage.Fits after := by
  by_cases same : o = t
  · rwa [same, update_self]
  · rw [update_of_ne same]
    exact others o same

theorem same_update {v : RxStage → α} (same : v tok.stage = v (ts t).stage) (o : Thread) :
    v (update ts t tok o).stage = v (ts o).stage := by
  by_cases here : o = t
  · rw [here, update_self, same]
  · rw [update_of_ne here]

section

variable (inv : RxInv s ts)
include inv

theorem keep (ring : RxRing after) (fits : tok.stage.Fits after)
    (others : ∀ o, o ≠ t → (ts o).stage.Fits after)
    (lock : Exclusive after.e1000Lock2 (fun tok : RxToken => tok.stage.locks) (update ts t tok))
    (claim : Exclusive after.claimed RxToken.claim (update ts t tok))
    (bare : tok.stage.bare = (ts t).stage.bare)
    (unaddressed : tok.stage.unaddressed = (ts t).stage.unaddressed)
    (recycles : tok.stage.recycles = (ts t).stage.recycles) (ret : after.returned = s.returned)
    (sent : after.delivered = s.delivered)
    (handed : after.handed = s.handed) (mbufs : after.rxMbufs = s.rxMbufs)
    (mem : ∀ page mbuf, s.memory page = some mbuf →
      ∃ o, after.memory page = some o ∧ o.head = mbuf.head)
    (addr : ∀ i, (after.rxRing i).addr = (s.rxRing i).addr) : RxInv after (update ts t tok) where
  ring := ring
  fits := fits_update fits others
  lock := lock
  claim := claim
  settled := by
    intro none
    rw [sent, ret]
    apply inv.settled
    intro o
    rw [← same_update recycles o]
    exact none o
  owned := by
    apply inv.owned.lose
    · intro owner page has
      cases owner with
      | slot i =>
        rcases has with ⟨bound, ptr, notBare⟩
        rw [mbufs] at ptr
        refine ⟨bound, ptr, ?_⟩
        intro o
        rw [← same_update bare o]
        exact notBare o
      | stack => rw [Receiver.Has, handed] at has; exact has
    · intro _ page _ live
      rcases isSome_iff_exists.mp live with ⟨mbuf, stored⟩
      rcases mem page mbuf stored with ⟨o, oStored, _⟩
      rw [Receiver.Live, oStored]
      rfl
  nodup := by rw [handed]; exact inv.nodup
  head := by
    intro i bound notBare
    have old : ∀ o, (ts o).stage.bare ≠ some i := by
      intro o
      rw [← same_update bare o]
      exact notBare o
    rcases inv.head i bound old with ⟨mbuf, stored, zero⟩
    rcases mem _ mbuf stored with ⟨o, oStored, sameHead⟩
    rw [mbufs]
    exact ⟨o, oStored, sameHead.trans zero⟩
  addr := by
    intro i bound notUnaddressed
    rw [addr, mbufs]
    apply inv.addr i bound
    intro o
    rw [← same_update unaddressed o]
    exact notUnaddressed o

theorem quiet (ring : RxRing after) (fits : tok.stage.Fits after)
    (others : ∀ o, o ≠ t → (ts o).stage.Fits after)
    (lock : Exclusive after.e1000Lock2 (fun tok : RxToken => tok.stage.locks) (update ts t tok))
    (claim : Exclusive after.claimed RxToken.claim (update ts t tok))
    (unaddressed : tok.stage.unaddressed = none) (old : (ts t).stage.unaddressed = none)
    (recycles : tok.stage.recycles = (ts t).stage.recycles) (ret : after.returned = s.returned)
    (sent : after.delivered = s.delivered)
    (handed : after.handed = s.handed) (mbufs : after.rxMbufs = s.rxMbufs)
    (mem : after.memory = s.memory) (desc : after.rxRing = s.rxRing) :
    RxInv after (update ts t tok) := by
  have bare : ∀ {stage : RxStage}, stage.unaddressed = none → stage.bare = none := by
    intro stage none
    cases stage with
    | handed i => cases none
    | _ => rfl
  apply inv.keep ring fits others lock claim
  · rw [bare unaddressed, bare old]
  · rw [unaddressed, old]
  · exact recycles
  · exact ret
  · exact sent
  · exact handed
  · exact mbufs
  · intro page mbuf stored
    rw [mem]
    exact ⟨mbuf, stored, rfl⟩
  · intro i
    rw [desc]

theorem acquire (unlocked : (ts t).stage.locks = false) (free : s.e1000Lock2 = false) :
    RxInv { s with e1000Lock2 := true } (update ts t { ts t with stage := .locked }) := by
  have lock := inv.lock
  rw [free] at lock
  have settled : s.delivered.length = s.returned :=
    inv.settled fun o => RxStage.not_recycles (lock.none_of_free o)
  apply inv.quiet
  · exact { inv.ring with }
  · exact settled
  · intro o _
    exact RxStage.fits_of_not_locks (lock.none_of_free o)
  · exact lock.acquire
  · exact inv.claim.keep rfl
  · rfl
  · cases stage : (ts t).stage with
    | idle | ended => rfl
    | _ => rw [stage] at unlocked; cases unlocked
  · rw [RxStage.not_recycles unlocked]
    rfl
  all_goals rfl

theorem release (h : (ts t).stage = .leaving) : RxInv { s with e1000Lock2 := false }
      (update ts t { ts t with stage := .ended }) := by
  have locked : (ts t).stage.locks = true := by rw [h]; rfl
  apply inv.quiet
  · exact { inv.ring with }
  · trivial
  · exact inv.others_fit locked
  · exact inv.lock.release locked rfl
  · exact inv.claim.keep rfl
  · rfl
  · rw [h]; rfl
  · rw [h]; rfl
  all_goals rfl

theorem readRdt (h : (ts t).stage = .locked) : RxInv s (update ts t
      { ts t with stage := .checking ((s.rdt + 1) % rxRingSize) }) := by
  have locked : (ts t).stage.locks = true := by rw [h]; rfl
  have fits := inv.fits t
  rw [h] at fits
  apply inv.quiet inv.ring
  · exact ⟨inv.ring.next_slot, fits⟩
  · exact inv.others_fit locked
  · exact inv.lock.keep (by rw [h]; rfl)
  · exact inv.claim.keep rfl
  · rfl
  · rw [h]; rfl
  · rw [h]; rfl
  all_goals rfl

end

/-- The stage after the test of the descriptor. -/
def afterStatus (i : Nat) (status : UInt8) : RxStage :=
  if status &&& e1000RxdStatDd = 0 then .leaving else .found i

section

variable (inv : RxInv s ts)
include inv

theorem readStatus {i : Nat} (h : (ts t).stage = .checking i) :
    RxInv { s with tested := true } (update ts t
      { ts t with stage := afterStatus i (s.rxRing i).status }) := by
  have locked : (ts t).stage.locks = true := by rw [h]; rfl
  have fits := inv.fits t
  rw [h] at fits
  rcases fits with ⟨rfl, settled⟩
  have shape : ∀ status : UInt8, (afterStatus (s.returned % rxRingSize) status).locks = true ∧
      (afterStatus (s.returned % rxRingSize) status).unaddressed = none ∧
      (afterStatus (s.returned % rxRingSize) status).recycles = false := by
    intro status
    rw [afterStatus]
    split <;> exact ⟨rfl, rfl, rfl⟩
  apply inv.quiet
  · exact { inv.ring with }
  · change RxStage.Fits _ (afterStatus _ _)
    rw [afterStatus]
    split
    · trivial
    · rename_i set
      exact ⟨rfl, settled, (inv.ring.status_next settled).mp set⟩
  · exact inv.others_fit locked
  · exact inv.lock.keep (by rw [locked]; exact (shape _).1)
  · exact inv.claim.keep rfl
  · exact (shape _).2.1
  · rw [h]; rfl
  · rw [h]
    exact (shape _).2.2
  all_goals rfl

theorem setLen {i : Nat} (h : (ts t).stage = .found i) {mbuf : Mbuf}
    (stored : s.memory (s.rxMbufs i) = some mbuf) :
    RxInv (s.setMbuf (s.rxMbufs i) (some { mbuf with len := (s.rxRing i).length }))
      (update ts t { ts t with stage := .sized i }) := by
  have locked : (ts t).stage.locks = true := by rw [h]; rfl
  have fits := inv.fits t
  rw [h] at fits
  have mem : ∀ page o, s.memory page = some o → ∃ later, update s.memory (s.rxMbufs i)
          (some { mbuf with len := (s.rxRing i).length }) page = some later ∧
        later.head = o.head ∧ later.buf = o.buf := by
    intro page o held
    by_cases same : page = s.rxMbufs i
    · subst same
      rw [held] at stored
      cases stored
      rw [update_self]
      exact ⟨_, rfl, rfl, rfl⟩
    · rw [update_of_ne same]
      exact ⟨o, held, rfl, rfl⟩
  have same : ∀ j, s.SameBuffer (s.setMbuf (s.rxMbufs i)
      (some { mbuf with len := (s.rxRing i).length })) j := by
    intro j o held head
    rcases mem _ o held with ⟨later, laterStored, sameHead, sameBytes⟩
    exact ⟨later, laterStored, sameHead.trans head, sameBytes⟩
  apply inv.keep (inv.ring.of_buffers (fun _ _ _ _ => same _) fun _ _ => same _)
  · exact ⟨fits.1, fits.2.1, fits.2.2, _, update_self _ _ _, rfl⟩
  · exact inv.others_fit locked
  · exact inv.lock.keep (by rw [h]; rfl)
  · exact inv.claim.keep rfl
  · rw [h]; rfl
  · rw [h]; rfl
  · rw [h]; rfl
  · rfl
  · rfl
  · rfl
  · rfl
  · intro page o held
    rcases mem page o held with ⟨later, laterStored, sameHead, _⟩
    exact ⟨later, laterStored, sameHead⟩
  · intro _
    rfl

omit [DecidableEq Thread] in
theorem none_recycles (h : (ts t).stage.locks = true) (o : Thread)
    (ne : o ≠ t) : (ts o).stage.unaddressed = none := by
  have unlocked := inv.lock.other h ne
  cases stage : (ts o).stage with
  | idle | ended => rfl
  | _ => rw [stage] at unlocked; cases unlocked

theorem not_bare (locked : (ts t).stage.locks = true)
    (own : (ts t).stage.bare = none) (j : Nat) (o : Thread) : (ts o).stage.bare ≠ some j := by
  intro bare
  by_cases same : o = t
  · rw [same, own] at bare
    cases bare
  have never := unaddressed_of_bare bare
  rw [inv.none_recycles locked o same] at never
  cases never

theorem netRx {i : Nat} (h : (ts t).stage = .sized i) {mbuf : Mbuf}
    (stored : s.memory (s.rxMbufs i) = some mbuf) : RxInv (s.deliver i mbuf)
      (update ts t { ts t with stage := .handed i }) := by
  have locked : (ts t).stage.locks = true := by rw [h]; rfl
  have fits := inv.fits t
  rw [h] at fits
  rcases fits with ⟨rfl, settled, waits, held, heldStored, len⟩
  rw [stored] at heldStored
  cases heldStored
  have longer : (s.deliver (s.returned % rxRingSize) mbuf).delivered.length = s.returned + 1 := by
    simp [Receiver.deliver, settled]
  have whole : ∀ o, (ts o).stage.unaddressed = none := by
    intro o
    by_cases same : o = t
    · rw [same, h]; rfl
    · exact inv.none_recycles locked o same
  have notBare := inv.not_bare locked (by rw [h]; rfl)
  have slotHas : s.Has ts (.slot (s.returned % rxRingSize))
    (s.rxMbufs (s.returned % rxRingSize)) := ⟨slot_lt _, rfl, notBare _⟩
  constructor
  case ring => exact inv.ring.deliver settled waits stored len
  case fits => exact fits_update ⟨rfl, longer⟩ (inv.others_fit locked)
  case lock => exact inv.lock.keep (by rw [h]; rfl)
  case claim => exact inv.claim.keep rfl
  case settled =>
    intro none
    have never := none t
    rw [update_self] at never
    cases never
  case owned =>
    apply @Owned.move _ _ _ _ _ _ inv.owned (.slot (s.returned % rxRingSize)) .stack
    · intro owner page has
      cases owner with
      | slot j =>
        rcases has with ⟨bound, ptr, bare⟩
        refine inl ⟨?_, bound, ptr, notBare j⟩
        intro same
        cases same
        have taken := bare t
        rw [update_self] at taken
        exact taken rfl
      | stack =>
        rcases List.mem_cons.mp has with rfl | old
        · exact inr ⟨rfl, slotHas⟩
        · exact inl ⟨by simp, old⟩
    · intro page live
      exact live
  case nodup =>
    refine List.nodup_cons.mpr ⟨?_, inv.nodup⟩
    intro mem
    cases inv.owned.unique _ .stack _ slotHas mem
  case head =>
    intro j bound _
    exact inv.head j bound (notBare j)
  case addr =>
    intro j bound _
    apply inv.addr j bound
    intro o
    rw [whole o]
    exact (some_ne_none j).symm

theorem mbufalloc {i : Nat} {m : Page} (h : (ts t).stage = .handed i) (unused : s.memory m = none) :
    RxInv (s.replace i m) (update ts t { ts t with stage := .fresh i m }) := by
  have locked : (ts t).stage.locks = true := by rw [h]; rfl
  have fits := inv.fits t
  rw [h] at fits
  rcases fits with ⟨rfl, ahead⟩
  have dead : ¬s.Live m := by simp [Receiver.Live, unused]
  have away : ∀ {page}, s.Live page → update s.memory m (some emptyMbuf) page = s.memory page := by
    intro page live
    apply update_of_ne
    intro same
    exact dead (same ▸ live)
  -- Only this slot was bare.
  have notBare : ∀ j, j ≠ s.returned % rxRingSize → ∀ o, (ts o).stage.bare ≠ some j := by
    intro j ne o bare
    exact ne (inv.bare_slot bare).1
  have oMbuf : ∀ j, j ≠ s.returned % rxRingSize →
      (s.replace (s.returned % rxRingSize) m).rxMbufs j = s.rxMbufs j :=
    fun j ne => update_of_ne ne _ _
  constructor
  case ring => exact inv.ring.replace ahead unused
  case fits =>
    exact fits_update ⟨rfl, ahead, update_self _ _ _⟩ (inv.others_fit locked)
  case lock => exact inv.lock.keep (by rw [h]; rfl)
  case claim => exact inv.claim.keep rfl
  case settled =>
    intro none
    have never := none t
    rw [update_self] at never
    cases never
  case owned =>
    apply @Owned.gain _ _ _ _ _ _ inv.owned (.slot (s.returned % rxRingSize)) m dead
    · intro owner page has
      cases owner with
      | slot j =>
        rcases has with ⟨bound, ptr, _⟩
        by_cases same : j = s.returned % rxRingSize
        · subst same
          change update s.rxMbufs _ m _ = page at ptr
          rw [update_self] at ptr
          exact inr ⟨rfl, ptr.symm⟩
        · rw [oMbuf j same] at ptr
          exact inl ⟨bound, ptr, notBare j same⟩
      | stack => exact inl has
    · intro page possible
      change (update s.memory m (some emptyMbuf) page).isSome = true
      rcases possible with live | rfl
      · rwa [away live]
      · rw [update_self]
        rfl
  case nodup => exact inv.nodup
  case head =>
    intro j bound _
    by_cases same : j = s.returned % rxRingSize
    · subst same
      refine ⟨emptyMbuf, ?_, rfl⟩
      change update s.memory m _ (update s.rxMbufs _ m _) = _
      rw [update_self, update_self]
    · rcases inv.head j bound (notBare j same) with ⟨mbuf, stored, zero⟩
      refine ⟨mbuf, ?_, zero⟩
      rw [oMbuf j same]
      change update s.memory m _ _ = _
      rw [away (by rw [Receiver.Live, stored]; rfl), stored]
  case addr =>
    intro j bound unaddressed
    have ne : j ≠ s.returned % rxRingSize := by
      intro same
      have here := unaddressed t
      rw [update_self] at here
      exact here (by rw [same]; rfl)
    rw [oMbuf j ne]
    apply inv.addr j bound
    intro o
    by_cases same : o = t
    · rw [same, h]
      intro eq
      cases eq
      exact ne rfl
    · rw [inv.none_recycles locked o same]
      exact (some_ne_none j).symm

theorem setAddr {i : Nat} {m : Page}
    (h : (ts t).stage = .fresh i m) {mbuf : Mbuf} (stored : s.memory m = some mbuf) :
    RxInv (s.setDesc i { s.rxRing i with addr := ⟨m, mbuf.head⟩ })
      (update ts t { ts t with stage := .addressed i }) := by
  have locked : (ts t).stage.locks = true := by rw [h]; rfl
  have fits := inv.fits t
  rw [h] at fits
  rcases fits with ⟨rfl, ahead, ptr⟩
  have notBare := inv.not_bare locked (by rw [h]; rfl)
  have head : mbuf.head = 0 := by
    rcases inv.head _ (slot_lt _) (notBare _) with ⟨o, held, zero⟩
    rw [ptr, stored] at held
    cases held
    exact zero
  constructor
  case ring => exact inv.ring.rewrite ahead _
  case fits => exact fits_update ⟨rfl, ahead⟩ (inv.others_fit locked)
  case lock => exact inv.lock.keep (by rw [h]; rfl)
  case claim => exact inv.claim.keep rfl
  case settled =>
    intro none
    have never := none t
    rw [update_self] at never
    cases never
  case owned =>
    apply inv.owned.lose
    · intro owner page has
      cases owner with
      | slot j => exact ⟨has.1, has.2.1, notBare j⟩
      | stack => exact has
    · intro _ _ _ live
      exact live
  case nodup => exact inv.nodup
  case head =>
    intro j bound _
    exact inv.head j bound (notBare j)
  case addr =>
    intro j bound _
    change (update s.rxRing _ _ j).addr = ⟨s.rxMbufs j, 0⟩
    by_cases same : j = s.returned % rxRingSize
    · subst same
      rw [update_self, ptr, head]
    rw [update_of_ne same]
    apply inv.addr j bound
    intro o
    by_cases here : o = t
    · rw [here, h]
      intro eq
      cases eq
      exact same rfl
    · rw [inv.none_recycles locked o here]
      exact (some_ne_none j).symm

theorem clearStatus {i : Nat} (h : (ts t).stage = .addressed i) :
    RxInv (s.setDesc i { s.rxRing i with status := 0 })
      (update ts t { ts t with stage := .cleared i }) := by
  have locked : (ts t).stage.locks = true := by rw [h]; rfl
  have fits := inv.fits t
  rw [h] at fits
  rcases fits with ⟨rfl, ahead⟩
  apply inv.keep (inv.ring.rewrite ahead _)
  · refine ⟨rfl, ahead, ?_⟩
    change (update s.rxRing _ _ _).status &&& _ = 0
    rw [update_self]
    change (0 : UInt8) &&& e1000RxdStatDd = 0
    decide
  · exact inv.others_fit locked
  · exact inv.lock.keep (by rw [h]; rfl)
  · exact inv.claim.keep rfl
  · rw [h]; rfl
  · rw [h]; rfl
  · rw [h]; rfl
  · rfl
  · rfl
  · rfl
  · rfl
  · intro page mbuf held
    exact ⟨mbuf, held, rfl⟩
  · intro j
    change (update s.rxRing _ _ j).addr = _
    by_cases same : j = s.returned % rxRingSize
    · rw [same, update_self]
    · rw [update_of_ne same]

theorem writeRdt {i : Nat} (h : (ts t).stage = .cleared i) : RxInv (s.returnSlot i)
      (update ts t { ts t with stage := .leaving }) := by
  have locked : (ts t).stage.locks = true := by rw [h]; rfl
  have fits := inv.fits t
  rw [h] at fits
  rcases fits with ⟨rfl, ahead, clear⟩
  have whole : ∀ o, (ts o).stage.unaddressed = none := by
    intro o
    by_cases same : o = t
    · rw [same, h]; rfl
    · exact inv.none_recycles locked o same
  have notBare := inv.not_bare locked (by rw [h]; rfl)
  constructor
  case ring => exact inv.ring.returnSlot ahead clear
  case fits => exact fits_update trivial (inv.others_fit locked)
  case lock => exact inv.lock.keep (by rw [h]; rfl)
  case claim => exact inv.claim.keep rfl
  case settled =>
    intro _
    exact ahead
  case owned =>
    apply inv.owned.lose
    · intro owner page has
      cases owner with
      | slot j => exact ⟨has.1, has.2.1, notBare j⟩
      | stack => exact has
    · intro _ _ _ live
      exact live
  case nodup => exact inv.nodup
  case head =>
    intro j bound _
    exact inv.head j bound (notBare j)
  case addr =>
    intro j bound _
    apply inv.addr j bound
    intro o
    rw [whole o]
    exact (some_ne_none j).symm

theorem interrupt {icr tested claimed claim : Bool}
    {stage : RxStage} (old : (ts t).stage.locks = false) (unlocked : stage.locks = false)
    (exclusive : Exclusive claimed RxToken.claim (update ts t { claim := claim, stage := stage })) :
    RxInv { s with icr := icr, tested := tested, claimed := claimed }
      (update ts t { claim := claim, stage := stage }) := by
  have none : ∀ {o : RxStage}, o.locks = false → o.unaddressed = none := by
    intro o free
    cases o with
    | idle | ended => rfl
    | _ => cases free
  apply inv.quiet
  · exact { inv.ring with }
  · exact RxStage.fits_of_not_locks unlocked
  · intro o _
    exact (inv.fits o).frame rfl rfl le_rfl rfl (fun mbuf _ held => ⟨mbuf, held, rfl⟩) fun _ => rfl
  · exact inv.lock.keep (by rw [old]; exact unlocked)
  · exact exclusive
  · exact none unlocked
  · exact none old
  · rw [RxStage.not_recycles old]
    exact RxStage.not_recycles unlocked
  all_goals rfl

end

end RxInv

end Xv6
