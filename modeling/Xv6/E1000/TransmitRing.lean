import Xv6.Foundation.Window
import Xv6.E1000.Transmit

/-! # The transmit ring

The `k`-th accepted packet goes through descriptor `k mod TX_RING_SIZE`. While
the device keeps up, the packets it has not finished with take up fewer
descriptors than the ring has, and none of them is the one at `TDT`. -/

namespace Xv6

open Foundation Function Transmitter List

@[simp] theorem txRingSize_eq : txRingSize = 16 := rfl

/-- The descriptor points at what a request asked for. -/
def TxDesc.Names (desc : TxDesc) (request : Request) : Prop :=
  desc.addr = request.addr ∧ desc.length = request.length

/-- The packet of a request is still in memory where it was accepted. -/
def Transmitter.Keeps (s : Transmitter) (request : Request) : Prop :=
  ∃ mbuf, s.memory request.addr.page = some mbuf ∧
    mbuf.buf.slice request.addr.offset request.length = request.frame

/-- The ring, the device and the packets accepted so far. -/
structure TxRing (s : Transmitter) : Prop where
  tdt : s.tdt = s.accepted.length % txRingSize
  tdh : s.tdh = s.taken % txRingSize
  behind : s.taken ≤ s.accepted.length
  unfinished : s.accepted.length ≤ s.finished + txRingSize
  untaken : s.accepted.length < s.taken + txRingSize
  slot : ∀ k request, s.accepted[k]? = some request →
    request.slot = k % txRingSize
  stash : Window txRingSize (fun page request => page = some request.addr.page)
    s.txMbufs s.accepted s.finished
  kept : ∀ k request, s.finished ≤ k → s.accepted[k]? = some request →
    s.Keeps request
  ring : Window txRingSize TxDesc.Names s.txRing s.accepted s.taken
  fetched : ∀ j slot desc, s.fetched[j]? = some (slot, desc) →
    slot = (s.finished + s.sent.length + j) % txRingSize ∧
      ∃ request, s.accepted[s.finished + s.sent.length + j]? =
        some request ∧ desc.Names request
  sent : ∀ j slot, s.sent[j]? = some slot →
    slot = (s.finished + j) % txRingSize
  wire : s.wire =
    (s.accepted.take (s.finished + s.sent.length)).map Request.frame
  done : ∀ i, (s.txRing i).status &&& e1000TxdStatDd ≠ 0

namespace TxRing

variable {s : Transmitter}

theorem init : TxRing e1000Init where
  tdt := rfl
  tdh := rfl
  behind := Nat.le_refl 0
  unfinished := Nat.zero_le _
  untaken := by decide
  slot := by rintro k req ⟨⟩
  stash := Window.nil _ _ _ _
  kept := by rintro k req _ ⟨⟩
  ring := Window.nil _ _ _ _
  fetched := by rintro j slot desc ⟨⟩
  sent := by rintro j slot ⟨⟩
  wire := rfl
  done := by
    intro i
    change e1000TxdStatDd &&& e1000TxdStatDd ≠ 0
    decide

/-! ## The device -/

theorem fetch (ring : TxRing s) (waits : s.tdh ≠ s.tdt) : TxRing s.fetch := by
  have behind := ring.behind
  have space : s.taken < s.accepted.length := by
    apply lt_of_le_of_ne behind
    intro same
    exact waits (by rw [ring.tdh, ring.tdt, same])
  have next := getElem?_eq_getElem space
  have count : s.fetch.taken = s.taken + 1 := by
    simp only [Transmitter.fetch, Transmitter.taken, List.length_append, List.length_singleton]
    omega
  constructor
  case tdt => exact ring.tdt
  case tdh =>
    rw [count]
    change (s.tdh + 1) % txRingSize = _
    rw [ring.tdh, Nat.mod_add_mod]
  case behind =>
    rwa [count]
  case unfinished => exact ring.unfinished
  case untaken =>
    rw [count]
    exact lt_of_lt_of_le ring.untaken (by omega)
  case slot => exact ring.slot
  case stash => exact ring.stash
  case kept => exact ring.kept
  case ring =>
    rw [count]
    exact ring.ring.later (Nat.le_succ _)
  case fetched =>
    intro j slot desc hit
    rcases getElem?_concat_cases hit with old | ⟨rfl, eq⟩
    · exact ring.fetched j slot desc old
    cases eq
    refine ⟨ring.tdh, _, next, ?_⟩
    rw [ring.tdh]
    exact ring.ring _ _ le_rfl next
  case sent => exact ring.sent
  case wire => exact ring.wire
  case done => exact ring.done

variable {slot : Nat} {desc : TxDesc}

section

variable (ring : TxRing s)
include ring

theorem read_fetched {rest : List (Nat × TxDesc)} (first : s.fetched = (slot, desc) :: rest) :
    ∃ req, s.accepted[s.finished + s.sent.length]? = some req ∧
    s.read desc.addr desc.length = req.frame := by
  rcases ring.fetched 0 slot desc (by rw [first]; rfl) with ⟨_, req, hit, names⟩
  rcases ring.kept _ req (by omega) hit with ⟨mbuf, stored, eq⟩
  refine ⟨req, hit, ?_⟩
  rwa [Transmitter.read, names.1, names.2, stored]

theorem emit {rest : List (Nat × TxDesc)} (first : s.fetched = (slot, desc) :: rest) :
    TxRing (s.emit slot desc rest) := by
  rcases ring.read_fetched first with ⟨req, hit, eq⟩
  have count : (s.emit slot desc rest).taken = s.taken := by
    simp only [Transmitter.emit, Transmitter.taken, first, List.length_append,
      List.length_cons, List.length_nil]
    omega
  constructor
  case tdt => exact ring.tdt
  case tdh => rw [count]; exact ring.tdh
  case behind => rw [count]; exact ring.behind
  case unfinished => exact ring.unfinished
  case untaken => rw [count]; exact ring.untaken
  case slot => exact ring.slot
  case stash => exact ring.stash
  case kept => exact ring.kept
  case ring => rw [count]; exact ring.ring
  case fetched =>
    intro j o oDesc hit
    have pre := ring.fetched (j + 1) o oDesc (by rw [first]; exact hit)
    have shift : s.finished + (s.sent ++ [slot]).length + j =
        s.finished + s.sent.length + (j + 1) := by
      rw [length_append, length_singleton]
      omega
    change o = (s.finished + (s.sent ++ [slot]).length + j) % txRingSize ∧
      ∃ req, s.accepted[s.finished + (s.sent ++ [slot]).length + j]? = some req ∧ oDesc.Names req
    rwa [shift]
  case sent =>
    intro j o hit
    rcases getElem?_concat_cases hit with old | ⟨rfl, rfl⟩
    · exact ring.sent j o old
    · exact (ring.fetched 0 o desc (by rw [first]; rfl)).1
  case wire =>
    change s.wire ++ [s.read desc.addr desc.length] =
      (s.accepted.take (s.finished + (s.sent ++ [slot]).length)).map _
    rw [ring.wire, eq, length_append, length_singleton, ← add_assoc, take_add_one, hit, map_append]
    rfl
  case done => exact ring.done

theorem finish {rest : List Nat} (first : s.sent = slot :: rest) : TxRing (s.finish slot rest) := by
  have count : (s.finish slot rest).taken = s.taken := by
    simp only [Transmitter.finish, Transmitter.setDesc, Transmitter.taken, first, List.length_cons]
    omega
  have shift : s.finished + 1 + rest.length = s.finished + s.sent.length := by
    rw [first, List.length_cons]
    omega
  -- The descriptor keeps everything but its status.
  have same : ∀ i, ((s.finish slot rest).txRing i).addr = (s.txRing i).addr ∧
      ((s.finish slot rest).txRing i).length = (s.txRing i).length := by
    intro i
    by_cases here : i = slot
    · subst here
      simp [finish, setDesc]
    · simp [Transmitter.finish, Transmitter.setDesc, here]
  constructor
  case tdt => exact ring.tdt
  case tdh => rw [count]; exact ring.tdh
  case behind => rw [count]; exact ring.behind
  case unfinished =>
    have bound := ring.unfinished
    change _ ≤ s.finished + 1 + txRingSize
    exact le_trans bound (by omega)
  case untaken => rw [count]; exact ring.untaken
  case slot => exact ring.slot
  case stash => exact ring.stash.later (Nat.le_succ _)
  case kept =>
    intro k req later hit
    exact ring.kept k req (Nat.le_of_succ_le later) hit
  case ring =>
    rw [count]
    refine Window.change ring.ring ?_
    intro k req _ _ names
    exact ⟨(same _).1.trans names.1, (same _).2.trans names.2⟩
  case fetched =>
    change ∀ j slot desc, s.fetched[j]? = some (slot, desc) →
      slot = (s.finished + 1 + rest.length + j) % txRingSize ∧
        ∃ req, s.accepted[s.finished + 1 + rest.length + j]? = some req ∧ desc.Names req
    rw [shift]
    exact ring.fetched
  case sent =>
    intro j o hit
    have old := ring.sent (j + 1) o (by rw [first]; exact hit)
    rw [old]
    change _ = (s.finished + 1 + j) % txRingSize
    congr 1
    omega
  case wire =>
    change _ = (s.accepted.take (s.finished + 1 + rest.length)).map _
    rw [shift]
    exact ring.wire
  case done =>
    intro i
    by_cases here : i = slot
    · subst here
      simp [finish, setDesc, or_and_flag, e1000TxdStatDd]
    · simpa [Transmitter.finish, Transmitter.setDesc, here] using ring.done i

/-! ## The driver -/

theorem refill (room : s.accepted.length < s.finished + txRingSize)
    (done : desc.status &&& e1000TxdStatDd ≠ 0) : TxRing (s.setDesc s.tdt desc) :=
  { ring with
    ring := by
      have count : s.finished ≤ s.taken := by
        rw [taken]
        omega
      change Window _ _ (update s.txRing s.tdt desc) _ _
      rw [ring.tdt]
      exact ring.ring.update (by omega) (by omega) (Or.inr le_rfl) desc
    done := by
      intro i
      by_cases same : i = s.tdt
      · subst same
        simpa [setDesc] using done
      · simpa [setDesc, same] using ring.done i }

theorem restash (room : s.accepted.length < s.finished + txRingSize) (page : Option Page) :
    TxRing { s with txMbufs := update s.txMbufs s.tdt page } :=
  { ring with
    stash := by
      change Window _ _ (update s.txMbufs s.tdt page) _ _
      rw [ring.tdt]
      exact ring.stash.update (by omega) room (Or.inr le_rfl) page }

theorem of_memory {mem : Page → Option Mbuf}
    (same : ∀ k req, s.finished ≤ k → s.accepted[k]? = some req →
      mem req.addr.page = s.memory req.addr.page) : TxRing { s with memory := mem } :=
  { ring with
    kept := by
      intro k req later hit
      rcases ring.kept k req later hit with ⟨mbuf, stored, eq⟩
      exact ⟨mbuf, (same k req later hit).trans stored, eq⟩ }

theorem of_lock (lock : Bool) : TxRing { s with e1000Lock := lock } := { ring with }

theorem accept (room : s.accepted.length < s.finished + txRingSize)
    (space : s.accepted.length + 1 < s.taken + txRingSize)
    {m : Page} {mbuf : Mbuf} (stored : s.memory m = some mbuf) (stashed : s.txMbufs s.tdt = some m)
    (addr : (s.txRing s.tdt).addr = ⟨m, mbuf.head⟩) (length : (s.txRing s.tdt).length = mbuf.len) :
    TxRing (s.accept s.tdt m mbuf) := by
  have longer : (s.accept s.tdt m mbuf).accepted.length = s.accepted.length + 1 := by
    simp [Transmitter.accept]
  constructor
  case tdt =>
    rw [longer]
    change (s.tdt + 1) % txRingSize = _
    rw [ring.tdt, Nat.mod_add_mod]
  case tdh => exact ring.tdh
  case behind =>
    rw [longer]
    exact Nat.le_succ_of_le ring.behind
  case unfinished | untaken =>
    rwa [longer]
  case slot =>
    intro k req hit
    rcases getElem?_concat_cases hit with old | ⟨rfl, rfl⟩
    · exact ring.slot k req old
    · exact ring.tdt
  case stash =>
    apply ring.stash.concat
    rwa [← ring.tdt]
  case kept =>
    intro k req later hit
    rcases getElem?_concat_cases hit with old | ⟨rfl, rfl⟩
    · exact ring.kept k req later old
    · exact ⟨mbuf, stored, rfl⟩
  case ring =>
    apply ring.ring.concat
    rw [← ring.tdt]
    exact ⟨addr, length⟩
  case fetched =>
    intro j slot desc hit
    rcases ring.fetched j slot desc hit with ⟨eq, req, old, names⟩
    exact ⟨eq, req, getElem?_concat_old old, names⟩
  case sent => exact ring.sent
  case wire =>
    have behind := ring.behind
    have enough : s.finished + s.sent.length ≤ s.accepted.length := by
      rw [taken] at behind
      omega
    change s.wire = ((s.accepted ++ [_]).take (s.finished + s.sent.length)).map _
    rw [take_append_of_le_length enough]
    exact ring.wire
  case done => exact ring.done

theorem wire_eq (empty : s.tdh = s.tdt) (none : s.fetched = []) :
    s.wire = s.accepted.map Request.frame := by
  have caught : s.taken = s.accepted.length := by
    apply eq_of_mod_eq
    · rw [← ring.tdh, ← ring.tdt, empty]
    · have behind := ring.behind
      rw [txRingSize_eq]
      omega
    · exact ring.untaken
  have all : s.finished + s.sent.length = s.accepted.length := by
    rw [← caught, taken, none]
    rfl
  rw [ring.wire, all, take_length]

end

end TxRing

end Xv6
