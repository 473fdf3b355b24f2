import Mathlib.Data.List.Nodup
import Xv6.Foundation.Ownership
import Xv6.E1000.TransmitRing

/-! # Ownership of the transmit ring

A page belongs to a call of the driver or to a slot of `tx_mbufs`. The call that
holds `e1000_lock` takes over the slot at `TDT` together with the mbuf stashed
there, and gives the slot back with its own mbuf in it. -/

namespace Xv6

open Foundation Function List Option Or

/-- A call of `e1000_transmit` past its test of descriptor `slot`: what the
descriptor and `tx_mbufs` hold now, and the old mbuf as long as it is not freed. -/
structure Filling where
  m : Page
  mbuf : Mbuf
  slot : Nat
  desc : TxDesc
  stash : Option Page
  old : Option Page

/-- How far a thread is with sending a packet. -/
inductive TxToken
  | idle
  | packet (m : Page) (mbuf : Mbuf)
  | locked (m : Page) (mbuf : Mbuf)
  | checking (m : Page) (mbuf : Mbuf) (slot : Nat)
  | filling (work : Filling)
  | leaving

/-- The device keeps up: fewer than all descriptors are in use, and the device
has still to take fewer than all but one. -/
def Transmitter.HasRoom (s : Transmitter) : Prop :=
  s.accepted.length < s.finished + txRingSize ∧
    s.accepted.length + 1 < s.taken + txRingSize

namespace TxToken

def locks : TxToken → Bool
  | .idle | .packet _ _ => false
  | .locked _ _ | .checking _ _ _ | .filling _ | .leaving => true

/-- The pages that belong to the thread. -/
def pages : TxToken → List Page
  | .idle | .leaving => []
  | .packet m _ | .locked m _ | .checking m _ _ => [m]
  | .filling work => work.m :: work.old.toList

/-- The slot that the thread has taken over. -/
def refills : TxToken → Option Nat
  | .filling work => some work.slot
  | _ => none

/-- The thread's packet is in memory as the thread made it. -/
def Prepared (s : Transmitter) (m : Page) (mbuf : Mbuf) : Prop :=
  s.memory m = some mbuf ∧ mbuf.len < 2 ^ 16

/-- What a token says of the state. -/
def Fits (s : Transmitter) : TxToken → Prop
  | .idle | .leaving => True
  | .packet m mbuf | .locked m mbuf => Prepared s m mbuf
  | .checking m mbuf slot => Prepared s m mbuf ∧ slot = s.tdt
  | .filling work => Prepared s work.m work.mbuf ∧ work.slot = s.tdt ∧
      s.txRing s.tdt = work.desc ∧ s.txMbufs s.tdt = work.stash ∧
      s.HasRoom

theorem Fits.frame {s after : Transmitter} {tok : TxToken}
    (fits : tok.Fits s) (memory : ∀ page, page ∈ tok.pages → after.memory page = s.memory page)
    (slot : tok.locks = true → after.tdt = s.tdt ∧ after.txRing s.tdt = s.txRing s.tdt ∧
    after.txMbufs s.tdt = s.txMbufs s.tdt ∧ (s.HasRoom → after.HasRoom)) : tok.Fits after := by
  have prep : ∀ {m mbuf}, m ∈ tok.pages → Prepared s m mbuf → Prepared after m mbuf := by
    intro m mbuf mem held
    exact ⟨(memory m mem).trans held.1, held.2⟩
  cases tok with
  | idle | leaving => trivial
  | packet m mbuf | locked m mbuf => exact prep List.mem_cons_self fits
  | checking m mbuf slotNum =>
    exact ⟨prep List.mem_cons_self fits.1, fits.2.trans (slot rfl).1.symm⟩
  | filling work =>
    rcases fits with ⟨held, number, desc, stash, room⟩
    rcases slot rfl with ⟨sameTail, sameDesc, sameStash, keepsRoom⟩
    refine ⟨prep List.mem_cons_self held, number.trans sameTail.symm, ?_, ?_, keepsRoom room⟩
    · rw [sameTail, sameDesc, desc]
    · rw [sameTail, sameStash, stash]

end TxToken

inductive TxOwner (Thread : Type)
  | thread (t : Thread)
  | slot (i : Nat)

/-- Who has a page: a thread, or a slot that no thread has taken over. -/
def Transmitter.Has {Thread : Type} (s : Transmitter) (ts : Thread → TxToken) :
    TxOwner Thread → Page → Prop
  | .thread t, page => page ∈ (ts t).pages
  | .slot i, page =>
    s.txMbufs i = some page ∧ ∀ t, (ts t).refills ≠ some i

def Transmitter.Live (s : Transmitter) (page : Page) : Prop :=
  (s.memory page).isSome = true

/-- The ring, and who holds what of it. -/
structure TxInv {Thread : Type} (s : Transmitter) (ts : Thread → TxToken) :
    Prop where
  ring : TxRing s
  fits : ∀ t, (ts t).Fits s
  lock : Exclusive s.e1000Lock TxToken.locks ts
  owned : Owned (s.Has ts) s.Live
  nodup : ∀ t, (ts t).pages.Nodup

namespace TxInv

variable {Thread : Type} {s after : Transmitter} {ts : Thread → TxToken}
  {t : Thread} {tok : TxToken}

theorem refills_none (unlocked : tok.locks = false) : tok.refills = none := by
  cases tok with
  | filling work => cases unlocked
  | _ => rfl

variable {slot : Nat}

theorem refilled (inv : TxInv s ts) (refills : (ts t).refills = some slot) :
    slot = s.tdt ∧ s.HasRoom := by
  have fits := inv.fits t
  cases h : ts t with
  | filling work =>
    rw [h] at fits refills
    cases refills
    exact ⟨fits.2.1, fits.2.2.2.2⟩
  | _ =>
    rw [h] at refills
    cases refills

variable {k : Nat} {request : Request}

section

variable (inv : TxInv s ts)
include inv

theorem slot_has (later : s.finished ≤ k) (hit : s.accepted[k]? = some request) (free : ∀ o,
    (ts o).refills ≠ some (k % txRingSize)) : s.Has ts (.slot (k % txRingSize)) request.addr.page :=
  ⟨inv.ring.stash k request later hit, free⟩

theorem unfinished_free (later : s.finished ≤ k) (hit : s.accepted[k]? = some request)
    (o : Thread) : (ts o).refills ≠ some (k % txRingSize) := by
  intro refills
  rcases inv.refilled refills with ⟨atTail, room, _⟩
  have bound := getElem?_lt hit
  rw [inv.ring.tdt] at atTail
  have same := eq_of_mod_eq atTail (by omega) (by omega)
  omega

theorem unfinished_not_held (later : s.finished ≤ k) (hit : s.accepted[k]? = some request)
    (o : Thread) : request.addr.page ∉ (ts o).pages := by
  intro mem
  have slotHas := inv.slot_has later hit (inv.unfinished_free later hit)
  have same := inv.owned.unique (.thread o) _ _ mem slotHas
  cases same

theorem others_fit (h : (ts t).locks = true)
    (mem : after.memory = s.memory) (o : Thread) (ne : o ≠ t) : (ts o).Fits after := by
  apply (inv.fits o).frame
  · intro page _
    rw [mem]
  · intro both
    rw [inv.lock.other h ne] at both
    cases both

/-! ## Steps of the device -/

theorem deviceStep (ring : TxRing after)
    (lock : after.e1000Lock = s.e1000Lock) (mem : after.memory = s.memory)
    (stash : after.txMbufs = s.txMbufs) (tail : after.tdt = s.tdt)
    (desc : s.HasRoom → after.txRing s.tdt = s.txRing s.tdt)
    (room : s.HasRoom → after.HasRoom) : TxInv after ts where
  ring := ring
  fits := by
    intro o
    have fits := inv.fits o
    cases h : ts o with
    | filling work =>
      rw [h] at fits
      rcases fits with ⟨prep, number, descriptor, stashed, hasRoom⟩
      refine ⟨⟨by rw [mem]; exact prep.1, prep.2⟩, by rw [number, tail], ?_, ?_, room hasRoom⟩
      · rw [tail, desc hasRoom, descriptor]
      · rw [tail, stash, stashed]
    | idle | leaving => trivial
    | packet m mbuf | locked m mbuf =>
      rw [h] at fits
      exact ⟨by rw [mem]; exact fits.1, fits.2⟩
    | checking m mbuf slot =>
      rw [h] at fits
      exact ⟨⟨by rw [mem]; exact fits.1.1, fits.1.2⟩, by rw [tail]; exact fits.2⟩
  lock := by
    rw [lock]
    exact inv.lock
  owned := by
    have live : after.Live = s.Live := by
      funext page
      rw [Transmitter.Live, mem]
      rfl
    have has : after.Has ts = s.Has ts := by
      funext owner page
      cases owner with
      | thread o => rfl
      | slot i => rw [Transmitter.Has, stash]; rfl
    rw [live, has]
    exact inv.owned
  nodup := inv.nodup

theorem fetch (waits : s.tdh ≠ s.tdt) : TxInv s.fetch ts := by
  apply inv.deviceStep (inv.ring.fetch waits) rfl rfl rfl rfl fun _ => rfl
  intro room
  refine ⟨room.1, lt_of_lt_of_le room.2 ?_⟩
  simp only [Transmitter.fetch, Transmitter.taken, List.length_append]
  omega

theorem emit {desc : TxDesc} {rest : List (Nat × TxDesc)}
    (first : s.fetched = (slot, desc) :: rest) : TxInv (s.emit slot desc rest) ts := by
  apply inv.deviceStep (inv.ring.emit first) rfl rfl rfl rfl fun _ => rfl
  intro room
  refine ⟨room.1, lt_of_lt_of_le room.2 ?_⟩
  simp only [Transmitter.emit, Transmitter.taken, first, List.length_append,
    List.length_cons, List.length_nil]
  omega

theorem finish {rest : List Nat}
    (first : s.sent = slot :: rest) : TxInv (s.finish slot rest) ts := by
  apply inv.deviceStep (inv.ring.finish first) rfl rfl rfl rfl
  · intro room
    apply update_of_ne
    have atFst := inv.ring.sent 0 slot (by rw [first]; rfl)
    have behind := inv.ring.behind
    rw [Transmitter.taken, first, List.length_cons] at behind
    rw [inv.ring.tdt, atFst]
    intro same
    have eq := eq_of_mod_eq same (by have := room.1; omega) (by omega)
    omega
  · intro room
    have enough := room.1
    refine ⟨?_, lt_of_lt_of_le room.2 ?_⟩
    · change s.accepted.length < s.finished + 1 + txRingSize
      omega
    · simp only [Transmitter.finish, Transmitter.setDesc, Transmitter.taken, first,
        List.length_cons]
      omega

end

/-! ## Steps of the driver -/

variable [DecidableEq Thread]

theorem has_update {owner : TxOwner Thread} {page : Page}
    (has : after.Has (update ts t tok) owner page) : owner = .thread t ∧ page ∈ tok.pages ∨
    (∃ o, o ≠ t ∧ owner = .thread o ∧ page ∈ (ts o).pages) ∨ ∃ i, owner = .slot i ∧
    after.txMbufs i = some page ∧ tok.refills ≠ some i ∧ ∀ o, o ≠ t → (ts o).refills ≠ some i := by
  cases owner with
  | thread o =>
    change page ∈ (update ts t tok o).pages at has
    by_cases same : o = t
    · rw [same, update_self] at has
      exact inl ⟨by rw [same], has⟩
    · rw [update_of_ne same] at has
      exact inr (inl ⟨o, same, rfl, has⟩)
  | slot i =>
    refine Or.inr (Or.inr ⟨i, rfl, has.1, ?_, ?_⟩)
    · have free := has.2 t
      rwa [update_self] at free
    · intro o ne
      have free := has.2 o
      rwa [update_of_ne ne] at free

omit [DecidableEq Thread] in
theorem has_slot {i : Nat} {page : Page} (stashed : s.txMbufs i = some page)
    (mine : (ts t).refills ≠ some i) (others : ∀ o, o ≠ t → (ts o).refills ≠ some i) :
    s.Has ts (.slot i) page := by
  refine ⟨stashed, ?_⟩
  intro o
  by_cases same : o = t
  · rwa [same]
  · exact others o same

theorem replace (inv : TxInv s ts) (ring : TxRing after) (fits : tok.Fits after)
    (others : ∀ o, o ≠ t → (ts o).Fits after) (lock : Exclusive after.e1000Lock TxToken.locks
      (update ts t tok))
    (owned : Owned (after.Has (update ts t tok)) after.Live) (nodup : tok.pages.Nodup) :
    TxInv after (update ts t tok) where
  ring := ring
  fits := by
    intro o
    by_cases same : o = t
    · rwa [same, update_self]
    · rw [update_of_ne same]
      exact others o same
  lock := lock
  owned := owned
  nodup := by
    intro o
    by_cases same : o = t
    · rwa [same, update_self]
    · rw [update_of_ne same]
      exact inv.nodup o

theorem has_keep (pages : tok.pages = (ts t).pages) (refills : tok.refills = (ts t).refills)
    (stash : ∀ i, (∀ o, (ts o).refills ≠ some i) →
    after.txMbufs i = s.txMbufs i) (owner : TxOwner Thread) (page : Page)
    (has : after.Has (update ts t tok) owner page) : s.Has ts owner page := by
  rcases has_update has with ⟨rfl, mem⟩ | ⟨o, _, rfl, mem⟩ | ⟨i, rfl, stashed, mine, others⟩
  · rwa [pages] at mem
  · exact mem
  rw [refills] at mine
  have had : ∀ o, (ts o).refills ≠ some i := by
    intro o
    by_cases same : o = t
    · rwa [same]
    · exact others o same
  exact ⟨(stash i had).symm.trans stashed, had⟩

theorem keep (inv : TxInv s ts) (ring : TxRing after) (fits : tok.Fits after) (others : ∀ o,
    o ≠ t → (ts o).Fits after) (lock : Exclusive after.e1000Lock TxToken.locks (update ts t tok))
    (pages : tok.pages = (ts t).pages) (refills : tok.refills = (ts t).refills)
    (stash : ∀ i, (∀ o, (ts o).refills ≠ some i) → after.txMbufs i = s.txMbufs i)
    (mem : after.memory = s.memory) : TxInv after (update ts t tok) := by
  apply inv.replace ring fits others lock
  · apply inv.owned.lose (has_keep pages refills stash)
    intro _ page _ live
    rwa [Transmitter.Live, mem]
  · rw [pages]
    exact inv.nodup t

variable {m : Page} {mbuf : Mbuf}

section

variable (inv : TxInv s ts)
include inv

theorem mbufalloc (h : ts t = .idle) (unused : s.memory m = none) (small : mbuf.len < 2 ^ 16) :
    TxInv { s with memory := update s.memory m (some mbuf) } (update ts t (.packet m mbuf)) := by
  have dead : ¬s.Live m := by simp [Transmitter.Live, unused]
  have away : ∀ {page}, s.Live page → update s.memory m (some mbuf) page = s.memory page := by
    intro page live
    apply update_of_ne
    intro same
    exact dead (same ▸ live)
  apply inv.replace
  · apply inv.ring.of_memory
    intro k request later hit
    rcases inv.ring.kept k request later hit with ⟨stored, eq, _⟩
    exact away (by simp [Transmitter.Live, eq])
  · exact ⟨update_self _ _ _, small⟩
  · intro o _
    apply (inv.fits o).frame
    · intro page mem
      exact away (inv.owned.live (.thread o) page mem)
    · intro _
      exact ⟨rfl, rfl, rfl, id⟩
  · exact inv.lock.keep (by rw [h]; rfl)
  · apply @Owned.gain _ _ _ _ _ _ inv.owned (.thread t) m dead
    · intro owner page has
      rcases has_update has with ⟨rfl, mem⟩ | ⟨o, _, rfl, mem⟩ | ⟨i, rfl, stashed, _, others⟩
      · exact inr ⟨rfl, mem_singleton.mp mem⟩
      · exact inl mem
      · exact inl (has_slot stashed (by rw [h]; simp [TxToken.refills]) others)
    · intro page possible
      change (update s.memory m (some mbuf) page).isSome = true
      rcases possible with live | rfl
      · rwa [away live]
      · rw [update_self]
        rfl
  · exact nodup_singleton m

theorem mbuffree (own : m ∈ (ts t).pages)
    (pages : ∀ page, page ∈ tok.pages → page ∈ (ts t).pages ∧ page ≠ m) (nodup : tok.pages.Nodup)
    (refills : tok.refills = (ts t).refills) (locks : tok.locks = (ts t).locks)
    (fits : tok.Fits { s with memory := update s.memory m none }) :
    TxInv { s with memory := update s.memory m none } (update ts t tok) := by
  have away : ∀ {page}, page ≠ m → update s.memory m none page = s.memory page :=
    fun ne => update_of_ne ne _ _
  apply inv.replace
  · apply inv.ring.of_memory
    intro k request later hit
    apply away
    intro same
    exact inv.unfinished_not_held later hit t (same ▸ own)
  · exact fits
  · intro o ne
    apply (inv.fits o).frame
    · intro page mem
      apply away
      rintro rfl
      have eq := inv.owned.unique (.thread o) (.thread t) page mem own
      cases eq
      exact ne rfl
    · intro _
      exact ⟨rfl, rfl, rfl, id⟩
  · exact inv.lock.keep locks
  · -- Whoever still has a page had it before, and it is not the freed one.
    have old : ∀ owner page, Transmitter.Has
        { s with memory := update s.memory m none }
        (update ts t tok) owner page → s.Has ts owner page ∧ page ≠ m := by
      intro owner page has
      have had : s.Has ts owner page := by
        rcases has_update has with ⟨rfl, mem⟩ | ⟨o, _, rfl, mem⟩ | ⟨i, rfl, stashed, mine, others⟩
        · exact (pages page mem).1
        · exact mem
        · exact has_slot stashed (refills ▸ mine) others
      refine ⟨had, ?_⟩
      rintro rfl
      cases inv.owned.unique owner (.thread t) page had own
      rcases has_update has with ⟨_, mem⟩ | ⟨o, ne, same, _⟩ | ⟨i, o, _⟩
      · exact (pages page mem).2 rfl
      · cases same
        exact ne rfl
      · cases o
    apply inv.owned.lose fun owner page has => (old owner page has).1
    intro owner page has live
    change (update s.memory m none page).isSome = true
    rwa [away (old owner page has).2]
  · exact nodup

theorem acquire (h : ts t = .packet m mbuf) (free : s.e1000Lock = false) :
    TxInv { s with e1000Lock := true } (update ts t (.locked m mbuf)) := by
  have fits := inv.fits t
  rw [h] at fits
  have lock := inv.lock
  rw [free] at lock
  apply inv.keep (inv.ring.of_lock true)
  · exact fits
  · intro o _
    exact (inv.fits o).frame (fun _ _ => rfl) fun _ => ⟨rfl, rfl, rfl, id⟩
  · exact lock.acquire
  · rw [h]; rfl
  · rw [h]; rfl
  · intro _ _; rfl
  · rfl

theorem release (h : (ts t).locks = true)
    (free : tok.locks = false) (fits : tok.Fits { s with e1000Lock := false })
    (pages : tok.pages = (ts t).pages)
    (refills : (ts t).refills = none) :
    TxInv { s with e1000Lock := false } (update ts t tok) := by
  apply inv.keep (inv.ring.of_lock false) fits
  · intro o _
    exact (inv.fits o).frame (fun _ _ => rfl) fun _ => ⟨rfl, rfl, rfl, id⟩
  · exact inv.lock.release h free
  · exact pages
  · rw [refills, refills_none free]
  · intro _ _; rfl
  · rfl

theorem readTdt (h : ts t = .locked m mbuf) : TxInv s (update ts t (.checking m mbuf s.tdt)) := by
  have fits := inv.fits t
  rw [h] at fits
  apply inv.keep inv.ring
  · exact ⟨fits, rfl⟩
  · intro o _
    exact inv.fits o
  · exact inv.lock.keep (by rw [h]; rfl)
  · rw [h]; rfl
  · rw [h]; rfl
  · intro _ _; rfl
  · rfl

theorem readStatus (h : ts t = .checking m mbuf s.tdt) (room : s.HasRoom) :
    TxInv s (update ts t (.filling
      { m := m, mbuf := mbuf, slot := s.tdt, desc := s.txRing s.tdt
        stash := s.txMbufs s.tdt, old := s.txMbufs s.tdt })) := by
  have fits := inv.fits t
  rw [h] at fits
  have locked : (ts t).locks = true := by rw [h]; rfl
  -- Nobody has taken over any slot before.
  have free : ∀ o, (ts o).refills = none := by
    intro o
    by_cases same : o = t
    · rw [same, h]; rfl
    · exact refills_none (inv.lock.other locked same)
  have slotHas : ∀ page, s.txMbufs s.tdt = some page → s.Has ts (.slot s.tdt) page := by
    intro page stashed
    refine ⟨stashed, ?_⟩
    intro o
    rw [free o]
    exact (some_ne_none _).symm
  have mine : s.Has ts (.thread t) m := by
    change m ∈ (ts t).pages
    rw [h]
    exact mem_singleton.mpr rfl
  apply inv.replace inv.ring
  · exact ⟨fits.1, rfl, rfl, rfl, room⟩
  · intro o _
    exact inv.fits o
  · exact inv.lock.keep (by rw [h]; rfl)
  · apply @Owned.move _ _ _ _ _ _ inv.owned (.slot s.tdt) (.thread t)
    · intro owner page has
      rcases has_update has with ⟨rfl, mem⟩ | ⟨o, _, rfl, mem⟩ | ⟨i, rfl, stashed, taken, _⟩
      · rcases mem_cons.mp mem with rfl | old
        · exact inl ⟨by simp, mine⟩
        · exact inr ⟨rfl, slotHas page (mem_toList.mp old)⟩
      · exact inl ⟨by simp, mem⟩
      refine inl ⟨?_, stashed, ?_⟩
      · intro eq
        cases eq
        exact taken rfl
      · intro o
        rw [free o]
        exact (some_ne_none _).symm
    · intro page live
      exact live
  · refine nodup_cons.mpr ⟨?_, ?_⟩
    · intro mem
      have both := slotHas m (mem_toList.mp mem)
      cases inv.owned.unique _ _ m mine both
    · cases s.txMbufs s.tdt <;> simp

end

variable {work : Filling}

theorem setDesc (inv : TxInv s ts) {desc : TxDesc}
    (h : ts t = .filling work) (status : desc.status = work.desc.status) :
    TxInv (s.setDesc work.slot desc) (update ts t (.filling { work with desc := desc })) := by
  have fits := inv.fits t
  rw [h] at fits
  rcases fits with ⟨prep, number, descriptor, stash, room⟩
  have done := inv.ring.done s.tdt
  rw [descriptor, ← status] at done
  rw [number]
  apply inv.keep (inv.ring.refill room.1 done)
  · exact ⟨prep, rfl, update_self _ _ _, stash, room⟩
  · exact inv.others_fit (by rw [h]; rfl) rfl
  · exact inv.lock.keep (by rw [h]; rfl)
  · rw [h]; rfl
  · rw [h, TxToken.refills, TxToken.refills, number]
  · intro _ _; rfl
  · rfl

theorem setTxMbufs (inv : TxInv s ts) (m : Page) (h : ts t = .filling work) :
    TxInv { s with txMbufs := update s.txMbufs work.slot (some m) }
      (update ts t (.filling { work with stash := some m })) := by
  have fits := inv.fits t
  rw [h] at fits
  rcases fits with ⟨prep, number, desc, stash, room⟩
  rw [number]
  apply inv.keep (inv.ring.restash room.1 (some m))
  · exact ⟨prep, rfl, desc, update_self _ _ _, room⟩
  · exact inv.others_fit (by rw [h]; rfl) rfl
  · exact inv.lock.keep (by rw [h]; rfl)
  · rw [h]; rfl
  · rw [h, TxToken.refills, TxToken.refills, number]
  · intro i free
    apply update_of_ne
    intro same
    apply free t
    rw [h, same, ← number]
    rfl
  · rfl

theorem writeTdt (inv : TxInv s ts)
    (h : ts t = .filling work) (stash : work.stash = some work.m) (freed : work.old = none)
    (addr : work.desc.addr = ⟨work.m, work.mbuf.head⟩) (length : work.desc.length = work.mbuf.len) :
    TxInv (s.accept work.slot work.m work.mbuf) (update ts t .leaving) := by
  have fits := inv.fits t
  rw [h] at fits
  rcases fits with ⟨prep, number, descriptor, stashed, room⟩
  have locked : (ts t).locks = true := by rw [h]; rfl
  have mine : (ts t).pages = [work.m] := by
    rw [h, TxToken.pages, freed]
    rfl
  rw [stash] at stashed
  rw [number]
  apply inv.replace
  · apply inv.ring.accept room.1 room.2 prep.1 stashed
    · rw [descriptor, addr]
    · rw [descriptor, length]
  · trivial
  · exact inv.others_fit locked rfl
  · exact inv.lock.keep (by rw [h]; rfl)
  · apply @Owned.move _ _ _ _ _ _ inv.owned (.thread t) (.slot s.tdt)
    · intro owner page has
      rcases has_update has with ⟨_, mem⟩ | ⟨o, ne, rfl, mem⟩ | ⟨i, rfl, slotStash, _, others⟩
      · cases mem
      · refine inl ⟨?_, mem⟩
        intro eq
        cases eq
        exact ne rfl
      · by_cases atTail : i = s.tdt
        · have eq : some work.m = some page := by rwa [← stashed, ← atTail]
          cases eq
          refine inr ⟨by rw [atTail], ?_⟩
          change work.m ∈ (ts t).pages
          rw [mine]
          exact mem_singleton.mpr rfl
        · refine inl ⟨by simp, has_slot slotStash ?_ others⟩
          rw [h]
          intro eq
          cases eq
          exact atTail number
    · intro page live
      exact live
  · exact nodup_nil

end TxInv

end Xv6
