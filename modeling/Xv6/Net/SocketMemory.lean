import Mathlib.Data.List.Perm.Subperm
import Xv6.Net.Sockets

/-! # The memory of sockets

What the list of sockets, their queues and the free list look like between the steps of a
call, and what each step does to them. -/

namespace Xv6

open Foundation Function Contents Pages SockState
open List (append_assoc mem_append mem_cons mem_cons_self nodup_cons)

namespace Contents

def isSock : Contents → Bool
  | .sock _ => true
  | _ => false

def isMbuf : Contents → Bool
  | .mbuf _ => true
  | _ => false

/-- The socket that a socket names as the next one. -/
def next : Contents → Option Page
  | .sock si => si.next
  | _ => none

/-- The connection of a socket. -/
def connection : Contents → Option Connection
  | .sock si => some si.connection
  | _ => none

variable {contents second : Contents}

theorem exists_of_isSock (isSock : contents.isSock = true) : ∃ si, contents = .sock si := by
  cases contents with
  | sock si => exact ⟨si, rfl⟩
  | free | other | mbuf m => cases isSock

theorem exists_of_isMbuf (isMbuf : contents.isMbuf = true) : ∃ m, contents = .mbuf m := by
  cases contents with
  | mbuf m => exact ⟨m, rfl⟩
  | free | other | sock si => cases isMbuf

theorem core_inj (same : contents.core = second.core) : contents.isSock = second.isSock ∧
    contents.isMbuf = second.isMbuf ∧ contents.next = second.next ∧
    (contents = .free ↔ second = .free) ∧ (contents = .other ↔ second = .other) := by
  have parts : ∀ contents : Contents, contents.core.isSock = contents.isSock ∧
      contents.core.isMbuf = contents.isMbuf ∧ contents.core.next = contents.next ∧
      (contents.core = .free ↔ contents = .free) ∧
      (contents.core = .other ↔ contents = .other) := by
    intro contents
    cases contents with
    | sock si | mbuf m => simp [core, isSock, isMbuf, next]
    | free | other => simp [core]
  have left := parts contents
  have right := parts second
  rw [same] at left
  exact ⟨left.1.symm.trans right.1, left.2.1.symm.trans right.2.1,
    left.2.2.1.symm.trans right.2.2.1, left.2.2.2.1.symm.trans right.2.2.2.1,
    left.2.2.2.2.symm.trans right.2.2.2.2⟩

end Contents

def Pages.nextSock (pages : Pages) (page : Page) : Option Page := (pages page).next

/-- The pages in use and the free pages. `list` are the sockets in the list, `queue` the
mbufs of each socket, and `held` the mbuf that a call has in hand. -/
structure SockState.Memory (s : SockState) (list : List Page) (queue : Page → List Page)
    (held : Option Page) : Prop where
  linked : Linked s.pages.nextSock s.sockets list
  inList : ∀ page ∈ list, (s.pages page).isSock = true
  queues : ∀ page si, s.pages page = .sock si → s.pages.IsQueue si (queue page)
  noQueue : ∀ page, (s.pages page).isSock = false → queue page = []
  apart : ∀ page other, page ≠ other → ∀ m ∈ queue page, m ∉ queue other
  inHand : ∀ m, held = some m →
    (∃ packet, s.pages m = .mbuf packet) ∧ ∀ page, m ∉ queue page
  mbufs : ∀ m packet, s.pages m = .mbuf packet → held = some m ∨ ∃ page, m ∈ queue page
  nodup : s.freelist.Nodup
  free : ∀ page, page ∈ s.freelist ↔ s.pages page = .free
  bound : ∀ page, nPages ≤ page → s.pages page = .other

namespace SockState

variable {s after : SockState} {list before rest : List Page} {queue : Page → List Page}
  {held : Option Page} {page m : Page} {si : Sock} {packet : Mbuf}

section

variable (memory : s.Memory list queue held)
include memory

theorem Memory.mbuf_of_mem (mem : m ∈ queue page) : ∃ packet, s.pages m = .mbuf packet := by
  cases isSock : (s.pages page).isSock with
  | false =>
    rw [memory.noQueue page isSock] at mem
    cases mem
  | true =>
    rcases exists_of_isSock isSock with ⟨si, h⟩
    exact (memory.queues page si h).mbufs m mem

theorem Memory.length_le {pages : List Page} (nodup : pages.Nodup)
    (used : ∀ page ∈ pages, s.pages page ≠ .other) : pages.length ≤ nPages := by
  have within : pages ⊆ List.range nPages := by
    intro page mem
    rw [List.mem_range]
    by_contra outside
    exact used page mem (memory.bound page (by omega))
  have fewer := (List.subperm_of_subset nodup within).length_le
  rwa [List.length_range] at fewer

theorem Memory.list_length_le : list.length ≤ nPages := by
  apply memory.length_le memory.linked.nodup
  intro page mem isO
  have isSock := memory.inList page mem
  rw [isO] at isSock
  cases isSock

theorem Memory.queue_length_le (h : s.pages page = .sock si) : (queue page).length ≤ nPages := by
  have isQueue := memory.queues page si h
  apply memory.length_le isQueue.linked.nodup
  intro m mem isO
  rcases isQueue.mbufs m mem with ⟨packet, isMbuf⟩
  rw [isO] at isMbuf
  cases isMbuf

end

/-! ## Walking along the list -/

variable {pages : Pages} {fuel : Nat} {cells : List Page}

theorem findSock_eq {connection : Connection} {start : Option Page}
    (linked : Linked pages.nextSock start cells)
    (socks : ∀ page ∈ cells, (pages page).isSock = true) (enough : cells.length ≤ fuel) :
    findSock pages connection fuel start =
    .ok (cells.find? fun page => (pages page).connection = some connection) := by
  induction cells generalizing start fuel with
  | nil =>
    rw [Linked.nil_iff.mp linked]
    cases fuel with
    | zero | succ fuel => rfl
  | cons cell rest ih =>
    rcases exists_of_isSock (socks cell mem_cons_self) with ⟨si, h⟩
    have names : pages.nextSock cell = si.next := by
      rw [nextSock, h]
      rfl
    have isConnection : (pages cell).connection = some si.connection := by
      rw [h]
      rfl
    cases fuel with
    | zero => simp at enough
    | succ fuel =>
      rw [linked.1, findSock, sock_eq h]
      dsimp only [bind, Except.bind]
      rw [List.find?_cons, isConnection]
      by_cases same : si.connection = connection
      · rw [if_pos same, same]
        simp
      have tail := linked.2
      rw [names] at tail
      have ne : ¬some si.connection = some connection := by
        intro eq
        cases eq
        exact same rfl
      rw [if_neg same, decide_eq_false ne]
      exact ih tail (fun page mem => socks page (List.mem_cons_of_mem _ mem))
        (Nat.le_of_succ_le_succ enough)

theorem Memory.findSock (mem : s.Memory list queue held) (conn : Connection) : findSock s.pages
    conn nPages s.sockets = .ok (list.find? fun page => (s.pages page).connection = some conn) :=
  findSock_eq mem.linked mem.inList mem.list_length_le

/-! ## Single pages -/

variable {later : Option Page}

theorem Memory.replace (memory : s.Memory list queue held) {contents : Contents}
    (outside : page ∉ list) (empty : queue page = [])
    (unqueued : ∀ o, page ∉ queue o) (below : page < nPages)
    (fresh : ∀ si, contents = .sock si → si.head = none)
    (others : ∀ m, m ≠ page → (later = some m ↔ held = some m))
    (here : later = some page ↔ ∃ packet, contents = .mbuf packet)
    (pages : after.pages = s.pages.set page contents)
    (sockets : after.sockets = s.sockets) (nodup : after.freelist.Nodup)
    (free : ∀ page, page ∈ after.freelist ↔ after.pages page = .free) :
    after.Memory list queue later := by
  have same : ∀ o, o ≠ page → after.pages o = s.pages o := by
    intro o ne
    rw [pages]
    exact set_ne _ ne _
  have changed : after.pages page = contents := by
    rw [pages]
    exact set_self _ _ _
  have notQueued : ∀ o, ∀ m ∈ queue o, m ≠ page := by
    intro o m mem isPage
    exact unqueued o (isPage ▸ mem)
  have notListed : ∀ o ∈ list, o ≠ page := by
    intro o mem isPage
    exact outside (isPage ▸ mem)
  constructor
  · rw [sockets]
    apply memory.linked.congr
    intro o mem
    rw [nextSock, nextSock, same o (notListed o mem)]
  · intro o mem
    rw [same o (notListed o mem)]
    exact memory.inList o mem
  · intro o si isSock
    by_cases isPage : o = page
    · rw [isPage, changed] at isSock
      rw [isPage, empty]
      refine ⟨fresh si isSock, ?_, ?_⟩
      · rintro last ⟨⟩
      · rintro m ⟨⟩
    · rw [same o isPage] at isSock
      apply (memory.queues o si isSock).congr
      intro m mem
      exact same m (notQueued o m mem)
  · intro o notSock
    by_cases isPage : o = page
    · rwa [isPage]
    · rw [same o isPage] at notSock
      exact memory.noQueue o notSock
  · exact memory.apart
  · intro m inHand
    by_cases isPage : m = page
    · rw [isPage] at inHand ⊢
      rw [changed]
      exact ⟨here.mp inHand, unqueued⟩
    · rw [same m isPage]
      exact memory.inHand m ((others m isPage).mp inHand)
  · intro m packet isMbuf
    by_cases isPage : m = page
    · rw [isPage, changed] at isMbuf
      rw [isPage]
      exact .inl (here.mpr ⟨packet, isMbuf⟩)
    rw [same m isPage] at isMbuf
    rcases memory.mbufs m packet isMbuf with inHand | queued
    · exact .inl ((others m isPage).mpr inHand)
    · exact .inr queued
  · exact nodup
  · exact free
  · intro o large
    have ne : o ≠ page := by
      intro isPage
      exact absurd below (not_lt.mpr (isPage ▸ large))
    rw [same o ne]
    exact memory.bound o large

theorem Memory.unqueued (memory : s.Memory list queue held)
    (notMbuf : ∀ packet, s.pages page ≠ .mbuf packet) (o : Page) : page ∉ queue o := by
  intro mem
  rcases memory.mbuf_of_mem mem with ⟨packet, isMbuf⟩
  exact notMbuf packet isMbuf

theorem Memory.lt_nPages (mem : s.Memory list queue held)
    (used : s.pages page ≠ .other) : page < nPages := by
  by_contra large
  exact used (mem.bound page (Nat.le_of_not_lt large))

theorem Memory.kalloc (memory : s.Memory list queue held) {contents : Contents}
    (fresh : ∀ si, contents = .sock si → si.head = none)
    (used : contents ≠ .free) (took : s.kalloc contents = some (page, after))
    (others : ∀ m, m ≠ page → (later = some m ↔ held = some m))
    (here : later = some page ↔ ∃ packet, contents = .mbuf packet) :
    after.Memory list queue later ∧ s.pages page = .free ∧
      after.pages = s.pages.set page contents ∧ after.sockets = s.sockets ∧
      after.files = s.files ∧ s.freelist = page :: after.freelist := by
  rw [SockState.kalloc] at took
  split at took
  · cases took
  next fst rest isFreelist =>
  simp only [Option.some.injEq, Prod.mk.injEq] at took
  rcases took with ⟨rfl, isAfter⟩
  subst isAfter
  have wasFree : s.pages fst = .free := by
    rw [← memory.free, isFreelist]
    exact mem_cons_self
  have nodup := memory.nodup
  rw [isFreelist] at nodup
  have notSock : (s.pages fst).isSock = false := by
    rw [wasFree]
    rfl
  refine ⟨?_, wasFree, rfl, rfl, rfl, isFreelist⟩
  have notMbuf : ∀ packet, s.pages fst ≠ .mbuf packet := by
    intro packet isMbuf
    rw [wasFree] at isMbuf
    cases isMbuf
  have used' : s.pages fst ≠ .other := by
    rw [wasFree]
    rintro ⟨⟩
  refine memory.replace ?_ (memory.noQueue fst notSock) (memory.unqueued notMbuf)
    (memory.lt_nPages used') fresh others here rfl rfl (nodup_cons.mp nodup).2 ?_
  · intro mem
    rw [memory.inList fst mem] at notSock
    cases notSock
  intro o
  by_cases isFst : o = fst
  · subst isFst
    constructor
    · intro mem
      exact absurd mem (nodup_cons.mp nodup).1
    · intro isFree
      exact absurd ((set_self _ _ _).symm.trans isFree) used
  · change o ∈ rest ↔ s.pages.set fst contents o = .free
    rw [set_ne _ isFst, ← memory.free, isFreelist, mem_cons]
    simp [isFst]

theorem Memory.kfree (mem : s.Memory list queue held)
    (used : s.pages page ≠ .free) (below : page < nPages) (outside : page ∉ list)
    (empty : queue page = []) (unqueued : ∀ o, page ∉ queue o)
    (others : ∀ m, m ≠ page → (later = some m ↔ held = some m)) (here : later ≠ some page) :
    s.kfree page = .ok ({ s with freelist := page :: s.freelist }.setPage page .free) ∧
    ({ s with freelist := page :: s.freelist }.setPage page .free).Memory list queue later := by
  constructor
  · rw [SockState.kfree]
    split
    · next isFree => exact absurd isFree used
    · rfl
  · refine mem.replace outside empty unqueued below ?_ others ?_ rfl rfl ?_ ?_
    · rintro si ⟨⟩
    · constructor
      · intro isHere
        exact absurd isHere here
      · rintro ⟨packet, imp⟩
        cases imp
    · change (page :: s.freelist).Nodup
      rw [nodup_cons, mem.free]
      exact ⟨used, mem.nodup⟩
    · intro o
      change o ∈ page :: s.freelist ↔ s.pages.set page .free o = .free
      by_cases isPage : o = page
      · rw [isPage, set_self]
        simp
      · rw [set_ne _ isPage, ← mem.free, mem_cons]
        simp [isPage]

/-! ## Changing the list -/

theorem isQueue_setNext {v : Option Page}
    (isQueue : pages.IsQueue si cells) : pages.IsQueue { si with next := v } cells :=
  ⟨isQueue.linked, isQueue.tail, isQueue.mbufs⟩

theorem Memory.relink (memory : s.Memory list queue held) {v : Option Page}
    {longer : List Page} (h : s.pages page = .sock si)
    (pages : after.pages = s.pages.set page (.sock { si with next := v }))
    (freelist : after.freelist = s.freelist)
    (linked : Linked after.pages.nextSock after.sockets longer)
    (inList : ∀ o ∈ longer, (s.pages o).isSock = true) :
    after.Memory longer queue held := by
  have same : ∀ o, o ≠ page → after.pages o = s.pages o := by
    intro o ne
    rw [pages]
    exact set_ne _ ne _
  have changed : after.pages page = .sock { si with next := v } := by
    rw [pages]
    exact set_self _ _ _
  have isSock : ∀ o, (after.pages o).isSock = (s.pages o).isSock := by
    intro o
    by_cases isPage : o = page
    · rw [isPage, changed, h]
      rfl
    · rw [same o isPage]
  have sameMbuf : ∀ m packet, after.pages m = .mbuf packet ↔ s.pages m = .mbuf packet := by
    intro m packet
    by_cases isPage : m = page
    · rw [isPage, changed, h]
      constructor
      · rintro ⟨⟩
      · rintro ⟨⟩
    · rw [same m isPage]
  have notQueued : ∀ o, ∀ m ∈ queue o, m ≠ page := by
    intro o m mem isPage
    rcases memory.mbuf_of_mem mem with ⟨packet, isMbuf⟩
    rw [isPage, h] at isMbuf
    cases isMbuf
  constructor
  · exact linked
  · intro o mem
    rw [isSock]
    exact inList o mem
  · intro o oSi ho
    by_cases isPage : o = page
    · rw [isPage, changed] at ho
      cases ho
      rw [isPage]
      apply (isQueue_setNext (memory.queues page si h)).congr
      intro m mem
      exact same m (notQueued page m mem)
    · rw [same o isPage] at ho
      apply (memory.queues o oSi ho).congr
      intro m mem
      exact same m (notQueued o m mem)
  · intro o notSock
    rw [isSock] at notSock
    exact memory.noQueue o notSock
  · exact memory.apart
  · intro m inHand
    rcases memory.inHand m inHand with ⟨⟨packet, isMbuf⟩, unqueued⟩
    exact ⟨⟨packet, (sameMbuf m packet).mpr isMbuf⟩, unqueued⟩
  · intro m packet isMbuf
    exact memory.mbufs m packet ((sameMbuf m packet).mp isMbuf)
  · rw [freelist]
    exact memory.nodup
  · intro o
    rw [freelist, memory.free]
    by_cases isPage : o = page
    · rw [isPage, changed, h]
      constructor
      · rintro ⟨⟩
      · rintro ⟨⟩
    · rw [same o isPage]
  · intro o large
    have ne : o ≠ page := by
      intro isPage
      have isO := memory.bound o large
      rw [isPage, h] at isO
      cases isO
    rw [same o ne]
    exact memory.bound o large

theorem linked_head {Cell : Type} {next : Cell → Option Cell} {start : Option Cell}
    {cells : List Cell} (linked : Linked next start cells) : start = cells.head? := by
  cases cells with
  | nil => exact linked
  | cons cell rest => exact linked.1

theorem Memory.deref (memory : s.Memory list queue held) (split : list = before ++ rest) :
    s.deref before.getLast? = .ok rest.head? := by
  have linked := memory.linked
  rw [split] at linked
  rcases List.eq_nil_or_concat before with isNil | ⟨fst, last, isConcat⟩
  · subst isNil
    exact congrArg Except.ok (linked_head linked)
  rw [List.concat_eq_append] at isConcat
  subst isConcat
  have mem : last ∈ list := by
    rw [split]
    simp
  rcases exists_of_isSock (memory.inList last mem) with ⟨si, h⟩
  have names : s.pages.nextSock last = si.next := by
    rw [nextSock, h]
    rfl
  rw [append_assoc] at linked
  have behind : s.pages.nextSock last = rest.head? := linked_head linked.suffix
  rw [names] at behind
  rw [List.getLast?_concat, deref, sock_eq h]
  exact congrArg Except.ok behind

theorem Memory.unlink_eq (mem : s.Memory list queue held)
    {walked : List Page} (split : list = walked ++ (before ++ page :: rest))
    (h : s.pages page = .sock si) (enough : before.length < fuel) :
    s.unlink page fuel walked.getLast? = s.store si.next (walked ++ before).getLast? := by
  induction before generalizing walked fuel with
  | nil =>
    cases fuel with
    | zero => cases enough
    | succ fuel =>
      rw [unlink, mem.deref split]
      dsimp only [bind, Except.bind, List.nil_append, List.head?]
      rw [if_pos rfl, sock_eq h, List.append_nil]
  | cons here others ih =>
    cases fuel with
    | zero => cases enough
    | succ fuel =>
      have nodup := mem.linked.nodup
      rw [split] at nodup
      have ne : here ≠ page := by
        intro same
        have inner := (List.nodup_append.mp nodup).2.1
        rw [List.cons_append, nodup_cons, same] at inner
        exact inner.1 (by simp)
      rw [unlink, mem.deref split]
      dsimp only [bind, Except.bind, List.cons_append, List.head?]
      rw [if_neg ne]
      have moved : list = (walked ++ [here]) ++ (others ++ page :: rest) := by
        rw [split]
        simp
      have next := ih moved (Nat.lt_of_succ_lt_succ enough)
      rwa [List.getLast?_concat, append_assoc] at next

theorem Memory.unlink (memory : s.Memory list queue held)
    (split : list = before ++ page :: rest) (h : s.pages page = .sock si) : ∃ after,
    s.unlink page (nPages + 1) none = .ok after ∧ after.Memory (before ++ rest) queue held ∧
    after.files = s.files ∧ (∀ o, (after.pages o).isSock = (s.pages o).isSock) := by
  have enough : before.length < nPages + 1 := by
    have bound := memory.list_length_le
    rw [split, List.length_append, List.length_cons] at bound
    omega
  have walks : s.unlink page (nPages + 1) none = s.store si.next before.getLast? :=
    memory.unlink_eq (split.trans (List.nil_append _).symm) h enough
  have names : s.pages.nextSock page = si.next := by
    rw [nextSock, h]
    rfl
  have linked := memory.linked
  rw [split] at linked
  rcases List.eq_nil_or_concat before with isNil | ⟨fst, last, isConcat⟩
  · subst isNil
    refine ⟨{ s with sockets := si.next }, walks, ?_, rfl, fun _ => rfl⟩
    have tail := linked.suffix
    rw [names] at tail
    exact { memory with
      linked := tail
      inList := fun o mem => memory.inList o (split ▸ List.mem_cons_of_mem _ mem) }
  · rw [List.concat_eq_append] at isConcat
    subst isConcat
    have mem : last ∈ list := by
      rw [split]
      simp
    rcases exists_of_isSock (memory.inList last mem) with ⟨lastSi, lastHolds⟩
    rw [List.getLast?_concat, store, sock_eq lastHolds] at walks
    let after := s.setPage last (.sock { lastSi with next := si.next })
    have changed : after.pages last = .sock { lastSi with next := si.next } := set_self _ _ _
    have nodup := memory.linked.nodup
    rw [split] at nodup
    refine ⟨after, walks, memory.relink lastHolds rfl rfl ?_ ?_, rfl, ?_⟩
    · rw [append_assoc] at linked ⊢
      apply linked.remove
      · intro o inRest
        have ne : o ≠ last := by
          rintro rfl
          simp only [append_assoc, List.nodup_append, mem_append, nodup_cons,
            mem_cons] at nodup inRest
          grind
        have same : after.pages o = s.pages o := set_ne _ ne _
        rw [nextSock, nextSock, same]
      · rw [names, nextSock, changed]
        rfl
    · intro o inRest
      apply memory.inList
      rw [split]
      simp only [mem_append, mem_cons] at inRest ⊢
      rcases inRest with left | right
      · exact .inl left
      · exact .inr (.inr right)
    · intro o
      by_cases isLast : o = last
      · rw [isLast, changed, lastHolds]
        rfl
      · have same : after.pages o = s.pages o := set_ne _ isLast _
        rw [same]

/-! ## Changing queues -/

theorem Memory.requeue (memory : s.Memory list queue held) {si' : Sock}
    (changed : after.pages page = .sock si') (isQueue : after.pages.IsQueue si' cells)
    (core : ∀ o, (after.pages o).core = (s.pages o).core)
    (same : ∀ o, o ≠ page → ∀ m ∈ queue o, after.pages m = s.pages m)
    (away : ∀ o, o ≠ page → (s.pages o).isMbuf = false → after.pages o = s.pages o)
    (sockets : after.sockets = s.sockets) (freelist : after.freelist = s.freelist)
    (apart : ∀ m ∈ cells, ∀ o, o ≠ page → m ∉ queue o)
    (inHand : ∀ m, later = some m → (∃ packet, s.pages m = .mbuf packet) ∧ m ∉ cells ∧
    ∀ o, o ≠ page → m ∉ queue o)
    (mbufs : ∀ m, held = some m ∨ m ∈ queue page → later = some m ∨ m ∈ cells) :
    after.Memory list (update queue page cells) later := by
  have isMbuf : ∀ m, (∃ packet, after.pages m = .mbuf packet) ↔
      ∃ packet, s.pages m = .mbuf packet := by
    intro m
    have eq := (core_inj (core m)).2.1
    constructor
    · intro h
      rcases h with ⟨packet, h⟩
      rw [h] at eq
      exact exists_of_isMbuf eq.symm
    · intro h
      rcases h with ⟨packet, h⟩
      rw [h] at eq
      exact exists_of_isMbuf eq
  constructor
  · rw [sockets]
    apply memory.linked.congr
    intro o _
    exact (core_inj (core o)).2.2.1
  · intro o mem
    rw [(core_inj (core o)).1]
    exact memory.inList o mem
  · intro o si ho
    by_cases isPage : o = page
    · rw [isPage, changed] at ho
      cases ho
      rwa [isPage, update_self]
    have notMbuf : (s.pages o).isMbuf = false := by
      rw [← (core_inj (core o)).2.1, ho]
      rfl
    rw [away o isPage notMbuf] at ho
    rw [update_of_ne isPage]
    exact (memory.queues o si ho).congr (same o isPage)
  · intro o notSock
    have isPage : o ≠ page := by
      intro isPage
      rw [isPage, changed] at notSock
      cases notSock
    rw [(core_inj (core o)).1] at notSock
    rw [update_of_ne isPage]
    exact memory.noQueue o notSock
  · intro fst second ne m mem
    by_cases fstPage : fst = page
    · rw [fstPage, update_self] at mem
      rw [update_of_ne (fstPage ▸ ne.symm)]
      exact apart m mem second (fstPage ▸ ne.symm)
    rw [update_of_ne fstPage] at mem
    by_cases sndPage : second = page
    · rw [sndPage, update_self]
      intro inCells
      exact apart m inCells fst fstPage mem
    · rw [update_of_ne sndPage]
      exact memory.apart fst second ne m mem
  · intro m isHeld
    rcases inHand m isHeld with ⟨wasMbuf, notIn, notAway⟩
    refine ⟨(isMbuf m).mpr wasMbuf, ?_⟩
    intro o
    by_cases isPage : o = page
    · rwa [isPage, update_self]
    · rw [update_of_ne isPage]
      exact notAway o isPage
  · intro m packet h
    rcases (isMbuf m).mp ⟨packet, h⟩ with ⟨pkt', wasMbuf⟩
    have moved : held = some m ∨ m ∈ queue page → later = some m ∨
        ∃ o, m ∈ update queue page cells o := by
      intro before
      rcases mbufs m before with isHeld | inCells
      · exact .inl isHeld
      · exact .inr ⟨page, by rw [update_self]; exact inCells⟩
    rcases memory.mbufs m pkt' wasMbuf with wasHeld | ⟨o, mem⟩
    · exact moved (.inl wasHeld)
    by_cases isPage : o = page
    · exact moved (.inr (isPage ▸ mem))
    · exact .inr ⟨o, by rw [update_of_ne isPage]; exact mem⟩
  · rw [freelist]
    exact memory.nodup
  · intro o
    rw [freelist, memory.free]
    exact (core_inj (core o)).2.2.2.1.symm
  · intro o large
    exact (core_inj (core o)).2.2.2.2.mpr (memory.bound o large)

theorem Memory.pop (memory : s.Memory list queue none) (h : s.pages page = .sock si)
    (isQueue : queue page = m :: rest) : ∃ head, s.pages.mbufqPophead page =
        .ok (some m, s.pages.set page (.sock { si with head := head })) ∧
      (s.setPage page (.sock { si with head := head })).Memory list
        (update queue page rest) (some m) := by
  have queued := memory.queues page si h
  rw [isQueue] at queued
  rcases mbufqPophead_cons h queued with ⟨head, popped, restQueue⟩
  refine ⟨head, popped, ?_⟩
  have unlike : ∀ o, o ≠ page →
      (s.setPage page (.sock { si with head := head })).pages o = s.pages o := by
    intro o ne
    exact set_ne _ ne _
  have nodup := queued.linked.nodup
  rw [nodup_cons] at nodup
  refine memory.requeue (set_self _ _ _) restQueue ?_ ?_ ?_ rfl rfl ?_ ?_ ?_
  · intro o
    by_cases isPage : o = page
    · have changed : (s.setPage page (.sock { si with head := head })).pages page =
        .sock { si with head := head } := set_self _ _ _
      rw [isPage, changed, h]
      rfl
    · rw [unlike o isPage]
  · intro o _ mem inQueue
    apply unlike
    intro isPage
    rcases memory.mbuf_of_mem inQueue with ⟨packet, isMbuf⟩
    rw [isPage, h] at isMbuf
    cases isMbuf
  · intro o ne _
    exact unlike o ne
  · intro mem inRest o ne
    apply memory.apart page o ne.symm
    rw [isQueue]
    exact List.mem_cons_of_mem _ inRest
  · intro mem isHeld
    cases isHeld
    refine ⟨queued.mbufs m mem_cons_self, nodup.1, ?_⟩
    intro o ne
    apply memory.apart page o ne.symm
    rw [isQueue]
    exact mem_cons_self
  · rintro mem (imp | inQueue)
    · cases imp
    · rw [isQueue, mem_cons] at inQueue
      rcases inQueue with isFst | inRest
      · exact .inl (congrArg some isFst.symm)
      · exact .inr inRest

theorem Memory.push (memory : s.Memory list queue (some m)) (h : s.pages page = .sock si) :
    ∃ pages, s.pages.mbufqPushtail page m = .ok pages ∧
      { s with pages := pages }.Memory list (update queue page (queue page ++ [m])) none ∧
      ∀ o, (pages o).isSock = (s.pages o).isSock := by
  rcases memory.inHand m rfl with ⟨⟨packet, isMbuf⟩, unqueued⟩
  rcases mbufqPushtail_eq h (memory.queues page si h) isMbuf (unqueued page)
    with ⟨pages, pushed, relinked, si', changed, _, isQueue⟩
  refine ⟨pages, pushed, ?_, fun o => (core_inj (relinked.core o)).1⟩
  have notSock : ∀ o, (s.pages o).isMbuf = true → o ≠ page := by
    intro o oMbuf isPage
    rw [isPage, h] at oMbuf
    cases oMbuf
  refine memory.requeue changed isQueue relinked.core ?_ ?_ rfl rfl ?_ ?_ ?_
  · intro o ne mem inQueue
    rcases memory.mbuf_of_mem inQueue with ⟨oPkt, oMbuf⟩
    apply relinked.same
    · apply notSock
      rw [oMbuf]
      rfl
    · intro isM
      exact unqueued o (isM ▸ inQueue)
    · exact memory.apart o page ne mem inQueue
  · intro o ne notMbuf
    apply relinked.same o ne
    · intro isM
      rw [isM, isMbuf] at notMbuf
      cases notMbuf
    intro inQueue
    rcases memory.mbuf_of_mem inQueue with ⟨oPkt, oMbuf⟩
    rw [oMbuf] at notMbuf
    cases notMbuf
  · intro mem inCells o ne
    rw [mem_append, List.mem_singleton] at inCells
    rcases inCells with inQueue | isM
    · exact memory.apart page o ne.symm mem inQueue
    · rw [isM]
      exact unqueued o
  · rintro mem ⟨⟩
  · intro mem before
    refine .inr ?_
    rw [mem_append, List.mem_singleton]
    rcases before with isHeld | inQueue
    · cases isHeld
      exact .inr rfl
    · exact .inl inQueue

theorem Memory.kfreeHeld (memory : s.Memory list queue (some m)) :
    ∃ after, s.kfree m = .ok after ∧ after.Memory list queue none ∧ after.files = s.files ∧
    after.sockets = s.sockets ∧ ∀ o, (after.pages o).isSock = (s.pages o).isSock := by
  rcases memory.inHand m rfl with ⟨⟨packet, isMbuf⟩, unqueued⟩
  have notSock : (s.pages m).isSock = false := by
    rw [isMbuf]
    rfl
  have used : s.pages m ≠ .free := by
    rw [isMbuf]
    rintro ⟨⟩
  have below : m < nPages := by
    apply memory.lt_nPages
    rw [isMbuf]
    rintro ⟨⟩
  have outside : m ∉ list := by
    intro mem
    rw [memory.inList m mem] at notSock
    cases notSock
  have others : ∀ o, o ≠ m → ((none : Option Page) = some o ↔ some m = some o) := by
    intro o ne
    simp [ne.symm]
  have freed := memory.kfree used below outside (memory.noQueue m notSock) unqueued others
    (Option.some_ne_none m).symm
  refine ⟨_, freed.1, freed.2, rfl, rfl, ?_⟩
  intro o
  by_cases isM : o = m
  · rw [isM, notSock]
    exact congrArg isSock (set_self _ _ _)
  · exact congrArg isSock (set_ne _ isM _)

theorem isSock_set_sock {si' : Sock} (h : pages page = .sock si)
    (o : Page) : (pages.set page (.sock si') o).isSock = (pages o).isSock := by
  by_cases isPage : o = page
  · rw [isPage, set_self, h]
    rfl
  · rw [set_ne _ isPage]

theorem Memory.drain (mem : s.Memory list queue none) (h : s.pages page = .sock si)
    (enough : (queue page).length < fuel) : ∃ after, s.drain page fuel = .ok after ∧
    after.Memory list (update queue page []) none ∧ after.files = s.files ∧
    after.sockets = s.sockets ∧ ∀ o, (after.pages o).isSock = (s.pages o).isSock := by
  induction fuel generalizing s queue si with
  | zero => cases enough
  | succ fuel ih =>
    have isEmpty := mbufqEmpty_eq h (mem.queues page si h)
    rw [drain, isEmpty]
    dsimp only [bind, Except.bind]
    cases isQueue : queue page with
    | nil =>
      refine ⟨s, rfl, ?_, rfl, rfl, fun _ => rfl⟩
      rwa [← isQueue, update_eq_self]
    | cons m rest =>
      rcases mem.pop h isQueue with ⟨head, popped, memoryPopped⟩
      rcases memoryPopped.kfreeHeld with ⟨freed, isFreed, memoryFreed, files, sockets, socks⟩
      have stillSock : (freed.pages page).isSock = true := by
        rw [socks]
        exact (isSock_set_sock h page).trans (by rw [h]; rfl)
      rcases exists_of_isSock stillSock with ⟨si', holds'⟩
      rw [isQueue] at enough
      have shorter : (update queue page rest page).length < fuel := by
        rw [update_self]
        exact Nat.lt_of_succ_lt_succ enough
      rcases ih memoryFreed holds' shorter
        with ⟨last, drained, memoryLast, lastFiles, lastSockets, lastSocks⟩
      rw [update_idem] at memoryLast
      refine ⟨last, ?_, memoryLast, lastFiles.trans files, lastSockets.trans sockets, ?_⟩
      · rw [if_neg (by simp), popped]
        dsimp only
        change (s.setPage page _).kfree m = _ at isFreed
        rw [setPage] at isFreed
        rwa [isFreed]
      · intro o
        rw [lastSocks, socks]
        exact isSock_set_sock h o

end SockState

end Xv6
