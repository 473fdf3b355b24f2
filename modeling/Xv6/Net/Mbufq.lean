import Xv6.Foundation.Linked
import Xv6.Net.Net

/-! # Queues of packet buffers

The pages of memory that sockets use, and the functions of `net.c` on queues of
mbufs. A queue's cells are linked by the field `next` of the mbufs. Popping leaves
`tail` as it is, so that it points to a page that the queue no longer has once the
queue has become empty. -/

namespace Xv6

open Foundation Function List

/-! ## Pages -/

/-- `struct sock`, with the two fields of its `struct mbufq`. -/
structure Sock where
  next : Option Page
  connection : Connection
  head : Option Page
  tail : Option Page

/-- What a page holds, as far as sockets are concerned. -/
inductive Contents
  | free
  | other
  | sock (si : Sock)
  | mbuf (m : Mbuf)

/-- A wrong use of memory. -/
inductive SockFault
  | useAfterFree (page : Page)
  | wildAccess (page : Page)
  | doubleFree (page : Page)
  | nullPointer
  | endless
  | fileclose
deriving DecidableEq

/-- The memory, page by page. -/
abbrev Pages := Page → Contents

namespace Pages

/-- The fault of taking the page for what it does not hold. -/
def fault (pages : Pages) (page : Page) : SockFault :=
  match pages page with
  | .free => .useAfterFree page
  | _ => .wildAccess page

def sock (pages : Pages) (page : Page) : Except SockFault Sock :=
  match pages page with
  | .sock si => .ok si
  | _ => .error (pages.fault page)

def mbuf (pages : Pages) (page : Page) : Except SockFault Mbuf :=
  match pages page with
  | .mbuf m => .ok m
  | _ => .error (pages.fault page)

def set (pages : Pages) (page : Page) (contents : Contents) : Pages :=
  update pages page contents

@[simp] theorem set_self (pages : Pages) (page : Page) (contents : Contents) :
    pages.set page contents page = contents := update_self _ _ _

theorem set_ne (pages : Pages) {page o : Page} (ne : o ≠ page)
    (contents : Contents) : pages.set page contents o = pages o := update_of_ne ne _ _

/-! ## Queues -/

/-- `mbufq_pushtail(&si->rxq, m)`. -/
def mbufqPushtail (pages : Pages) (page m : Page) : Except SockFault Pages := do
  let packet ← pages.mbuf m
  let pages := pages.set m (.mbuf { packet with next := none })
  let si ← pages.sock page
  match si.head with
  | none => return pages.set page (.sock { si with head := some m, tail := some m })
  | some _ =>
    match si.tail with
    | none => throw .nullPointer
    | some tail =>
      let last ← pages.mbuf tail
      let pages := pages.set tail (.mbuf { last with next := some m })
      let si ← pages.sock page
      return pages.set page (.sock { si with tail := some m })

/-- `mbufq_pophead(&si->rxq)`. -/
def mbufqPophead (pages : Pages) (page : Page) : Except SockFault (Option Page × Pages) := do
  let si ← pages.sock page
  match si.head with
  | none => return (none, pages)
  | some m =>
    let packet ← pages.mbuf m
    return (some m, pages.set page (.sock { si with head := packet.next }))

/-- `mbufq_empty(&si->rxq)`. -/
def mbufqEmpty (pages : Pages) (page : Page) : Except SockFault Bool := do
  let si ← pages.sock page
  return si.head.isNone

/-- The mbuf that a page names as the next one. -/
def nextMbuf (pages : Pages) (page : Page) : Option Page :=
  match pages page with
  | .mbuf m => m.next
  | _ => none

/-- The queue of a socket is this list of mbufs. -/
structure IsQueue (pages : Pages) (si : Sock) (queue : List Page) : Prop where
  linked : Linked pages.nextMbuf si.head queue
  tail : ∀ last, queue.getLast? = some last → si.tail = some last
  mbufs : ∀ m ∈ queue, ∃ packet, pages m = .mbuf packet

variable {pages later : Pages} {page m : Page} {si : Sock} {packet : Mbuf} {queue rest : List Page}

theorem sock_eq (h : pages page = .sock si) : pages.sock page = .ok si := by rw [sock, h]

theorem mbuf_eq (h : pages m = .mbuf packet) : pages.mbuf m = .ok packet := by rw [mbuf, h]

theorem nextMbuf_eq (h : pages m = .mbuf packet) : pages.nextMbuf m = packet.next := by
  rw [nextMbuf, h]

theorem IsQueue.congr (isQueue : pages.IsQueue si queue)
    (same : ∀ m ∈ queue, later m = pages m) : later.IsQueue si queue where
  linked := by
    apply isQueue.linked.congr
    intro m mem
    rw [nextMbuf, nextMbuf, same m mem]
  tail := isQueue.tail
  mbufs := by
    intro m mem
    rw [same m mem]
    exact isQueue.mbufs m mem

theorem IsQueue.notMem (isQueue : pages.IsQueue si queue) {o : Sock}
    (h : pages page = .sock o) : page ∉ queue := by
  intro mem
  obtain ⟨packet, isMbuf⟩ := isQueue.mbufs page mem
  rw [h] at isMbuf
  cases isMbuf

theorem ok_bind {α β : Type} (v : α) (rest : α → Except SockFault β) :
    (Except.ok v >>= rest) = rest v := rfl

theorem mbufqEmpty_eq (h : pages page = .sock si) (isQueue : pages.IsQueue si queue) :
    pages.mbufqEmpty page = .ok queue.isEmpty := by
  have linked := isQueue.linked
  rw [mbufqEmpty, sock_eq h, ok_bind]
  cases queue with
  | nil =>
    rw [Linked.nil_iff.mp linked]
    rfl
  | cons m rest =>
    rw [linked.1]
    rfl

theorem mbufqPophead_cons (h : pages page = .sock si) (isQueue : pages.IsQueue si (m :: rest)) :
    ∃ head, pages.mbufqPophead page =
        .ok (some m, pages.set page (.sock { si with head := head })) ∧
      (pages.set page (.sock { si with head := head })).IsQueue { si with head := head } rest := by
  obtain ⟨starts, linked⟩ := isQueue.linked
  obtain ⟨packet, isMbuf⟩ := isQueue.mbufs m mem_cons_self
  refine ⟨packet.next, ?_, ?_⟩
  · rw [mbufqPophead, sock_eq h, ok_bind, starts]
    dsimp only
    rw [mbuf_eq isMbuf, ok_bind]
    rfl
  · have popped : pages.IsQueue { si with head := packet.next } rest := by
      constructor
      · rwa [nextMbuf_eq isMbuf] at linked
      · intro last isLast
        apply isQueue.tail
        rw [getLast?_cons, isLast]
        rfl
      · intro o mem
        exact isQueue.mbufs o (mem_cons_of_mem m mem)
    apply popped.congr
    intro o mem
    apply set_ne
    rintro rfl
    exact popped.notMem h mem

end Pages

/-- The contents of a page but for what links it into a queue. -/
def Contents.core : Contents → Contents
  | .sock si => .sock { si with head := none, tail := none }
  | .mbuf m => .mbuf { m with next := none }
  | .free => .free
  | .other => .other

namespace Pages

variable {pages later : Pages} {page m : Page} {si : Sock} {packet : Mbuf} {queue rest : List Page}

/-- Pages are the same but for the links of a queue. -/
structure Relinked (pages later : Pages) (page m : Page) (queue : List Page) : Prop where
  core : ∀ other, (later other).core = (pages other).core
  same : ∀ other, other ≠ page → other ≠ m → other ∉ queue → later other = pages other

theorem mbufqPushtail_nil (h : pages page = .sock si)
    (isQueue : pages.IsQueue si []) (isMbuf : pages m = .mbuf packet) :
    ∃ later, pages.mbufqPushtail page m = .ok later ∧ Relinked pages later page m [] ∧
    ∃ si', later page = .sock si' ∧ si'.next = si.next ∧ later.IsQueue si' [m] := by
  have ne : page ≠ m := by
    rintro rfl
    rw [h] at isMbuf
    cases isMbuf
  let ended := pages.set m (.mbuf { packet with next := none })
  have kept : ended page = .sock si := (set_ne pages ne _).trans h
  let later := ended.set page (.sock { si with head := some m, tail := some m })
  have laterM : later m = .mbuf { packet with next := none } :=
    (set_ne ended ne.symm _).trans (set_self pages m _)
  refine ⟨later, ?_, ⟨?_, ?_⟩, _, set_self _ _ _, rfl, ?_, ?_, ?_⟩
  · rw [mbufqPushtail, mbuf_eq isMbuf, ok_bind]
    dsimp only
    rw [sock_eq kept, ok_bind, Linked.nil_iff.mp isQueue.linked]
    rfl
  · intro o
    by_cases isPage : o = page
    · have laterPage : later page = .sock { si with head := some m, tail := some m } :=
        set_self ended page _
      rw [isPage, laterPage, h]
      rfl
    · by_cases isM : o = m
      · rw [isM, laterM, isMbuf]
        rfl
      · exact congrArg Contents.core ((set_ne ended isPage _).trans (set_ne pages isM _))
  · intro o notPage notM _
    exact (set_ne ended notPage _).trans (set_ne pages notM _)
  · exact ⟨rfl, nextMbuf_eq laterM⟩
  · intro last isLast
    exact isLast
  · intro o mem
    rw [mem_singleton.mp mem]
    exact ⟨_, laterM⟩

theorem mbufqPushtail_concat {last : Page}
    (h : pages page = .sock si) (isQueue : pages.IsQueue si (rest ++ [last]))
    (isMbuf : pages m = .mbuf packet) (notIn : m ∉ rest ++ [last]) : ∃ later,
    pages.mbufqPushtail page m = .ok later ∧ Relinked pages later page m (rest ++ [last]) ∧ ∃ si',
    later page = .sock si' ∧ si'.next = si.next ∧ later.IsQueue si' (rest ++ [last] ++ [m]) := by
  have mem : last ∈ rest ++ [last] := by simp
  obtain ⟨lastPacket, isLast⟩ := isQueue.mbufs last mem
  have pageM : page ≠ m := by
    rintro rfl
    rw [h] at isMbuf
    cases isMbuf
  have notPage : page ∉ rest ++ [last] := isQueue.notMem h
  have pageLast : page ≠ last := by
    rintro rfl
    exact notPage mem
  have lastM : last ≠ m := by
    rintro rfl
    exact notIn mem
  obtain ⟨first, starts⟩ : ∃ first, si.head = some first := by
    have linked := isQueue.linked
    cases rest with
    | nil => exact ⟨last, linked.1⟩
    | cons first others => exact ⟨first, linked.1⟩
  have tail : si.tail = some last := isQueue.tail last getLast?_concat
  let ended := pages.set m (.mbuf { packet with next := none })
  let linked := ended.set last (.mbuf { lastPacket with next := some m })
  let later := linked.set page (.sock { si with tail := some m })
  have endedPage : ended page = .sock si := (set_ne pages pageM _).trans h
  have endedLast : ended last = .mbuf lastPacket := (set_ne pages lastM _).trans isLast
  have linkedPage : linked page = .sock si := (set_ne ended pageLast _).trans endedPage
  have laterPage : later page = .sock { si with tail := some m } := set_self linked page _
  have laterLast : later last = .mbuf { lastPacket with next := some m } :=
    (set_ne linked pageLast.symm _).trans (set_self ended last _)
  have laterM : later m = .mbuf { packet with next := none } := (set_ne linked pageM.symm _).trans
    ((set_ne ended lastM.symm _).trans (set_self pages m _))
  have others : ∀ o, o ≠ page → o ≠ m → o ≠ last → later o = pages o := by
    intro o notPage notM notLast
    exact (set_ne linked notPage _).trans ((set_ne ended notLast _).trans (set_ne pages notM _))
  have nodup := isQueue.linked.nodup
  refine ⟨later, ?_, ⟨?_, ?_⟩, _, set_self _ _ _, rfl, ?_, ?_, ?_⟩
  · rw [mbufqPushtail, mbuf_eq isMbuf, ok_bind]
    dsimp only
    rw [sock_eq endedPage, ok_bind, starts, tail]
    dsimp only
    rw [mbuf_eq endedLast, ok_bind, sock_eq linkedPage, ok_bind]
    rfl
  · intro o
    by_cases isPage : o = page
    · rw [isPage, laterPage, h]
      rfl
    by_cases isLastPage : o = last
    · rw [isLastPage, laterLast, isLast]
      rfl
    by_cases isM : o = m
    · rw [isM, laterM, isMbuf]
      rfl
    · rw [others o isPage isM isLastPage]
  · intro o otherPage otherM outside
    apply others o otherPage otherM
    rintro rfl
    exact outside mem
  · apply isQueue.linked.concat
    · intro o inRest
      have inQueue : o ∈ rest ++ [last] := mem_append_left _ inRest
      have apart : o ≠ last := by
        rintro rfl
        have disjoint := (nodup_append.mp nodup).2.2
        exact disjoint o inRest o (by simp) rfl
      rw [nextMbuf, nextMbuf, others o _ _ apart]
      · rintro rfl
        exact notPage inQueue
      · rintro rfl
        exact notIn inQueue
    · exact nextMbuf_eq laterLast
    · exact nextMbuf_eq laterM
  · intro o isOther
    rwa [getLast?_concat] at isOther
  · intro o inQueue
    by_cases isM : o = m
    · exact ⟨_, isM ▸ laterM⟩
    by_cases isLastPage : o = last
    · exact ⟨_, isLastPage ▸ laterLast⟩
    have inOld : o ∈ rest ++ [last] := by
      rw [mem_append, mem_singleton] at inQueue
      rcases inQueue with inOld | isNew
      · exact inOld
      · exact absurd isNew isM
    rw [others o _ isM isLastPage]
    · exact isQueue.mbufs o inOld
    · rintro rfl
      exact notPage inOld

theorem mbufqPushtail_eq (h : pages page = .sock si)
    (isQueue : pages.IsQueue si queue) (isMbuf : pages m = .mbuf packet) (notIn : m ∉ queue) :
    ∃ later, pages.mbufqPushtail page m = .ok later ∧ Relinked pages later page m queue ∧
    ∃ si', later page = .sock si' ∧ si'.next = si.next ∧ later.IsQueue si' (queue ++ [m]) := by
  rcases eq_nil_or_concat queue with isNil | ⟨rest, last, isConcat⟩
  · subst isNil
    exact mbufqPushtail_nil h isQueue isMbuf
  rw [concat_eq_append] at isConcat
  subst isConcat
  exact mbufqPushtail_concat h isQueue isMbuf notIn

end Pages

end Xv6
