import Xv6.Bio.Bio
import Xv6.Foundation.Ring

/-! # The list of buffers

`binit`, `bget`, `brelse`, `bpin` and `bunpin` over the pointers that make up the list. -/

namespace Xv6.Lru

open Foundation Function List

/-- The buffers and their list, with `bcache.head` as `none`. The record `dropped`, which no code
reads, has the buffers whose count came down to zero, the latest first. -/
structure Bufs where
  valid : BufIndex → Bool
  dev : BufIndex → Nat
  blockno : BufIndex → Nat
  refcnt : BufIndex → Nat
  links : Links BufIndex
  dropped : List BufIndex

namespace Bufs

/-- The list that `binit` makes, whatever the pointers are before. -/
def binit (links : Links BufIndex) : Bufs where
  valid _ := false
  dev _ := 0
  blockno _ := 0
  refcnt _ := 0
  links := (List.finRange nBuf).foldl .insert
    ⟨update links.next none none, update links.prev none none⟩
  dropped := []

def bget (s : Bufs) (dev blockno : Nat) : Option (BufIndex × Bufs) :=
  match Links.search s.links.next (fun b => s.dev b = dev ∧ s.blockno b = blockno) nBuf
      (s.links.next none) with
  | some b => some (b, { s with refcnt := update s.refcnt b (increment (s.refcnt b)) })
  | none => (Links.search s.links.prev (s.refcnt · = 0) nBuf (s.links.prev none)).map fun b =>
      (b, { s with
        dev := update s.dev b dev
        blockno := update s.blockno b blockno
        valid := update s.valid b false
        refcnt := update s.refcnt b 1 })

def bpin (s : Bufs) (b : BufIndex) : Bufs :=
  { s with refcnt := update s.refcnt b (increment (s.refcnt b)) }

def bunpin (s : Bufs) (b : BufIndex) : Bufs :=
  { s with
    refcnt := update s.refcnt b (decrement (s.refcnt b))
    dropped := if decrement (s.refcnt b) = 0 then b :: s.dropped else s.dropped }

/-- The part of `brelse` under `bcache.lock`: the count goes down as in `bunpin`. -/
def brelse (s : Bufs) (b : BufIndex) : Bufs :=
  let s := s.bunpin b
  if s.refcnt b = 0 then { s with links := (s.links.unlink b).insert b } else s

/-- What some calls lead to from the list that `binit` makes. A call of `bunpin` leaves a count
above zero. -/
inductive Reached : Bufs → Prop
  | binit (links : Links BufIndex) : Reached (binit links)
  | bget {s s' : Bufs} {dev blockno : Nat} {b : BufIndex} (reached : Reached s)
      (got : s.bget dev blockno = some (b, s')) : Reached s'
  | brelse {s : Bufs} (reached : Reached s) (b : BufIndex) : Reached (s.brelse b)
  | bpin {s : Bufs} (reached : Reached s) (b : BufIndex) : Reached (s.bpin b)
  | bunpin {s : Bufs} {b : BufIndex} (reached : Reached s) (held : 2 ≤ s.refcnt b) :
      Reached (s.bunpin b)

/-! ## Invariant -/

/-- The pointers form the list, which is sorted by how long ago a buffer was dropped; one that was
never dropped comes after all that were. -/
structure Inv (s : Bufs) (lru : LruList) : Prop where
  path : s.links.Path none lru.list none
  sorted : lru.list.Pairwise fun a b => s.dropped.idxOf a ≤ s.dropped.idxOf b
  small : ∀ b, s.refcnt b < 2 ^ 32

variable {s s' : Bufs} {lru : LruList} {b : BufIndex} {dev blockno : Nat}

theorem path_binit {links : Links BufIndex} (path : links.Path none [] none) (list : List BufIndex)
    (nodup : list.Nodup) : (list.foldl .insert links).Path none list.reverse none := by
  induction list using reverseRecOn with
  | nil => exact path
  | append_singleton list b ih =>
    rw [nodup_append] at nodup
    rw [foldl_append, reverse_append]
    refine (ih nodup.1).insert ?_ (nodup_reverse.mpr nodup.1)
    rw [mem_reverse]
    exact fun mem => nodup.2.2 b mem b (by simp) rfl

theorem Inv.binit (links : Links BufIndex) : Inv (.binit links) .initial where
  path := path_binit ⟨by simp, by simp⟩ _ (nodup_finRange nBuf)
  sorted := pairwise_of_forall fun _ _ => le_rfl
  small _ := Nat.two_pow_pos 32

/-- The list and the record stay as they are. -/
theorem Inv.same (inv : Inv s lru) (links : s'.links = s.links) (dropped : s'.dropped = s.dropped)
    (small : ∀ b, s'.refcnt b < 2 ^ 32) : Inv s' lru :=
  ⟨links ▸ inv.path, dropped ▸ inv.sorted, small⟩

theorem increment_lt (count : Nat) : increment count < 2 ^ 32 := Nat.mod_lt _ (by decide)

theorem decrement_lt (count : Nat) : decrement count < 2 ^ 32 := Nat.mod_lt _ (by decide)

theorem small_update {refcnt : BufIndex → Nat} {count : Nat} (old : ∀ b, refcnt b < 2 ^ 32)
    (new : count < 2 ^ 32) (o : BufIndex) : update refcnt b count o < 2 ^ 32 := by
  rw [update_apply]
  split
  · exact new
  · exact old o

theorem Inv.bget (inv : Inv s lru) (got : s.bget dev blockno = some (b, s')) : Inv s' lru := by
  rw [Bufs.bget] at got
  split at got
  · cases got
    exact inv.same rfl rfl (small_update inv.small (increment_lt _))
  obtain ⟨_, _, eq⟩ := Option.map_eq_some_iff.mp got
  cases eq
  exact inv.same rfl rfl (small_update inv.small (by decide))

theorem Inv.drop (inv : Inv s lru) (zero : decrement (s.refcnt b) = 0) :
    Inv { s.bunpin b with links := (s.links.unlink b).insert b } (lru.touch b) := by
  obtain ⟨before, after, split⟩ := append_of_mem (lru.complete b)
  have nodup := lru.nodup
  rw [split, nodup_middle, nodup_cons, mem_append, not_or] at nodup
  have erased : lru.list.erase b = before ++ after := by
    rw [split, erase_append_right _ nodup.1.1, erase_cons_head]
  constructor
  · change Links.Path _ none (b :: lru.list.erase b) none
    rw [erased]
    have path := inv.path
    rw [split] at path
    refine (path.unlink (split ▸ lru.nodup)).insert ?_ nodup.2
    rw [mem_append, not_or]
    exact nodup.1
  · rw [LruList.touch, bunpin, if_pos zero, pairwise_cons]
    refine ⟨fun o _ => by simp, ?_⟩
    refine (inv.sorted.sublist erase_sublist).imp_of_mem ?_
    intro o o' isIn isIn' le
    have ne := (lru.nodup.mem_erase_iff.mp isIn).1
    have ne' := (lru.nodup.mem_erase_iff.mp isIn').1
    rw [idxOf_cons_ne _ ne.symm, idxOf_cons_ne _ ne'.symm]
    exact Nat.succ_le_succ le
  · exact small_update inv.small (decrement_lt _)

theorem Inv.bunpin (inv : Inv s lru) (held : decrement (s.refcnt b) ≠ 0) : Inv (s.bunpin b) lru :=
  inv.same rfl (by rw [Bufs.bunpin, if_neg held]) (small_update inv.small (decrement_lt _))

theorem Reached.inv (reached : Reached s) : ∃ lru, Inv s lru := by
  induction reached with
  | binit links => exact ⟨_, .binit links⟩
  | bget _ got ih =>
    obtain ⟨lru, inv⟩ := ih
    exact ⟨lru, inv.bget got⟩
  | @brelse s _ b ih =>
    obtain ⟨lru, inv⟩ := ih
    have count : (s.bunpin b).refcnt b = decrement (s.refcnt b) := update_self ..
    rw [Bufs.brelse, count]
    split
    case isTrue zero => exact ⟨_, inv.drop zero⟩
    case isFalse held => exact ⟨lru, inv.bunpin held⟩
  | bpin _ b ih =>
    obtain ⟨lru, inv⟩ := ih
    exact ⟨lru, inv.same rfl rfl (small_update inv.small (increment_lt _))⟩
  | @bunpin s b _ held ih =>
    obtain ⟨lru, inv⟩ := ih
    refine ⟨lru, inv.bunpin ?_⟩
    have small := inv.small b
    rw [decrement]
    omega

/-! ## The list -/

theorem length_lru (lru : LruList) : lru.list.length = nBuf := by
  have perm : lru.list.Perm (finRange nBuf) :=
    (perm_ext_iff_of_nodup lru.nodup (nodup_finRange nBuf)).mpr fun b => by simp [lru.complete b]
  rw [perm.length_eq, length_finRange]

theorem Inv.visits (inv : Inv s lru) (b : BufIndex) :
    ∃! k, k < nBuf ∧ s.links.next^[k + 1] none = some b := by
  have walk : ∀ k < nBuf, s.links.next^[k + 1] none = lru.list[k]? := fun k below =>
    inv.path.iterate (by rw [length_lru]; omega)
  obtain ⟨k, below, here⟩ := getElem_of_mem (lru.complete b)
  have inside : k < nBuf := length_lru lru ▸ below
  refine ⟨k, ⟨inside, ?_⟩, ?_⟩
  · rw [walk k inside, getElem?_eq_getElem below, here]
  rintro j ⟨jBelow, there⟩
  rw [walk j jBelow] at there
  obtain ⟨jInside, there⟩ := List.getElem?_eq_some_iff.mp there
  exact lru.nodup.getElem_inj_iff.mp (there.trans here.symm)

theorem Inv.prev_next (inv : Inv s lru) (x : Option BufIndex) :
    s.links.prev (s.links.next x) = x ∧ s.links.next (s.links.prev x) = x := by
  have isIn : x = none ∨ x ∈ lru.list.map some := by
    cases x with
    | none => exact .inl rfl
    | some b => exact .inr (mem_map_of_mem (lru.complete b))
  refine ⟨inv.path.prev_next x isIn, inv.path.flip.prev_next x ?_⟩
  rwa [map_reverse, mem_reverse]

/-- The second loop of `bget` finds the unused buffer that was dropped first. -/
theorem Inv.search_unused (inv : Inv s lru) :
    match Links.search s.links.prev (s.refcnt · = 0) nBuf (s.links.prev none) with
    | some b => s.refcnt b = 0 ∧ ∀ o, s.refcnt o = 0 → s.dropped.idxOf o ≤ s.dropped.idxOf b
    | none => ∀ b, 0 < s.refcnt b := by
  have enough : lru.list.reverse.length ≤ nBuf := by rw [length_reverse, length_lru]
  have found := inv.path.flip.search_eq (s.refcnt · = 0) enough
  have sorted := pairwise_reverse.mpr inv.sorted
  change Links.search s.links.prev _ _ (s.links.prev none) = _ at found
  rw [found]
  split
  case h_1 b found =>
    obtain ⟨unused, before, after, eq, used⟩ := find?_eq_some_iff_append.mp found
    refine ⟨by simpa using unused, fun o free => ?_⟩
    have mem : o ∈ lru.list.reverse := mem_reverse.mpr (lru.complete o)
    rw [eq] at mem sorted
    rcases mem_append.mp mem with isBefore | isAfter
    · have inUse := used o isBefore
      simp [free] at inUse
    rcases mem_cons.mp isAfter with rfl | isAfter
    · exact le_rfl
    · exact (pairwise_cons.mp (pairwise_append.mp sorted).2.1).1 o isAfter
  case h_2 none =>
    intro b
    have inUse := find?_eq_none.mp none b (mem_reverse.mpr (lru.complete b))
    exact Nat.pos_of_ne_zero (by simpa using inUse)

/-- The list is a ring through every buffer, and `bget` recycles the buffer at its end. -/
theorem list_is_lru (reached : Reached s) :
    (∀ b, ∃! k, k < nBuf ∧ s.links.next^[k + 1] none = some b) ∧
      s.links.next^[nBuf + 1] none = none ∧
      (∀ x, s.links.prev (s.links.next x) = x ∧ s.links.next (s.links.prev x) = x) ∧
      ∀ dev blockno, (s.bget dev blockno = none → ∀ b, 0 < s.refcnt b) ∧
        ∀ b s', s.bget dev blockno = some (b, s') →
          (∀ other, ¬(s.dev other = dev ∧ s.blockno other = blockno)) →
          s.refcnt b = 0 ∧ ∀ other, s.refcnt other = 0 →
            s.dropped.idxOf other ≤ s.dropped.idxOf b := by
  obtain ⟨lru, inv⟩ := reached.inv
  have unused := inv.search_unused
  refine ⟨inv.visits, ?_, inv.prev_next, fun dev blockno => ?_⟩
  · rw [inv.path.iterate (length_lru lru).ge, List.getElem?_eq_none (length_lru lru).le]
  have cached := inv.path.search_eq (fun b => s.dev b = dev ∧ s.blockno b = blockno)
    (length_lru lru).le
  rw [Bufs.bget, cached]
  constructor
  · intro failed
    split at failed
    · cases failed
    · rw [Option.map_eq_none_iff] at failed
      rwa [failed] at unused
  · intro b s' got miss
    have absent : lru.list.find? (fun b => s.dev b = dev ∧ s.blockno b = blockno) = none :=
      List.find?_eq_none.mpr fun other _ => by simpa using miss other
    rw [absent] at got
    obtain ⟨_, found, eq⟩ := Option.map_eq_some_iff.mp got
    cases eq
    rwa [found] at unused

/-- Calls of `bget` for some blocks of a device. -/
def bgets (dev : Nat) : List Nat → Bufs → Option Bufs
  | [], s => some s
  | blockno :: rest, s => (s.bget dev blockno).bind fun out => bgets dev rest out.2

theorem Reached.bgets {blocks : List Nat} (reached : Reached s)
    (got : s.bgets dev blocks = some s') : Reached s' := by
  induction blocks generalizing s with
  | nil =>
    cases got
    exact reached
  | cons blockno rest ih =>
    obtain ⟨out, first, got⟩ := Option.bind_eq_some_iff.mp got
    exact ih (reached.bget first) got

/-- Every buffer is in use, buffer 5 is released and then buffer 3. A miss
recycles buffer 5. -/
theorem list_is_lru_recycled : ∃ (s s' : Bufs) (b : BufIndex), b.val = 5 ∧ Reached s ∧
    s.links.next^[nBuf + 1] none = none ∧
    (∀ x, s.links.prev (s.links.next x) = x ∧ s.links.next (s.links.prev x) = x) ∧
    s.bget 1 100 = some (b, s') ∧ s.refcnt b = 0 ∧
    ∀ other, s.refcnt other = 0 → s.dropped.idxOf other ≤ s.dropped.idxOf b := by
  have found : (((binit ⟨id, id⟩).bgets 1 (List.range nBuf)).map fun full =>
      ((full.brelse ⟨5, by decide⟩).brelse ⟨3, by decide⟩)).bind (fun s =>
        (s.bget 1 100).map fun out =>
          (out.1.val, decide (∀ other, ¬(s.dev other = 1 ∧ s.blockno other = 100)))) =
      some (5, true) := by decide +kernel
  obtain ⟨s, released, got⟩ := Option.bind_eq_some_iff.mp found
  obtain ⟨full, filled, rfl⟩ := Option.map_eq_some_iff.mp released
  obtain ⟨⟨b, s'⟩, got, shown⟩ := Option.map_eq_some_iff.mp got
  simp only [Prod.mk.injEq, decide_eq_true_eq] at shown
  have reached := (((Reached.binit ⟨id, id⟩).bgets filled).brelse ⟨5, by decide⟩).brelse
    ⟨3, by decide⟩
  obtain ⟨_, around, inverse, recycles⟩ := list_is_lru reached
  exact ⟨_, s', b, shown.1, reached, around, inverse, got, (recycles 1 100).2 b s' got shown.2⟩

end Bufs

end Xv6.Lru
