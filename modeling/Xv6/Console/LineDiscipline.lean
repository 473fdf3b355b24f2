import Mathlib.Data.BitVec
import Mathlib.Data.List.Induction
import Mathlib.Logic.Function.Basic
import Mathlib.Order.Basic
import Mathlib.Tactic.Common
import Xv6.Console.Console

/-! # The line discipline

The circular buffer holds, from `r` on, the committed characters that nobody has read and
then the line that is being edited. The handler changes the second part, and moves it to
the first when the line is complete. Readers take from the first part. -/

namespace Xv6

open Function List

theorem inputBuf_eq : inputBuf = 128 := rfl

/-! ## Indices -/

theorem slot_add (index : BitVec 32) (k : Nat) :
    (index + .ofNat 32 k).toNat % inputBuf = (index.toNat + k) % inputBuf := by
  rw [BitVec.toNat_add, BitVec.toNat_ofNat, inputBuf_eq]
  omega

variable {index : BitVec 32} {k : Nat}

theorem slot_injective {j : Nat} (k_lt : k < inputBuf) (j_lt : j < inputBuf) (same :
    (index + .ofNat 32 k).toNat % inputBuf = (index + .ofNat 32 j).toNat % inputBuf) : k = j := by
  rw [slot_add, slot_add, inputBuf_eq] at same
  rw [inputBuf_eq] at k_lt j_lt
  omega

theorem distance (k_le : k ≤ inputBuf) : (index + .ofNat 32 k - index).toNat = k := by
  rw [inputBuf_eq] at k_le
  rw [add_sub_cancel_left, BitVec.toNat_ofNat, Nat.mod_eq_of_lt (by omega)]

theorem index_eq_iff {j : Nat} (k_le : k ≤ inputBuf)
    (j_le : j ≤ inputBuf) : index + .ofNat 32 k = index + .ofNat 32 j ↔ k = j := by
  constructor
  · intro same
    rw [← distance k_le, same, distance j_le]
  · rintro rfl
    rfl

theorem index_succ (index : BitVec 32) (k : Nat) :
    index + .ofNat 32 k + 1 = index + .ofNat 32 (k + 1) := by
  rw [BitVec.ofNat_add, add_assoc]
  rfl

theorem index_one_add (index : BitVec 32) (k : Nat) :
    index + 1 + .ofNat 32 k = index + .ofNat 32 (k + 1) := by
  rw [add_right_comm, index_succ]

theorem index_pred (index : BitVec 32) (k : Nat) :
    index + .ofNat 32 (k + 1) - 1 = index + .ofNat 32 k := by
  rw [← index_succ, add_sub_cancel_right]

namespace Cons

/-- The committed characters that have not been read. -/
def unread (cons : Cons) : List UInt8 :=
  (List.range (cons.w - cons.r).toNat).map fun k => cons.charAt (cons.r + .ofNat 32 k)

/-- The line that is being edited. -/
def typed (cons : Cons) : List UInt8 :=
  (List.range (cons.e - cons.w).toNat).map fun k => cons.charAt (cons.w + .ofNat 32 k)

/-- The buffer holds `unread` and then `typed`. A full buffer is committed, and so is a
line with its newline. -/
structure Holds (cons : Cons) (unread typed : List UInt8) : Prop where
  length_le : unread.length + typed.length ≤ inputBuf
  w_eq : cons.w = cons.r + .ofNat 32 unread.length
  e_eq : cons.e = cons.r + .ofNat 32 (unread.length + typed.length)
  chars : ∀ k c, (unread ++ typed)[k]? = some c → cons.charAt (cons.r + .ofNat 32 k) = c
  full : unread.length + typed.length = inputBuf → typed = []
  oneLine : newline ∉ typed

variable {cons : Cons} {unread typed : List UInt8}

namespace Holds

section

variable (h : cons.Holds unread typed)
include h

theorem unread_le : unread.length ≤ inputBuf := (Nat.le_add_right _ _).trans h.length_le

theorem w_sub_r : (cons.w - cons.r).toNat = unread.length := by rw [h.w_eq, distance h.unread_le]

theorem e_sub_r : (cons.e - cons.r).toNat = unread.length + typed.length := by
  rw [h.e_eq, distance h.length_le]

theorem e_eq_w_add : cons.e = cons.w + .ofNat 32 typed.length := by
  rw [h.e_eq, h.w_eq, BitVec.ofNat_add, add_assoc]

theorem e_sub_w : (cons.e - cons.w).toNat = typed.length := by
  rw [h.e_eq_w_add, distance ((Nat.le_add_left _ _).trans h.length_le)]

theorem e_eq_w_iff : cons.e = cons.w ↔ typed = [] := by
  rw [h.e_eq, h.w_eq, index_eq_iff h.length_le h.unread_le, ← length_eq_zero_iff]
  omega

theorem r_eq_w_iff : cons.r = cons.w ↔ unread = [] := by
  have same : cons.r + .ofNat 32 0 = _ ↔ _ := index_eq_iff (Nat.zero_le inputBuf) h.unread_le
  rw [BitVec.add_zero, ← h.w_eq] at same
  rw [same, eq_comm, length_eq_zero_iff]

theorem unread_eq : cons.unread = unread := by
  apply ext_getElem
  · rw [Cons.unread, length_map, length_range, h.w_sub_r]
  intro k _ k_lt
  simp only [Cons.unread, getElem_map, getElem_range]
  apply h.chars
  rw [List.getElem?_append_left k_lt, List.getElem?_eq_getElem k_lt]

theorem typed_eq : cons.typed = typed := by
  apply ext_getElem
  · rw [Cons.typed, length_map, length_range, h.e_sub_w]
  intro k _ k_lt
  simp only [Cons.typed, getElem_map, getElem_range]
  rw [h.w_eq, add_assoc, ← BitVec.ofNat_add]
  apply h.chars
  rw [List.getElem?_append_right (Nat.le_add_right _ _), Nat.add_sub_cancel_left,
    getElem?_eq_getElem k_lt]

end

/-! ## The handler -/

variable {c : UInt8}

theorem erase (h : cons.Holds unread (typed ++ [c])) :
    Holds { cons with e := cons.e - 1 } unread typed where
  length_le := by
    have len_le := h.length_le
    rw [length_append] at len_le
    omega
  w_eq := h.w_eq
  e_eq := by
    have e_eq := h.e_eq
    rw [length_append, length_singleton, ← add_assoc] at e_eq
    rw [e_eq, index_pred]
  chars := by
    intro k hit at_k
    apply h.chars
    rw [← List.append_assoc]
    exact List.getElem?_append_left (List.getElem?_eq_some_iff.mp at_k).1 ▸ at_k
  full := by
    intro full
    have len_le := h.length_le
    rw [length_append, length_singleton] at len_le
    omega
  oneLine := fun isIn => h.oneLine (mem_append_left _ isIn)

theorem last_charAt (h : cons.Holds unread (typed ++ [c])) : cons.charAt (cons.e - 1) = c := by
  rw [h.e_eq, length_append, length_singleton, ← add_assoc, index_pred]
  apply h.chars
  rw [← List.append_assoc, ← List.length_append, List.getElem?_concat_length]

section

variable (h : cons.Holds unread typed)
include h

theorem killLine : Holds (cons.killLine typed.length) unread [] ∧
    (cons.killLine typed.length).r = cons.r ∧ (cons.killLine typed.length).w = cons.w := by
  induction typed using reverseRecOn generalizing cons with
  | nil => exact ⟨h, rfl, rfl⟩
  | append_singleton typed c ih =>
    have going : cons.e ≠ cons.w ∧ cons.charAt (cons.e - 1) ≠ newline := by
      constructor
      · rw [ne_eq, h.e_eq_w_iff]
        exact concat_ne_nil _ _
      · rw [h.last_charAt]
        rintro rfl
        exact h.oneLine (mem_append_right _ (mem_singleton_self _))
    rw [length_append, length_singleton, killLine, if_pos going]
    exact ih h.erase

theorem store_chars (room : unread.length + typed.length < inputBuf)
    (c : UInt8) {found : UInt8} (at_k : (unread ++ (typed ++ [c]))[k]? = some found) : update
    cons.buf (cons.e.toNat % inputBuf) c ((cons.r + .ofNat 32 k).toNat % inputBuf) = found := by
  rw [← List.append_assoc] at at_k
  rw [h.e_eq]
  have k_lt := (List.getElem?_eq_some_iff.mp at_k).1
  rw [List.length_append, List.length_append, List.length_singleton] at k_lt
  rcases Nat.lt_succ_iff_lt_or_eq.mp k_lt with below | last
  · have o : _ ≠ (cons.r + .ofNat 32 (unread.length + typed.length)).toNat % inputBuf :=
      mt (slot_injective (below.trans room) room) below.ne
    rw [update_of_ne o]
    apply h.chars
    rwa [List.getElem?_append_left (by rwa [List.length_append])] at at_k
  · rw [last, update_self]
    rw [last, ← List.length_append, List.getElem?_concat_length] at at_k
    exact Option.some.inj at_k

theorem store (room : unread.length + (typed ++ [c]).length < inputBuf) (isIn : c ≠ newline) :
    Holds { cons with
      buf := update cons.buf (cons.e.toNat % inputBuf) c
      e := cons.e + 1 } unread (typed ++ [c]) where
  length_le := room.le
  w_eq := h.w_eq
  e_eq := by rw [length_append, length_singleton, ← add_assoc, ← index_succ, ← h.e_eq]
  chars := by
    intro k hit at_k
    rw [length_append, length_singleton] at room
    exact h.store_chars (by omega) c at_k
  full := fun full => absurd full room.ne
  oneLine := by
    rw [mem_append, mem_singleton]
    exact fun hit => hit.elim h.oneLine fun same => isIn same.symm

theorem commit (room : unread.length + typed.length < inputBuf) (c : UInt8) : Holds { cons with
      buf := update cons.buf (cons.e.toNat % inputBuf) c
      e := cons.e + 1
      w := cons.e + 1 } (unread ++ (typed ++ [c])) [] where
  length_le := by
    simp only [length_append, length_singleton, length_nil]
    omega
  w_eq := by
    rw [length_append, length_append, length_singleton, ← add_assoc, ← index_succ, ← h.e_eq]
  e_eq := by
    rw [length_nil, add_zero, length_append, length_append,
      length_singleton, ← add_assoc, ← index_succ, ← h.e_eq]
  chars := by
    intro k hit at_k
    rw [append_nil] at at_k
    exact h.store_chars room c at_k
  full _ := rfl
  oneLine := not_mem_nil

end

theorem unchanged {line : Line} {after : Cons} {typed : List UInt8}
    (h : after.Holds unread typed) (same : after.r = cons.r) :
    ∃ more, line.committed = line.committed ++ more ∧ after.Holds (unread ++ more) typed ∧
      after.r = cons.r := ⟨[], (append_nil _).symm, by rwa [append_nil], same⟩

theorem backspace (h : cons.Holds unread typed) :
    Holds (if cons.e ≠ cons.w then { cons with e := cons.e - 1 } else cons) unread
      typed.dropLast := by
  rcases eq_nil_or_concat' typed with rfl | ⟨kept, last, rfl⟩
  · rwa [if_neg (not_not_intro (h.e_eq_w_iff.mpr rfl))]
  · rw [if_pos (mt h.e_eq_w_iff.mp (concat_ne_nil _ _)), dropLast_concat]
    exact h.erase

theorem consoleintr {line : Line} {taken : Nat} (h : cons.Holds unread line.typed)
    (counted : line.committed.length = taken + unread.length) (c : UInt8) :
    ∃ more, (line.input taken c).committed = line.committed ++ more ∧ Holds (cons.consoleintr c)
    (unread ++ more) (line.input taken c).typed ∧ (cons.consoleintr c).r = cons.r := by
  have same_room : (cons.e - cons.r).toNat < inputBuf ↔
      line.committed.length + line.typed.length < taken + inputBuf := by
    rw [h.e_sub_r, counted]
    omega
  have same_accepted := and_congr_right fun _ : c ≠ 0 => same_room
  unfold Cons.consoleintr Line.input
  by_cases print : c = ctrlP
  · rw [if_pos print, if_pos print]
    exact unchanged h rfl
  rw [if_neg print, if_neg print]
  by_cases kill : c = ctrlU
  · rw [if_pos kill, if_pos kill, h.e_sub_w]
    exact unchanged h.killLine.1 h.killLine.2.1
  rw [if_neg kill, if_neg kill]
  by_cases erases : c = ctrlH ∨ c = delete
  · rw [if_pos erases, if_pos erases]
    refine unchanged h.backspace ?_
    split <;> rfl
  rw [if_neg erases, if_neg erases]
  by_cases accepted : c ≠ 0 ∧ line.committed.length + line.typed.length < taken + inputBuf
  · rw [if_pos accepted, if_pos (same_accepted.mpr accepted)]
    generalize (if c = carriageReturn then newline else c) = c
    have room := accepted.2
    rw [counted, add_assoc, Nat.add_lt_add_iff_left] at room
    -- The buffer is full after this character for the code when it is for the line.
    have same_full : cons.e + 1 = cons.r + .ofNat 32 inputBuf ↔
        line.committed.length + (line.typed ++ [c]).length = taken + inputBuf := by
      rw [h.e_eq, index_succ, index_eq_iff room le_rfl, counted, length_append, length_singleton]
      omega
    have same_ends : (c = newline ∨ c = ctrlD ∨ _) ↔ (c = newline ∨ c = ctrlD ∨ _) :=
      or_congr_right (or_congr_right same_full)
    dsimp only
    by_cases ends : c = newline ∨ c = ctrlD ∨
      line.committed.length + (line.typed ++ [c]).length = taken + inputBuf
    · rw [if_pos ends, if_pos (same_ends.mpr ends)]
      exact ⟨line.typed ++ [c], rfl, h.commit room c, rfl⟩
    rw [if_neg ends, if_neg (mt same_ends.mp ends)]
    refine unchanged (h.store ?_ fun same => ends (.inl same)) rfl
    have not_full : line.committed.length + (line.typed ++ [c]).length ≠ taken + inputBuf :=
      fun full => ends (.inr (.inr full))
    rw [counted] at not_full
    rw [length_append, length_singleton] at not_full ⊢
    omega
  · rw [if_neg accepted, if_neg (mt same_accepted.mp accepted)]
    exact unchanged h rfl

/-! ## Readers -/

theorem take (h : cons.Holds (c :: unread) typed) :
    Holds { cons with r := cons.r + 1 } unread typed where
  length_le := by
    have len_le := h.length_le
    rw [length_cons] at len_le
    omega
  w_eq := by
    rw [index_one_add]
    exact h.w_eq
  e_eq := by
    rw [index_one_add, add_right_comm]
    exact h.e_eq
  chars := by
    intro k hit at_k
    rw [index_one_add]
    exact h.chars (k + 1) hit at_k
  full := by
    intro full
    have len_le := h.length_le
    rw [length_cons] at len_le
    omega
  oneLine := h.oneLine

theorem charAt_r (h : cons.Holds (c :: unread) typed) : cons.charAt cons.r = c := by
  have fst := h.chars 0 c rfl
  rwa [BitVec.add_zero] at fst

end Holds

/-- A reader goes on after such characters. -/
def Plain (chars : List UInt8) : Prop := newline ∉ chars ∧ ctrlD ∉ chars

theorem Plain.concat {chars : List UInt8} (plain : Plain chars)
    (not_newline : c ≠ newline) (not_end : c ≠ ctrlD) : Plain (chars ++ [c]) := by
  constructor
  · rw [mem_append, mem_singleton]
    exact fun hit => hit.elim plain.1 fun same => not_newline same.symm
  · rw [mem_append, mem_singleton]
    exact fun hit => hit.elim plain.2 fun same => not_end same.symm

/-- Where a read of `target` bytes stops: after the last byte, after a newline, before a
control-D when it has bytes, and after the control-D when it has none. `next` is the
committed character after those taken. -/
inductive Stops (target : Nat) (next : Option UInt8) : (bytes taken : List UInt8) → Prop
  | count {bytes : List UInt8} (plain : Plain bytes) (all : bytes.length = target) :
      Stops target next bytes bytes
  | line {bytes : List UInt8} (plain : Plain bytes) (more : bytes.length < target) :
      Stops target next (bytes ++ [newline]) (bytes ++ [newline])
  | before {bytes : List UInt8} (plain : Plain bytes) (some_bytes : bytes ≠ [])
      (more : bytes.length < target) (at_end : next = some ctrlD) :
      Stops target next bytes bytes
  | endOfFile (more : 0 < target) : Stops target next [] [ctrlD]

variable {bytes : List UInt8}

theorem Stops.mono {target : Nat} {next next' : Option UInt8}
    {taken : List UInt8} (stops : Stops target next bytes taken)
    (same : next = some ctrlD → next' = some ctrlD) : Stops target next' bytes taken := by
  cases stops with
  | count plain all => exact .count plain all
  | line plain more => exact .line plain more
  | before plain some_bytes more at_end => exact .before plain some_bytes more (same at_end)
  | endOfFile more => exact .endOfFile more

/-- What `n`, `bytes` and `taken` are when a reader gives up the lock, with `rest` in the
buffer. -/
def Leaves.Meets (killed : Bool) (target : Nat) (bytes taken rest : List UInt8) :
    Leaves → Prop
  | .returns => Stops target rest.head? bytes taken
  | .fails => rest = [] ∧ killed = true ∧ Plain bytes ∧ bytes.length < target ∧ taken = bytes
  | .sleeps n => rest = [] ∧ killed = false ∧ Plain bytes ∧ 0 < n ∧
      bytes.length + n = target ∧ taken = bytes

theorem Holds.readLoop {killed : Bool} {target n : Nat}
    (h : cons.Holds unread typed) (plain : Plain bytes) (missing : bytes.length + n = target) :
    ∃ leaves bytes' more rest after,
      cons.readLoop killed target n bytes bytes = (leaves, bytes', bytes ++ more, after) ∧
      unread = more ++ rest ∧ after.Holds rest typed ∧
      leaves.Meets killed target bytes' (bytes ++ more) rest := by
  induction n generalizing cons unread bytes with
  | zero =>
    refine ⟨.returns, bytes, [], unread, cons, ?_, rfl, h, ?_⟩
    · rw [append_nil]
      rfl
    · rw [append_nil]
      exact .count plain missing
  | succ n ih =>
    rw [readLoop]
    cases unread with
    | nil =>
      rw [if_pos (h.r_eq_w_iff.mpr rfl)]
      refine ⟨_, bytes, [], [], cons, by rw [append_nil], rfl, h, ?_⟩
      rw [append_nil]
      cases killed with
      | true => exact ⟨rfl, rfl, plain, by omega, rfl⟩
      | false => exact ⟨rfl, rfl, plain, n.succ_pos, missing, rfl⟩
    | cons c unread =>
      rw [if_neg (mt h.r_eq_w_iff.mp (cons_ne_nil _ _)), h.charAt_r]
      dsimp only
      by_cases at_end : c = ctrlD
      · subst at_end
        rw [if_pos rfl]
        by_cases some_bytes : n + 1 < target
        · rw [if_pos some_bytes]
          refine ⟨.returns, bytes, [], ctrlD :: unread, cons, ?_, rfl, h, ?_⟩
          · rw [append_nil, add_sub_cancel_right]
          rw [append_nil]
          refine .before plain ?_ (by omega) rfl
          rintro rfl
          rw [length_nil] at missing
          omega
        · rw [if_neg some_bytes]
          have nothing : bytes = [] := length_eq_zero_iff.mp (by omega)
          subst nothing
          exact ⟨.returns, [], [ctrlD], unread, _, rfl, rfl, h.take, .endOfFile (by omega)⟩
      rw [if_neg at_end]
      by_cases whole : c = newline
      · subst whole
        rw [if_pos rfl]
        exact ⟨.returns, _, [newline], unread, _, rfl, rfl, h.take, .line plain (by omega)⟩
      rw [if_neg whole]
      obtain ⟨leaves, bytes', more, rest, after, ran, split, holds', meets⟩ :=
        ih h.take (plain.concat whole at_end) (by rw [length_append, length_singleton]; omega)
      rw [List.append_assoc] at ran meets
      exact ⟨leaves, bytes', c :: more, rest, after, ran, by rw [split]; rfl, holds', meets⟩

/-- A reader with bytes to go takes the next character, but for a control-D after others. -/
theorem Leaves.Meets.takes {leaves : Leaves} {killed : Bool} {target n : Nat}
    {bytes' more rest unread' : List UInt8}
    (meets : leaves.Meets killed target bytes' (bytes ++ more) rest) (plain : Plain bytes)
    (missing : bytes.length + n = target) (some_left : 0 < n) (split : c :: unread' = more ++ rest)
    (not_end : c = ctrlD → bytes = []) : ∃ later, more = c :: later := by
  cases more with
  | cons d later =>
    rw [cons_append] at split
    exact ⟨later, congrArg (· :: later) (cons.inj split).1.symm⟩
  | nil =>
    rw [append_nil] at meets
    rw [nil_append] at split
    subst split
    cases leaves with
    | sleeps n => cases meets.1
    | fails => cases meets.1
    | returns =>
      cases meets with
      | count plain' all => omega
      | line => exact absurd (mem_append_right _ (mem_singleton_self _)) plain.1
      | endOfFile => exact absurd (mem_singleton_self _) plain.2
      | before plain' some_bytes more at_end =>
        exact absurd (not_end (Option.some.inj at_end)) some_bytes

/-- What an input character may do to the committed characters: they stay where they are,
and erasing adds none. -/
structure Keeps (c : UInt8) (cons after : Cons) : Prop where
  r_eq : after.r = cons.r
  unread_kept : cons.unread <+: after.unread
  erases : c = ctrlU ∨ c = ctrlH ∨ c = delete → after.w = cons.w

end Cons

/-! ## Runs -/

namespace Console

open Cons

variable {Reader : Type} [DecidableEq Reader]

/-- What is known of a call that is over. One that fails belongs to a killed process. -/
def Explained (console : Console Reader) (out : ReadResult Reader) : Prop :=
  if out.failed then
    console.killed out.reader = true ∧ Plain out.bytes ∧
      out.bytes.length < out.request.toNat ∧ out.taken = out.bytes
  else Stops out.request.toNat console.line.committed[out.upTo]? out.bytes
    out.taken

/-- The characters that the reader `p` has taken, in its calls that are over and in the one
that sleeps. -/
def takenBy (console : Console Reader) (p : Reader) : List UInt8 :=
  (console.results.filter fun out => out.reader = p).flatMap ReadResult.taken ++
    ((console.readers p).elim [] Reading.taken)

/-- What holds between the events. -/
structure Inv (console : Console Reader) (unread : List UInt8) : Prop where
  holds : console.cons.Holds unread console.line.typed
  inOrder : console.history.map Prod.snd ++ unread = console.line.committed
  once : ∀ p, (console.history.filter fun taken => taken.1 = p).map Prod.snd =
    console.takenBy p
  explained : ∀ out ∈ console.results, console.Explained out
  sleeping : ∀ p reading, console.readers p = some reading →
    Plain reading.bytes ∧ reading.bytes.length + reading.n = reading.request.toNat ∧
      reading.taken = reading.bytes

/-- A reader that has the lock goes on as far as it can: its call is over, or it sleeps because
there is nothing to read; and it takes the next committed character, but for a control-D
after other bytes. -/
structure GoesOn (p : Reader) (reading : Reading) (before after : Console Reader) : Prop where
  ends : (after.readers p = none ∧ ∃ out, after.results = before.results ++ [out] ∧
      out.reader = p ∧ out.request = reading.request) ∨
    ((∃ asleep, after.readers p = some asleep ∧ asleep.request = reading.request) ∧
      after.cons.r = after.cons.w ∧ before.killed p = false)
  takes : 0 < reading.n → ∀ c rest, before.cons.unread = c :: rest →
    (c = ctrlD → reading.bytes = []) → ∃ more, after.history = before.history ++ (p, c) :: more

variable {console : Console Reader} {unread : List UInt8}

omit [DecidableEq Reader] in
theorem Explained.mono {after : Console Reader} {out : ReadResult Reader} (explained :
    console.Explained out) (committed : console.line.committed <+: after.line.committed)
    (killed : ∀ p, console.killed p = true → after.killed p = true) : after.Explained out := by
  unfold Explained at explained ⊢
  split at explained
  · rename_i failed
    rw [if_pos failed]
    exact ⟨killed _ explained.1, explained.2⟩
  rename_i finished
  rw [if_neg finished]
  refine explained.mono fun at_end => ?_
  obtain ⟨more, whole⟩ := committed
  rwa [← whole, List.getElem?_append_left (List.getElem?_eq_some_iff.mp at_end).1]

theorem empty_inv (buf : Nat → UInt8) (start : BitVec 32) :
    (empty buf start : Console Reader).Inv [] where
  holds :=
    { length_le := Nat.zero_le _
      w_eq := (BitVec.add_zero _).symm
      e_eq := (BitVec.add_zero _).symm
      chars := fun _ _ at_k => nomatch at_k
      full := fun _ => rfl
      oneLine := not_mem_nil }
  inOrder := rfl
  once _ := rfl
  explained _ isIn := nomatch isIn
  sleeping _ _ at_p := nomatch at_p

theorem Inv.counted (inv : console.Inv unread) :
    console.line.committed.length = console.history.length + unread.length := by
  rw [← inv.inOrder, length_append, length_map]

theorem Inv.intr (inv : console.Inv unread) (c : UInt8) :
    ∃ more, (console.exec (.intr c)).Inv (unread ++ more) := by
  obtain ⟨more, committed, h, _⟩ := inv.holds.consoleintr inv.counted c
  refine ⟨more, h, ?_, inv.once, ?_, inv.sleeping⟩
  · rw [exec]
    dsimp only
    rw [committed, ← inv.inOrder, List.append_assoc]
  · intro out isIn
    exact (inv.explained out isIn).mono ⟨more, committed.symm⟩ fun _ killed => killed

theorem Inv.kill (inv : console.Inv unread) (p : Reader) : (console.exec (.kill p)).Inv unread where
  holds := inv.holds
  inOrder := inv.inOrder
  once := inv.once
  explained out isIn := by
    refine (inv.explained out isIn).mono (prefix_refl _) ?_
    intro q killed
    change update console.killed p true q = true
    by_cases same : q = p
    · rw [same, update_self]
    · rwa [update_of_ne same]
  sleeping := inv.sleeping

/-! What a reader takes is added to its characters, and to nobody else's. -/

theorem history_took (p q : Reader) (more : List UInt8) (cons : Cons) :
    ((console.took p more cons).history.filter fun taken => taken.1 = q).map Prod.snd =
      (console.history.filter fun taken => taken.1 = q).map Prod.snd ++
        if q = p then more else [] := by
  have added : ((more.map (p, ·)).filter fun taken => taken.1 = q).map Prod.snd =
      if q = p then more else [] := by
    split
    · rename_i same
      rw [filter_eq_self.mpr, map_map]
      · exact map_id more
      · intro taken isIn
        obtain ⟨c, _, rfl⟩ := mem_map.mp isIn
        exact decide_eq_true same.symm
    · rename_i o
      rw [filter_eq_nil_iff.mpr, map_nil]
      intro taken isIn
      obtain ⟨c, _, rfl⟩ := mem_map.mp isIn
      rw [decide_eq_true_eq]
      exact Ne.symm o
  rw [took, filter_append, map_append, added]

variable {p : Reader}

theorem takenBy_finish {req : Int} {taken more : List UInt8} {failed : Bool}
    (cur : taken = (console.readers p).elim [] Reading.taken ++ more) (q : Reader) :
    (console.finish p req bytes taken failed).takenBy q =
    console.takenBy q ++ if q = p then more else [] := by
  unfold takenBy finish
  dsimp only
  rw [filter_append, flatMap_append]
  by_cases same : q = p
  · subst same
    rw [update_self, if_pos rfl, filter_singleton, decide_eq_true rfl, cur]
    simp only [List.append_assoc, List.flatMap_cons, List.flatMap_nil, Option.elim_none,
      append_nil, cond_true]
  · rw [update_of_ne same, if_neg same, filter_singleton, decide_eq_false (Ne.symm same)]
    simp only [append_nil, flatMap_nil, cond_false]

theorem takenBy_pause {reading : Reading} {more : List UInt8}
    (cur : reading.taken = (console.readers p).elim [] Reading.taken ++ more) (q : Reader) :
    (console.pause p reading).takenBy q = console.takenBy q ++ if q = p then more else [] := by
  unfold takenBy pause
  dsimp only
  by_cases same : q = p
  · subst same
    rw [update_self, if_pos rfl, Option.elim_some, cur, List.append_assoc]
  · rw [update_of_ne same, if_neg same, append_nil]

section

variable (inv : console.Inv unread)
include inv

theorem Inv.consoleread {reading : Reading} (plain : Plain reading.bytes)
    (lost : reading.bytes.length + reading.n = reading.request.toNat)
    (all_copied : reading.taken = reading.bytes)
    (cur : reading.taken = (console.readers p).elim [] Reading.taken) :
    ∃ rest, (console.consoleread p reading).Inv rest := by
  obtain ⟨leaves, bytes, more, rest, cons, ran, split, h, meets⟩ : ∃ leaves bytes' more rest after,
        console.cons.readLoop (console.killed p) reading.request.toNat reading.n reading.bytes
          reading.bytes = (leaves, bytes', reading.bytes ++ more, after) ∧ _ :=
    inv.holds.readLoop plain lost
  rw [← all_copied] at ran meets
  have inOrder : (console.took p more cons).history.map Prod.snd ++ rest =
      console.line.committed := by
    rw [← inv.inOrder, split, took, List.map_append, List.map_map, List.append_assoc]
    congr 2
    exact map_id more
  have taken_eq : reading.taken ++ more =
      ((console.took p more cons).readers p).elim [] Reading.taken ++ more := by
    rw [cur]
    rfl
  have next : console.line.committed[(console.took p more cons).history.length]? = rest.head? := by
    rw [← inOrder, getElem?_append_right (by rw [length_map]), length_map,
      Nat.sub_self, head?_eq_getElem?]
  have finished (failed : Bool) (explained : (console.took p more cons).Explained
        ⟨p, reading.request, bytes, reading.taken ++ more,
          (console.took p more cons).history.length, failed⟩) :
      ((console.took p more cons).finish p reading.request bytes
        (reading.taken ++ more) failed).Inv rest := by
    refine ⟨h, inOrder, ?_, ?_, ?_⟩
    · intro q
      rw [takenBy_finish taken_eq]
      exact (history_took p q more cons).trans (congrArg (· ++ _) (inv.once q))
    · intro out isIn
      rcases mem_append.mp isIn with old | new
      · exact inv.explained out old
      · rwa [mem_singleton.mp new]
    · intro q sleeper at_q
      change update console.readers p none q = _ at at_q
      by_cases same : q = p
      · rw [same, update_self] at at_q
        cases at_q
      · rw [update_of_ne same] at at_q
        exact inv.sleeping q sleeper at_q
  refine ⟨rest, ?_⟩
  rw [Console.consoleread, ← all_copied, ran]
  dsimp only
  rw [drop_left]
  cases leaves with
  | returns =>
    refine finished false ?_
    change Stops _ _ _ _
    exact next ▸ meets
  | fails => exact finished true meets.2
  | sleeps n =>
    obtain ⟨_, _, plain', pos, lost', copied⟩ := meets
    refine ⟨h, inOrder, ?_, inv.explained, ?_⟩
    · intro q
      rw [takenBy_pause taken_eq]
      exact (history_took p q more cons).trans (congrArg (· ++ _) (inv.once q))
    intro q sleeper at_q
    change update console.readers p _ q = _ at at_q
    by_cases same : q = p
    · rw [same, update_self] at at_q
      cases at_q
      exact ⟨plain', lost', copied⟩
    · rw [update_of_ne same] at at_q
      exact inv.sleeping q sleeper at_q

theorem Inv.goesOn {reading : Reading} (plain : Plain reading.bytes)
    (missing : reading.bytes.length + reading.n = reading.request.toNat)
    (all_copied : reading.taken = reading.bytes) :
    GoesOn p reading console (console.consoleread p reading) := by
  obtain ⟨leaves, bytes, more, rest, cons, ran, split, h, meets⟩ :
      ∃ leaves bytes' more rest after,
        console.cons.readLoop (console.killed p) reading.request.toNat reading.n reading.bytes
          reading.bytes = (leaves, bytes', reading.bytes ++ more, after) ∧ _ :=
    inv.holds.readLoop plain missing
  have takes : 0 < reading.n → ∀ c rest, console.cons.unread = c :: rest →
      (c = ctrlD → reading.bytes = []) → ∃ later, console.history ++ more.map (p, ·) =
        console.history ++ (p, c) :: later := by
    intro some_left c tail first not_end
    rw [inv.holds.unread_eq] at first
    rw [first] at split
    obtain ⟨later, rfl⟩ := meets.takes plain missing some_left split not_end
    exact ⟨_, rfl⟩
  rw [Console.consoleread, all_copied, ran]
  dsimp only
  rw [drop_left]
  cases leaves with
  | returns | fails => exact ⟨.inl ⟨update_self _ _ _, _, rfl, rfl, rfl⟩, takes⟩
  | sleeps n =>
    refine ⟨.inr ⟨⟨_, update_self _ _ _, rfl⟩, ?_, meets.2.1⟩, takes⟩
    exact h.r_eq_w_iff.mpr meets.1

theorem Inv.exec (event : ConsoleEvent Reader) : ∃ rest, (console.exec event).Inv rest := by
  cases event with
  | intr c =>
    obtain ⟨more, after⟩ := inv.intr c
    exact ⟨_, after⟩
  | read p n =>
    rw [Console.exec]
    cases at_p : console.readers p with
    | none =>
      refine inv.consoleread ⟨not_mem_nil, not_mem_nil⟩ (zero_add _) rfl ?_
      rw [at_p]
      rfl
    | some reading => exact ⟨unread, inv⟩
  | resume p =>
    rw [Console.exec]
    cases at_p : console.readers p with
    | none => exact ⟨unread, inv⟩
    | some reading =>
      obtain ⟨plain, lost, copied⟩ := inv.sleeping p reading at_p
      refine inv.consoleread plain lost copied ?_
      rw [at_p]
      rfl
  | kill p => exact ⟨unread, inv.kill p⟩

theorem Inv.run (events : List (ConsoleEvent Reader)) : ∃ rest, (console.run events).Inv rest := by
  induction events generalizing console unread with
  | nil => exact ⟨unread, inv⟩
  | cons event events ih =>
    obtain ⟨_, after⟩ := inv.exec event
    exact ih after

theorem Inv.keeps (c : UInt8) : Keeps c console.cons (console.cons.consoleintr c) := by
  obtain ⟨more, _, h, r_eq⟩ := inv.holds.consoleintr inv.counted c
  refine ⟨r_eq, ?_, ?_⟩
  · rw [h.unread_eq, inv.holds.unread_eq]
    exact prefix_append _ _
  rintro (rfl | rfl | rfl)
  · rw [consoleintr, if_neg (by decide), if_pos rfl, inv.holds.e_sub_w]
    exact inv.holds.killLine.2.2
  · rw [consoleintr, if_neg (by decide), if_neg (by decide), if_pos (.inl rfl)]
    split <;> rfl
  · rw [consoleintr, if_neg (by decide), if_neg (by decide), if_pos (.inr rfl)]
    split <;> rfl

end

/-- The line discipline, in every run with any number of readers. The indices are in order
and a full buffer can be read. No input character takes back a committed character. The
characters taken so far and then the unread ones are the committed ones. Each reader has in
its calls exactly the characters that it took, and each call stops where it should. A reader
that makes a call or wakes up goes on as far as it can. -/
theorem console_line_discipline (buf : Nat → UInt8) (start : BitVec 32)
    (events : List (ConsoleEvent Reader)) :
    let console := (empty buf start : Console Reader).run events
    let cons := console.cons
    (cons.w - cons.r).toNat ≤ (cons.e - cons.r).toNat ∧ (cons.e - cons.r).toNat ≤ inputBuf ∧
    ((cons.e - cons.r).toNat = inputBuf → cons.r ≠ cons.w) ∧
    (∀ c, Keeps c cons (cons.consoleintr c)) ∧ cons.typed = console.line.typed ∧
    console.history.map Prod.snd ++ cons.unread = console.line.committed ∧
    (∀ p, (console.history.filter fun taken => taken.1 = p).map Prod.snd = console.takenBy p) ∧
    (∀ out ∈ console.results, console.Explained out) ∧
    (∀ p n, console.readers p = none →
      GoesOn p ⟨n, n.toNat, [], []⟩ console (console.exec (.read p n))) ∧
    (∀ p reading, console.readers p = some reading →
      GoesOn p reading console (console.exec (.resume p))) := by
  have start_inv : (empty buf start : Console Reader).Inv [] := empty_inv buf start
  obtain ⟨unread, inv⟩ := start_inv.run events
  dsimp only
  refine ⟨?_, ?_, ?_, inv.keeps, inv.holds.typed_eq, ?_, inv.once, inv.explained, ?_, ?_⟩
  · rw [inv.holds.w_sub_r, inv.holds.e_sub_r]
    exact Nat.le_add_right _ _
  · rw [inv.holds.e_sub_r]
    exact inv.holds.length_le
  · intro full empty
    rw [inv.holds.e_sub_r] at full
    have nothing := inv.holds.full full
    rw [nothing, inv.holds.r_eq_w_iff.mp empty] at full
    cases full
  · rw [inv.holds.unread_eq]
    exact inv.inOrder
  · intro p n idle
    rw [exec, idle]
    exact inv.goesOn ⟨not_mem_nil, not_mem_nil⟩ (zero_add _) rfl
  · intro p reading asleep
    obtain ⟨plain, missing, copied⟩ := inv.sleeping p reading asleep
    rw [exec, asleep]
    exact inv.goesOn plain missing copied

end Console

end Xv6
