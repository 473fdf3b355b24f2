import Mathlib.Data.Set.Insert
import Mathlib.Logic.Function.Iterate
import Mathlib.Algebra.Group.Int.Defs
import Mathlib.Algebra.Group.Nat.Defs

/-! # The memory that `malloc` asks for

`umalloc.c`. Addresses are counted in bytes, and sizes of blocks in units of a header. What
`sbrk` returns comes from outside. -/

namespace Xv6.Umalloc

/-- `sizeof(Header)`. -/
def headerSize : Nat := 16

/-- `Header`. The size is a `uint`. -/
structure Header where
  ptr : Nat
  size : Nat

/-- Memory by the addresses of headers, the address of `base`, and `freep`, which is 0 before
the first call. `asked` are the arguments of `sbrk`, each with the size that `morecore` then
records. -/
structure Heap where
  mem : Nat → Header
  base : Nat
  freep : Nat
  asked : List (Int × Nat)

namespace Heap

def set (a : Nat) (header : Header) (heap : Heap) : Heap :=
  { heap with mem := Function.update heap.mem a header }

/-- The pointer after the block at `a`. -/
def blockEnd (heap : Heap) (a : Nat) : Nat := a + headerSize * (heap.mem a).size

/-- The loop of `free` that looks for the place of `bp`. -/
def freeSearch (heap : Heap) (bp : Nat) : (fuel : Nat) → (p : Nat) → Option Nat
  | 0, _ => none
  | fuel + 1, p =>
    if p < bp ∧ bp < (heap.mem p).ptr then some p
    else if (heap.mem p).ptr ≤ p ∧ (p < bp ∨ bp < (heap.mem p).ptr) then some p
    else heap.freeSearch bp fuel (heap.mem p).ptr

/-- The block at `bp` is joined to the block after it, or linked to it. -/
def joinUpper (p bp : Nat) (heap : Heap) : Heap :=
  let next := (heap.mem p).ptr
  if heap.blockEnd bp = next then
    heap.set bp ⟨(heap.mem next).ptr, ((heap.mem bp).size + (heap.mem next).size) % 2 ^ 32⟩
  else heap.set bp ⟨next, (heap.mem bp).size⟩

/-- The block at `p` is joined to the block at `bp`, or linked to it. -/
def joinLower (p bp : Nat) (heap : Heap) : Heap :=
  if heap.blockEnd p = bp then
    heap.set p ⟨(heap.mem bp).ptr, ((heap.mem p).size + (heap.mem bp).size) % 2 ^ 32⟩
  else heap.set p ⟨bp, (heap.mem p).size⟩

/-- `free` of the pointer `ap`, or nothing when the loop has not ended. -/
def free (fuel ap : Nat) (heap : Heap) : Option Heap :=
  let bp := ap - headerSize
  (heap.freeSearch bp fuel heap.freep).map fun p =>
    { (heap.joinUpper p bp).joinLower p bp with freep := p }

/-- The units that `morecore` asks for. -/
def coreUnits (nu : Nat) : Nat := if nu < 4096 then 4096 else nu

/-- The number that `sbrk` gets: its parameter is an `int`. -/
def sbrkArgument (nu : Nat) : Int := ((coreUnits nu * headerSize : Nat) : Int).bmod (2 ^ 32)

/-- `start` is what `sbrk` returns, or nothing for -1. -/
def morecore (fuel nu : Nat) (start : Option Nat) (heap : Heap) : Option (Option Nat × Heap) :=
  let heap := { heap with asked := heap.asked ++ [(sbrkArgument nu, coreUnits nu)] }
  match start with
  | none => some (none, heap)
  | some hp =>
    ((heap.set hp ⟨(heap.mem hp).ptr, coreUnits nu⟩).free fuel (hp + headerSize)).map
      fun heap => (some heap.freep, heap)

/-- The block at `p`, or its upper end, is taken off the list. -/
def take (nunits prevp p : Nat) (heap : Heap) : Nat × Heap :=
  if (heap.mem p).size = nunits then
    (p + headerSize,
      { heap.set prevp ⟨(heap.mem p).ptr, (heap.mem prevp).size⟩ with freep := prevp })
  else
    let rest := (heap.mem p).size - nunits
    let q := p + headerSize * rest
    let heap := heap.set p ⟨(heap.mem p).ptr, rest⟩
    (q + headerSize, { heap.set q ⟨(heap.mem q).ptr, nunits⟩ with freep := prevp })

/-- The loop of `malloc`. `starts` is what the calls of `sbrk` return. -/
def mallocLoop (nunits : Nat) : (fuel : Nat) → (starts : List (Option Nat)) →
    (prevp p : Nat) → Heap → Option (Option Nat × Heap)
  | 0, _, _, _, _ => none
  | fuel + 1, starts, prevp, p, heap =>
    if nunits ≤ (heap.mem p).size then
      let (pointer, heap) := heap.take nunits prevp p
      some (some pointer, heap)
    else if p = heap.freep then
      match heap.morecore fuel nunits (starts.headD none) with
      | none => none
      | some (none, heap) => some (none, heap)
      | some (some q, heap) => mallocLoop nunits fuel starts.tail q (heap.mem q).ptr heap
    else mallocLoop nunits fuel starts p (heap.mem p).ptr heap

/-- `nbytes` is a `uint`, but the sum is not. -/
def units (nbytes : BitVec 32) : Nat := (nbytes.toNat + headerSize - 1) / headerSize + 1

/-- The list is made at the first call. -/
def prepare (heap : Heap) : Heap :=
  if heap.freep = 0 then { heap.set heap.base ⟨heap.base, 0⟩ with freep := heap.base } else heap

def malloc (fuel : Nat) (nbytes : BitVec 32) (starts : List (Option Nat)) (heap : Heap) :
    Option (Option Nat × Heap) :=
  let heap := heap.prepare
  mallocLoop (units nbytes) fuel starts heap.freep (heap.mem heap.freep).ptr heap

/-- `sbrk` gives no more than `room` bytes. -/
def Limited (room : Int) (nbytes : BitVec 32) (starts : List (Option Nat)) : Prop :=
  ∀ hp, some hp ∈ starts → sbrkArgument (units nbytes) ≤ room

/-- The block after `a` on the list. -/
def following (heap : Heap) (a : Nat) : Nat := (heap.mem a).ptr

/-- Steps of `f` lead from `a` to `b`. -/
def Leads (f : Nat → Nat) (a b : Nat) : Prop := ∃ n, f^[n] a = b

/-- The free list is circular: from each of the nodes it leads to `freep`. -/
structure Ring (heap : Heap) (nodes : Set Nat) : Prop where
  freep : heap.freep ∈ nodes
  closed : ∀ a ∈ nodes, heap.following a ∈ nodes
  leads : ∀ a ∈ nodes, Leads heap.following a heap.freep

/-- Every call of `sbrk` since `heap` is for the positive number of bytes that the recorded
size says, and with less room there is no pointer. -/
def Honest (room : Int) (heap : Heap) : Option Nat × Heap → Prop
  | (pointer, later) => ∃ calls, later.asked = heap.asked ++ calls ∧
      ∀ call ∈ calls, call.1 = call.2 * headerSize ∧ 0 < call.1 ∧
        (room < call.1 → pointer = none)

/-! ## Calls of `sbrk` -/

variable {fuel nunits nu : Nat} {starts : List (Option Nat)} {heap later : Heap}
  {pointer : Option Nat}

theorem free_asked {ap : Nat} (ran : heap.free fuel ap = some later) :
    later.asked = heap.asked := by
  obtain ⟨p, -, rfl⟩ := Option.map_eq_some_iff.mp ran
  unfold joinLower joinUpper
  dsimp only
  split <;> split <;> rfl

theorem morecore_asked {start : Option Nat}
    (ran : heap.morecore fuel nu start = some (pointer, later)) :
    later.asked = heap.asked ++ [(sbrkArgument nu, coreUnits nu)] ∧
      (start = none → pointer = none) := by
  cases start with
  | none =>
    cases ran
    exact ⟨rfl, fun _ => rfl⟩
  | some hp =>
    obtain ⟨freed, ended, eq⟩ := Option.map_eq_some_iff.mp ran
    cases eq
    exact ⟨free_asked ended, fun failed => by cases failed⟩

theorem take_asked (nunits prevp p : Nat) (heap : Heap) :
    (heap.take nunits prevp p).2.asked = heap.asked := by
  unfold take
  split <;> rfl

/-- All calls ask for the same, and after one that fails there is no other. -/
theorem mallocLoop_asked {prevp p : Nat}
    (ran : heap.mallocLoop nunits fuel starts prevp p = some (pointer, later)) :
    ∃ k, later.asked = heap.asked ++ List.replicate k (sbrkArgument nunits, coreUnits nunits) ∧
    ((∀ hp, some hp ∉ starts) → 0 < k → pointer = none) := by
  induction fuel generalizing starts prevp p heap with
  | zero => cases ran
  | succ fuel ih =>
    rw [mallocLoop] at ran
    split at ran
    · have taken : (heap.take nunits prevp p).2 = later := (Prod.mk.inj (Option.some.inj ran)).2
      refine ⟨0, ?_, fun _ more => by omega⟩
      rw [← taken, take_asked, List.replicate_zero, List.append_nil]
    split at ran
    · split at ran
      · cases ran
      · next failed =>
        cases ran
        exact ⟨1, (morecore_asked failed).1, fun _ _ => rfl⟩
      next q mid grew =>
      obtain ⟨asked, fails⟩ := morecore_asked grew
      obtain ⟨k, rest, _⟩ := ih ran
      refine ⟨k + 1, ?_, fun none_given _ => ?_⟩
      · rw [rest, asked, List.append_assoc, List.replicate_succ]
        rfl
      cases starts with
      | nil => cases fails rfl
      | cons start starts =>
        cases start with
        | none => cases fails rfl
        | some hp => exact absurd List.mem_cons_self (none_given hp)
    · exact ih ran

theorem prepare_asked (heap : Heap) : heap.prepare.asked = heap.asked := by
  unfold prepare
  split <;> rfl

/-! ## Rounds -/

section

variable {p : Nat} {nodes : Set Nat}

/-- The loop ends from `p` on, and without a pointer if no block is large enough. -/
def Ends (nunits : Nat) (nodes : Set Nat) (starts : List (Option Nat)) (heap : Heap)
    (p : Nat) : Prop :=
  ∀ prevp, ∃ result bound,
    (∀ fuel, bound < fuel → heap.mallocLoop nunits fuel starts prevp p = some result) ∧
      ((∀ a ∈ nodes, (heap.mem a).size < nunits) → result.1 = none)

theorem Ends.of_large (inside : p ∈ nodes) (large : nunits ≤ (heap.mem p).size) :
    Ends nunits nodes starts heap p := by
  intro prevp
  refine ⟨(some (heap.take nunits prevp p).1, (heap.take nunits prevp p).2), 0,
    fun fuel enough => ?_, fun small => absurd (small p inside) (by omega)⟩
  obtain ⟨fuel, rfl⟩ := Nat.exists_eq_succ_of_ne_zero (Nat.ne_zero_of_lt enough)
  rw [mallocLoop, if_pos large]

theorem Ends.of_failed (failed : starts.headD none = none)
    (large : ¬nunits ≤ (heap.mem heap.freep).size) :
    Ends nunits nodes starts heap heap.freep := by
  intro prevp
  refine ⟨(none, { heap with
    asked := heap.asked ++ [(sbrkArgument nunits, coreUnits nunits)] }), 0,
    fun fuel enough => ?_, fun _ => rfl⟩
  obtain ⟨fuel, rfl⟩ := Nat.exists_eq_succ_of_ne_zero (Nat.ne_zero_of_lt enough)
  rw [mallocLoop, if_neg large, if_pos rfl, failed]
  rfl

/-- The loop goes along the list to `freep`, where `sbrk` fails. -/
theorem Ring.ends (ring : heap.Ring nodes) (inside : p ∈ nodes)
    (failed : starts.headD none = none) : Ends nunits nodes starts heap p := by
  have last : Ends nunits nodes starts heap heap.freep := by
    by_cases large : nunits ≤ (heap.mem heap.freep).size
    · exact .of_large ring.freep large
    · exact .of_failed failed large
  obtain ⟨n, arrives⟩ := ring.leads p inside
  induction n generalizing p with
  | zero =>
    obtain rfl : p = heap.freep := arrives
    exact last
  | succ n ih =>
    by_cases here : p = heap.freep
    · exact here ▸ last
    by_cases large : nunits ≤ (heap.mem p).size
    · exact .of_large inside large
    intro prevp
    obtain ⟨result, bound, ends, fails⟩ := ih (ring.closed p inside) arrives p
    refine ⟨result, bound + 1, fun fuel enough => ?_, fails⟩
    obtain ⟨fuel, rfl⟩ := Nat.exists_eq_succ_of_ne_zero (Nat.ne_zero_of_lt enough)
    rw [mallocLoop, if_neg large, if_neg here]
    exact ends fuel (by omega)

/-- Before the first call the list is `base` alone. -/
theorem ring_prepare {heap : Heap} (first : heap.freep = 0) : heap.prepare.Ring {heap.base} := by
  have alone : heap.prepare.following heap.base = heap.base := by
    simp [prepare, first, following, set]
  have isBase : heap.prepare.freep = heap.base := by
    rw [prepare, if_pos first]
  refine ⟨isBase, ?_, ?_⟩
  · rintro a rfl
    exact alone
  · rintro a rfl
    exact ⟨0, isBase.symm⟩

end

/-- The product is what `sbrk` gets as long as it fits in an `int`. -/
theorem sbrkArgument_iff (nbytes : BitVec 32) :
    sbrkArgument (units nbytes) = coreUnits (units nbytes) * headerSize ∧
      0 < sbrkArgument (units nbytes) ↔ nbytes.toNat ≤ 2147483616 := by
  have bound := nbytes.isLt
  have units_eq : units nbytes = (nbytes.toNat + 15) / 16 + 1 := by
    unfold units headerSize
    omega
  have core : coreUnits (units nbytes) = max 4096 (units nbytes) := by
    unfold coreUnits
    split <;> omega
  have argument : sbrkArgument (units nbytes) =
      (((max 4096 (units nbytes) * 16 : Nat) : Int)).bmod (2 ^ 32) := by
    rw [← core]
    rfl
  rw [argument, core, headerSize, Int.bmod_def]
  omega

/-- `malloc` asks `sbrk` for what it records, whatever the heap and whatever `sbrk` returns
within the room there is, if and only if the request is not larger than 2147483616. Where there
is less room than it asks for it returns, on every circular free list, and without a block that
is large enough it returns 0. -/
theorem malloc_honest_iff (nbytes : BitVec 32) :
    ((∀ room heap fuel starts result, Limited room nbytes starts →
      heap.malloc fuel nbytes starts = some result → Honest room heap result) ↔
      nbytes.toNat ≤ 2147483616) ∧
    ∀ room (heap : Heap) nodes starts, heap.prepare.Ring nodes →
      Limited room nbytes starts → room < sbrkArgument (units nbytes) → ∃ result bound,
      (∀ fuel, bound < fuel → heap.malloc fuel nbytes starts = some result) ∧
        ((∀ a ∈ nodes, (heap.prepare.mem a).size < units nbytes) → result.1 = none) := by
  refine ⟨?_, fun room heap nodes starts ring limited less => ?_⟩
  rotate_left
  · refine ring.ends (ring.closed _ ring.freep) ?_ _
    cases starts with
    | nil => rfl
    | cons start starts =>
      cases start with
      | none => rfl
      | some hp =>
        have le := limited hp List.mem_cons_self
        omega
  rw [← sbrkArgument_iff]
  constructor
  · intro honest
    have ran : malloc 1 nbytes [] ⟨fun _ => ⟨4096, 0⟩, 4096, 4096, []⟩ = some (none,
        ⟨fun _ => ⟨4096, 0⟩, 4096, 4096,
          [(sbrkArgument (units nbytes), coreUnits (units nbytes))]⟩) := by
      have large : ¬units nbytes ≤ 0 := Nat.not_succ_le_zero _
      rw [malloc, prepare, if_neg (by decide), mallocLoop, if_neg large, if_pos]
      all_goals rfl
    obtain ⟨calls, asked, all⟩ := honest 0 _ 1 [] _ (fun hp mem => absurd mem List.not_mem_nil) ran
    obtain ⟨exact_, pos, _⟩ := all (sbrkArgument (units nbytes), coreUnits (units nbytes))
      (by rw [← List.nil_append calls, ← asked]; exact List.mem_singleton_self _)
    dsimp only at exact_ pos
    exact ⟨exact_, pos⟩
  · rintro ⟨exact_, pos⟩ room heap fuel starts ⟨pointer, later⟩ limited ran
    obtain ⟨k, asked, fails⟩ := mallocLoop_asked ran
    rw [prepare_asked] at asked
    refine ⟨_, asked, fun call mem => ?_⟩
    obtain ⟨some_calls, rfl⟩ := List.mem_replicate.mp mem
    dsimp only
    refine ⟨exact_, pos, fun small => fails (fun hp given => ?_) (Nat.pos_of_ne_zero some_calls)⟩
    have le := limited hp given
    omega

/-- With 32 kB of room a first `malloc` of 100 bytes returns 0. -/
theorem malloc_honest_iff_refused : ∃ result bound,
    (∀ fuel, bound < fuel →
      malloc fuel 100 [none] ⟨fun _ => ⟨0, 0⟩, 4096, 0, []⟩ = some result) ∧
      result.1 = none ∧ Honest 32768 ⟨fun _ => ⟨0, 0⟩, 4096, 0, []⟩ result := by
  have ring : (⟨fun _ => ⟨0, 0⟩, 4096, 0, []⟩ : Heap).prepare.Ring {4096} := ring_prepare rfl
  have failing : ∀ hp, some hp ∉ [(none : Option Nat)] := by simp
  have limited : Limited 32768 100 [none] := fun hp given => absurd given (failing hp)
  obtain ⟨honest, returns⟩ := malloc_honest_iff 100
  obtain ⟨result, bound, ends, refuses⟩ := returns 32768 _ _ _ ring limited (by decide)
  refine ⟨result, bound, ends, refuses ?_, ?_⟩
  · rintro a rfl
    decide
  · exact honest.mpr (by decide) 32768 _ _ _ _ limited (ends (bound + 1) (Nat.lt_succ_self _))

/-- For the largest request 16 bytes are asked for and 268435457 units recorded, and there is
a pointer. -/
theorem largest_request : Limited 16 4294967295 [some 8192] ∧
    (malloc 4 4294967295 [some 8192] ⟨fun _ => ⟨0, 0⟩, 4096, 0, []⟩).map
      (fun result => (result.1, result.2.asked)) = some (some 8208, [(16, 268435457)]) :=
  ⟨fun _ _ => by decide +kernel, by decide +kernel⟩

end Heap

end Xv6.Umalloc
