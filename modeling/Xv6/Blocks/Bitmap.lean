import Mathlib.Data.List.Find
import Xv6.Blocks.Blocks

/-! # The free bit map on disk

`balloc` and `bfree` of `fs.c` over the bytes of the bit map blocks. -/

namespace Xv6.Bitmap

open Foundation Function List

/-! ## The program -/

abbrev Data := Nat → Block

/-- `BBLOCK`. -/
def bblock (sb : Superblock) (b : Nat) : Nat := (b / bpb + sb.bmapstart) % 2 ^ 32

def mask (bi : Nat) : UInt8 := 1 <<< UInt8.ofNat (bi % 8)

def isFree (content : Block) (bi : Nat) : Bool := content.byte (bi / 8) &&& mask bi == 0

/-- The loops of `balloc` from block `b` on. The inner one ends at the end of the bit map block
or at `sb.size`; the `int` `b` is compared as a `uint`. -/
def findFree (sb : Superblock) (data : Data) : (rounds b : Nat) → Option Nat
  | 0, _ => none
  | rounds + 1, b =>
    if b < sb.size then
      match (List.range (min bpb (sb.size - b))).find? (isFree (data (bblock sb b))) with
      | some bi => some (b + bi)
      | none => findFree sb data rounds ((b + bpb) % 2 ^ 32)
    else none

/-- The bit map block of `b` with the byte that holds its bit changed. -/
def change (sb : Superblock) (b : Nat) (op : UInt8 → UInt8) (data : Data) : Data :=
  let content := data (bblock sb b)
  let bi := b % bpb
  update data (bblock sb b) (content.patch (bi / 8) [op (content.byte (bi / 8))])

def bzero (blockno : Nat) (data : Data) : Data := update data blockno .zero

def balloc (sb : Superblock) (data : Data) : Except BlockPanic (Nat × Data) :=
  match findFree sb data (sb.size / bpb + 1) 0 with
  | some b => .ok (b, bzero b (change sb b (· ||| mask (b % bpb)) data))
  | none => .error .balloc

def bfree (sb : Superblock) (b : Nat) (data : Data) : Except BlockPanic Data :=
  if isFree (data (bblock sb b)) (b % bpb) then .error .bfree
  else .ok (change sb b (· &&& ~~~mask (b % bpb)) data)

/-! ## Bits -/

def bit (content : Block) (bi : Nat) : Bool :=
  (content.byte (bi / 8)).toBitVec.getLsbD (bi % 8)

def inUse (sb : Superblock) (data : Data) (b : Nat) : Bool := bit (data (bblock sb b)) (b % bpb)

theorem mask_eq (bi : Nat) : (mask bi).toBitVec = BitVec.twoPow 8 (bi % 8) := by
  have each : ∀ i : Fin 8, (1 <<< UInt8.ofNat i : UInt8).toBitVec = BitVec.twoPow 8 i := by decide
  exact each ⟨bi % 8, Nat.mod_lt _ (by decide)⟩

theorem isFree_eq (content : Block) (bi : Nat) : isFree content bi = !bit content bi := by
  have nonzero : ∀ i : Fin 8, BitVec.twoPow 8 i ≠ 0 := by decide
  have eq : (content.byte (bi / 8) &&& mask bi).toBitVec =
      if bit content bi then BitVec.twoPow 8 (bi % 8) else 0 := by
    rw [UInt8.toBitVec_and, mask_eq, BitVec.and_twoPow]
    rfl
  rw [isFree, Bool.eq_iff_iff, beq_iff_eq, ← UInt8.toBitVec_inj, eq]
  cases bit content bi with
  | true => simpa using nonzero ⟨bi % 8, Nat.mod_lt _ (by decide)⟩
  | false => simp

section

variable {sb : Superblock} {data data' last : Data} {b : Nat} {v : Bool}

/-- The bit of `b`, and no other bit of any block, comes to be `v`. -/
def Sets (sb : Superblock) (b : Nat) (v : Bool) (data data' : Data) : Prop :=
  ∀ blockno i, i < bpb →
    bit (data' blockno) i = if blockno = bblock sb b ∧ i = b % bpb then v else bit (data blockno) i

theorem change_sets {op : UInt8 → UInt8} (changes : ∀ byte k, (op byte).toBitVec.getLsbD k =
    if k = b % bpb % 8 then v else byte.toBitVec.getLsbD k) :
    Sets sb b v data (change sb b op data) := by
  intro blockno i _
  have isIn : b % bpb / 8 < bSize :=
    Nat.div_lt_of_lt_mul (by rw [mul_comm]; exact Nat.mod_lt _ (by decide))
  rw [change]
  by_cases here : blockno = bblock sb b
  · rw [here, update_self, bit]
    by_cases near : i / 8 = b % bpb / 8
    · rw [near, Buffer.byte_patch _ _ _ _ isIn, if_pos (by simp), Nat.sub_self]
      change (op _).toBitVec.getLsbD (i % 8) = _
      rw [changes, bit, near]
      exact if_congr ⟨fun eq => ⟨rfl, by omega⟩, fun eq => by rw [eq.2]⟩ rfl rfl
    · rw [Buffer.byte_patch_of_outside _ _ _ _ (by rw [length_singleton]; omega), if_neg]
      · rfl
      · rintro ⟨_, rfl⟩
        exact near rfl
  · rw [update_of_ne here, if_neg fun both => here both.1]

theorem marks (bi k : Nat) (byte : UInt8) : (byte ||| mask bi).toBitVec.getLsbD k =
    if k = bi % 8 then true else byte.toBitVec.getLsbD k := by
  rw [UInt8.toBitVec_or, mask_eq, BitVec.getLsbD_or, BitVec.getLsbD_twoPow]
  by_cases here : k = bi % 8
  · simp [here, Nat.mod_lt]
  · simp [here, Ne.symm here]

theorem clears (bi k : Nat) (byte : UInt8) : (byte &&& ~~~mask bi).toBitVec.getLsbD k =
    if k = bi % 8 then false else byte.toBitVec.getLsbD k := by
  rw [UInt8.toBitVec_and, UInt8.toBitVec_not, mask_eq, BitVec.getLsbD_and, BitVec.getLsbD_not,
    BitVec.getLsbD_twoPow]
  by_cases here : k = bi % 8
  · simp [here, Nat.mod_lt]
  by_cases small : k < 8
  · simp [here, Ne.symm here, small]
  · simp [here, Ne.symm here, small, BitVec.getLsbD_of_ge _ _ (not_lt.mp small)]

/-- Setting the bit of a block sets no other block's. -/
theorem Sets.inUse_eq (small : sb.size < 2 ^ 31) (sets : Sets sb b v data data')
    (isIn : b < sb.size) {b' : Nat} (isIn' : b' < sb.size) :
    inUse sb data' b' = if b' = b then v else inUse sb data b' := by
  rw [inUse, sets _ _ (Nat.mod_lt _ (by decide))]
  refine if_congr ⟨fun same => ?_, fun same => by rw [same]; exact ⟨rfl, rfl⟩⟩ rfl rfl
  rw [bblock, bblock, bpb, bSize] at same
  omega

/-! ## One call -/

/-- The search over the bit map blocks is a search over the blocks. -/
theorem findFree_eq (small : sb.size < 2 ^ 31) {rounds : Nat}
    (enough : sb.size ≤ b + rounds * bpb) (aligned : b % bpb = 0) :
    findFree sb data rounds b = (range' b (sb.size - b)).find? (!inUse sb data ·) := by
  induction rounds generalizing b with
  | zero =>
    rw [Nat.sub_eq_zero_of_le (by omega)]
    rfl
  | succ rounds ih =>
    rw [findFree]
    split
    case isFalse outside =>
      rw [Nat.sub_eq_zero_of_le (not_lt.mp outside)]
      rfl
    case isTrue inside =>
      have split : range' b (sb.size - b) = (range (min bpb (sb.size - b))).map (b + ·) ++
            range' (b + bpb) (sb.size - (b + bpb)) := by
        rw [← range'_eq_map_range]
        rcases le_total bpb (sb.size - b) with more | less
        · have total : bpb + (sb.size - (b + bpb)) = sb.size - b := by omega
          rw [min_eq_left more, range'_append_1, total]
        · rw [min_eq_right less, Nat.sub_eq_zero_of_le (m := b + bpb) (by omega)]
          exact (append_nil _).symm
      have same : ∀ i ∈ range (min bpb (sb.size - b)),
          isFree (data (bblock sb b)) i = !inUse sb data (b + i) := by
        intro i isIn
        have below := mem_range.mp isIn
        have eq : (b + i) / bpb = b / bpb ∧ (b + i) % bpb = i := by
          rw [bpb, bSize] at *
          omega
        rw [isFree_eq, inUse, bblock, bblock, eq.1, eq.2]
      have next : (b + bpb) % 2 ^ 32 = b + bpb := by
        rw [bpb, bSize]
        omega
      rw [split, find?_append, find?_map, find?_congr same, next]
      change _ = (Option.map (b + ·) (find? (fun i => !inUse sb data (b + i)) _)).or _
      cases find? (fun i => !inUse sb data (b + i)) _ with
      | some bi => rfl
      | none =>
        rw [Nat.succ_mul] at enough
        rw [ih (by omega) (by rw [Nat.add_mod_right, aligned]), Option.map_none, Option.none_or]

/-- The blocks of the bit map are marked as in use. -/
def Marked (sb : Superblock) (data : Data) : Prop :=
  ∀ b < sb.size, bblock sb b < sb.size → inUse sb data (bblock sb b)

/-- `balloc` returns the first free block, marked and zeroed, or panics if there is none. -/
def Allocates (sb : Superblock) (data : Data) : Except BlockPanic (Nat × Data) → Prop
  | .error panic => panic = .balloc ∧ ∀ b < sb.size, inUse sb data b
  | .ok (b, data') => b < sb.size ∧ inUse sb data b = false ∧ (∀ b' < b, inUse sb data b') ∧
      data' b = .zero ∧ Sets sb b true (update data b .zero) data'

theorem Marked.bblock_ne (marked : Marked sb data) {b' : Nat} (isIn : b < sb.size)
    (free : inUse sb data b = false) (isIn' : b' < sb.size) : bblock sb b' ≠ b := by
  rintro rfl
  exact absurd (marked b' isIn' isIn) (by rw [free]; decide)

theorem balloc_spec (small : sb.size < 2 ^ 31) (marked : Marked sb data) :
    Allocates sb data (balloc sb data) := by
  have enough : sb.size ≤ 0 + (sb.size / bpb + 1) * bpb := by
    rw [bpb, bSize]
    omega
  rw [balloc, findFree_eq small enough (Nat.zero_mod _), Nat.sub_zero, ← range_eq_range']
  split
  case h_1 b found =>
    obtain ⟨free, isIn, before⟩ := find?_range_eq_some.mp found
    replace isIn := mem_range.mp isIn
    rw [Bool.not_eq_true'] at free
    have apart := marked.bblock_ne isIn free isIn
    refine ⟨isIn, free, fun b' below => by simpa using before b' below, update_self .., ?_⟩
    intro blockno i inside
    rw [bzero]
    by_cases this : blockno = b
    · rw [this, update_self, update_self, if_neg fun here => apart here.1.symm]
    · rw [update_of_ne this, update_of_ne this]
      exact change_sets (fun byte k => marks _ _ _) blockno i inside
  case h_2 none =>
    exact ⟨rfl, fun b isIn => by simpa using find?_range_eq_none.mp none b isIn⟩

theorem bfree_spec (isSet : inUse sb data b) :
    ∃ data', bfree sb b data = .ok data' ∧ Sets sb b false data data' := by
  refine ⟨_, if_neg ?_, change_sets fun byte k => clears _ _ _⟩
  rw [isFree_eq, show bit _ _ = true from isSet]
  decide

/-! ## Runs -/

/-- A call that took block `b` or gave it back. -/
structure Event where
  takes : Bool
  b : Nat

/-- The call does not panic; blocks of the bit map are not freed. -/
def Event.Does (sb : Superblock) (event : Event) (data data' : Data) : Prop :=
  if event.takes then balloc sb data = .ok (event.b, data')
  else event.b < sb.size ∧ inUse sb data event.b ∧ (∀ b < sb.size, bblock sb b ≠ event.b) ∧
    bfree sb event.b data = .ok data'

def Runs (sb : Superblock) (data : Data) : List Event → Data → Prop
  | [], last => last = data
  | event :: events, last => ∃ data', event.Does sb data data' ∧ Runs sb data' events last

/-- Whether block `b` is in use after the calls. -/
def after (b : Nat) (used : Bool) : List Event → Bool
  | [] => used
  | event :: events => after b (if b = event.b then event.takes else used) events

variable {event : Event} {events : List Event}

theorem Event.Does.spec (small : sb.size < 2 ^ 31) (did : event.Does sb data data')
    (marked : Marked sb data) : event.b < sb.size ∧ inUse sb data event.b = !event.takes ∧
      Marked sb data' ∧ ∀ b < sb.size,
        inUse sb data' b = if b = event.b then event.takes else inUse sb data b := by
  rw [Event.Does] at did
  cases takes : event.takes with
  | true =>
    rw [takes, if_pos rfl] at did
    have spec := balloc_spec small marked
    rw [did] at spec
    obtain ⟨isIn, free, _, _, sets⟩ := spec
    have used : ∀ b < sb.size,
        inUse sb data' b = if b = event.b then true else inUse sb data b := by
      intro b isIn'
      rw [sets.inUse_eq small isIn isIn', inUse, update_of_ne (marked.bblock_ne isIn free isIn')]
      rfl
    refine ⟨isIn, free, fun b isIn' isBit => ?_, used⟩
    rw [used _ isBit, marked b isIn' isBit, ite_self]
  | false =>
    rw [takes, if_neg (by decide)] at did
    obtain ⟨isIn, isSet, apart, did⟩ := did
    obtain ⟨_, same, sets⟩ := bfree_spec isSet
    cases did.symm.trans same
    refine ⟨isIn, isSet, fun b isIn' isBit => ?_, fun b => sets.inUse_eq small isIn⟩
    rw [sets.inUse_eq small isIn isBit, if_neg (apart b isIn')]
    exact marked b isIn' isBit

theorem Runs.spec (small : sb.size < 2 ^ 31) (runs : Runs sb data events last)
    (marked : Marked sb data) : Marked sb last ∧
    ∀ b < sb.size, inUse sb last b = after b (inUse sb data b) events := by
  induction events generalizing data with
  | nil =>
    cases runs
    exact ⟨marked, fun b _ => rfl⟩
  | cons event events ih =>
    obtain ⟨_, did, runs⟩ := runs
    obtain ⟨_, _, marked, used⟩ := did.spec small marked
    obtain ⟨marked, eq⟩ := ih runs marked
    exact ⟨marked, fun b isIn => by rw [eq b isIn, used b isIn, after]⟩

theorem Runs.append {later : List Event} (runs : Runs sb data (events ++ later) last) :
    ∃ mid, Runs sb data events mid ∧ Runs sb mid later last := by
  induction events generalizing data with
  | nil => exact ⟨data, rfl, runs⟩
  | cons event events ih =>
    obtain ⟨data', did, runs⟩ := runs
    obtain ⟨mid, first, second⟩ := ih runs
    exact ⟨mid, ⟨data', did, first⟩, second⟩

theorem after_true (kept : ⟨false, b⟩ ∉ events) : after b true events = true := by
  induction events with
  | nil => rfl
  | cons event events ih =>
    rw [List.mem_cons, not_or] at kept
    have stays : (if b = event.b then event.takes else true) = true := by
      split
      case isTrue same =>
        by_contra gives
        exact kept.1 (by rw [same, ← Bool.eq_false_iff.mpr gives])
      case isFalse => rfl
    rw [after, stays, ih kept.2]

/-- `balloc` takes the first free block and `bfree` gives one back; after any run the blocks in
use are those the calls make so, and no block is taken twice without being freed. -/
theorem bitmap_allocates (sb : Superblock) (small : sb.size < 2 ^ 31) (data : Data)
    (marked : Marked sb data) : Allocates sb data (balloc sb data) ∧
      (∀ b, inUse sb data b → ∃ data', bfree sb b data = .ok data' ∧ Sets sb b false data data') ∧
      ∀ events last, Runs sb data events last →
        (∀ b < sb.size, inUse sb last b = after b (inUse sb data b) events) ∧
        ∀ before b between rest, events = before ++ ⟨true, b⟩ :: (between ++ ⟨true, b⟩ :: rest) →
          ⟨false, b⟩ ∈ between := by
  refine ⟨balloc_spec small marked, fun b => bfree_spec, fun events last runs => ?_⟩
  refine ⟨(runs.spec small marked).2, ?_⟩
  rintro before b between rest rfl
  by_contra kept
  obtain ⟨_, early, _, took, later⟩ := runs.append
  obtain ⟨isIn, _, marked, used⟩ := took.spec small (early.spec small marked).1
  obtain ⟨_, middle, _, again, _⟩ := later.append
  obtain ⟨marked, eq⟩ := middle.spec small marked
  have free := (again.spec small marked).2.1
  rw [eq b isIn, used b isIn, if_pos rfl, after_true kept] at free
  cases free

theorem bitmap_allocates_of_two :
    Allocates ⟨2, 0, 0, 0, 0, 0, 0⟩ (fun _ pos => if pos.val = 0 then 1 else 0)
      (balloc ⟨2, 0, 0, 0, 0, 0, 0⟩ fun _ pos => if pos.val = 0 then 1 else 0) :=
  (bitmap_allocates _ (by decide) _ (by unfold Marked; decide)).1

end

end Xv6.Bitmap
