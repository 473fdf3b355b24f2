import Xv6.Foundation.Splice
import Xv6.Vm.Growproc

/-! # User copies

`copyout`, `copyin` and `copyinstr` move the bytes of one page at a time. A page table is its
map of virtual pages below `MAXVA`, and kernel addresses are physical ones. -/

namespace Xv6.Vm

open Foundation Function

abbrev Mem := Nat → UInt8

def maxVa : Nat := 2 ^ 38

structure Pte where
  ppn : Nat
  user : Bool

/-- A page table that maps different user pages to different physical pages other than 0. -/
structure UserTable where
  entry : Nat → Option Pte
  nonzero : ∀ {i pte}, entry i = some pte → pte.user = true → pte.ppn ≠ 0
  injective : ∀ {i j pte pte'}, entry i = some pte → entry j = some pte' →
    pte.user = true → pte'.user = true → pte.ppn = pte'.ppn → i = j

def walkaddr (table : UserTable) (va : Nat) : Nat :=
  if va ≥ maxVa then 0
  else match table.entry (va / pgSize) with
    | none => 0
    | some pte => if pte.user then pte.ppn * pgSize else 0

def moveUp : (n d s : Nat) → Mem → Mem
  | 0, _, _, mem => mem
  | n + 1, d, s, mem => moveUp n (d + 1) (s + 1) (update mem d (mem s))

def moveDown : (n d s : Nat) → Mem → Mem
  | 0, _, _, mem => mem
  | n + 1, d, s, mem => moveDown n (d - 1) (s - 1) (update mem (d - 1) (mem (s - 1)))

def memmove (dst src n : Nat) (mem : Mem) : Mem :=
  if src < dst ∧ src + n > dst then moveDown n (dst + n) (src + n) mem
  else moveUp n dst src mem

section

variable {d s n : Nat} {mem : Mem}

/-- Going up is right unless the destination starts inside of the source. -/
theorem moveUp_eq (apart : d ≤ s ∨ s + n ≤ d) :
    moveUp n d s mem = overlay mem d n fun i => mem (s + i) := by
  induction n generalizing d s mem with
  | zero =>
    funext a
    exact (if_neg (by omega)).symm
  | succ n ih =>
    rw [moveUp, ih (by omega)]
    funext a
    by_cases first : a = d
    · rw [first, overlay, if_neg (by omega), update_self, overlay, if_pos (by omega), Nat.sub_self]
      rfl
    by_cases inside : d + 1 ≤ a ∧ a < d + 1 + n
    · have next : s + 1 + (a - (d + 1)) = s + (a - d) := by omega
      rw [overlay, if_pos inside, next, update_of_ne (by omega), overlay, if_pos (by omega)]
    · rw [overlay, if_neg inside, update_of_ne first, overlay, if_neg (by omega)]

/-- Going down is right unless the source starts inside of the destination. -/
theorem moveDown_eq (apart : s ≤ d ∨ d + n ≤ s) :
    moveDown n (d + n) (s + n) mem = overlay mem d n fun i => mem (s + i) := by
  induction n generalizing mem with
  | zero =>
    funext a
    exact (if_neg (by omega)).symm
  | succ n ih =>
    change moveDown n (d + n) (s + n) (update mem (d + n) (mem (s + n))) = _
    rw [ih (by omega)]
    funext a
    by_cases inside : d ≤ a ∧ a < d + n
    · rw [overlay, if_pos inside, update_of_ne (by omega), overlay, if_pos (by omega)]
    rw [overlay, if_neg inside]
    by_cases last : a = d + n
    · rw [last, update_self, overlay, if_pos (by omega), Nat.add_sub_cancel_left]
    · rw [update_of_ne last, overlay, if_neg (by omega)]

theorem memmove_eq : memmove d s n mem = overlay mem d n fun i => mem (s + i) := by
  rw [memmove]
  split
  · exact moveDown_eq (by omega)
  · exact moveUp_eq (by omega)

end

def pgRoundDown (a : Nat) : Nat := a / pgSize * pgSize

/-- The loop of `copyout` and `copyin`, with a bound on the rounds left. `move` moves `n` bytes
between a physical address and an address `k` of the kernel. -/
def copyLoop (table : UserTable) (move : (pa k n : Nat) → Mem → Mem) :
    (rounds len va k : Nat) → Mem → Int × Mem
  | 0, _, _, _, mem => (0, mem)
  | rounds + 1, len, va, k, mem =>
    if len > 0 then
      let va0 := pgRoundDown va
      let pa0 := walkaddr table va0
      if pa0 = 0 then (-1, mem)
      else
        let n := min (pgSize - (va - va0)) len
        copyLoop table move rounds (len - n) ((va0 + pgSize) % 2 ^ 64) (k + n)
          (move (pa0 + (va - va0)) k n mem)
    else (0, mem)

def copyout (table : UserTable) (dstva : UInt64) (src : Nat) (len : UInt64) : Mem → Int × Mem :=
  copyLoop table (fun pa k n => memmove pa k n) len.toNat len.toNat dstva.toNat src

def copyin (table : UserTable) (dst : Nat) (srcva len : UInt64) : Mem → Int × Mem :=
  copyLoop table (fun pa k n => memmove k pa n) len.toNat len.toNat srcva.toNat dst

/-- The inner loop of `copyinstr`: `got_null`, `max`, `dst` and the memory. -/
def copyinstrPage : (n p max dst : Nat) → Mem → Bool × Nat × Nat × Mem
  | 0, _, max, dst, mem => (false, max, dst, mem)
  | n + 1, p, max, dst, mem =>
    if mem p = 0 then (true, max, dst, update mem dst 0)
    else copyinstrPage n (p + 1) (max - 1) (dst + 1) (update mem dst (mem p))

def copyinstrLoop (table : UserTable) :
    (rounds : Nat) → (gotNull : Bool) → (max srcva dst : Nat) → Mem → Int × Mem
  | 0, gotNull, _, _, _, mem => (if gotNull then 0 else -1, mem)
  | rounds + 1, gotNull, max, srcva, dst, mem =>
    if gotNull = false ∧ max > 0 then
      let va0 := pgRoundDown srcva
      let pa0 := walkaddr table va0
      if pa0 = 0 then (-1, mem)
      else
        let n := min (pgSize - (srcva - va0)) max
        match copyinstrPage n (pa0 + (srcva - va0)) max dst mem with
        | (gotNull, max, dst, mem) =>
          copyinstrLoop table rounds gotNull max ((va0 + pgSize) % 2 ^ 64) dst mem
    else (if gotNull then 0 else -1, mem)

def copyinstr (table : UserTable) (dst : Nat) (srcva max : UInt64) : Mem → Int × Mem :=
  copyinstrLoop table max.toNat false max.toNat srcva.toNat dst

/-! ## Copies of one byte at a time -/

/-- The physical address of a byte that is mapped for the user. -/
def translate (table : UserTable) (va : Nat) : Option Nat :=
  if walkaddr table (pgRoundDown va) = 0 then none
  else some (walkaddr table (pgRoundDown va) + (va - pgRoundDown va))

def copyBytes (table : UserTable) (move : (pa k : Nat) → Mem → Mem) :
    (len va k : Nat) → Mem → Int × Mem
  | 0, _, _, mem => (0, mem)
  | len + 1, va, k, mem =>
    match translate table va with
    | none => (-1, mem)
    | some pa => copyBytes table move len ((va + 1) % 2 ^ 64) (k + 1) (move pa k mem)

def toUser (pa k : Nat) (mem : Mem) : Mem := update mem pa (mem k)

def toKernel (pa k : Nat) (mem : Mem) : Mem := update mem k (mem pa)

def copyinstrBytes (table : UserTable) : (max srcva dst : Nat) → Mem → Int × Mem
  | 0, _, _, mem => (-1, mem)
  | max + 1, srcva, dst, mem =>
    match translate table srcva with
    | none => (-1, mem)
    | some pa =>
      if mem pa = 0 then (0, update mem dst 0)
      else copyinstrBytes table max ((srcva + 1) % 2 ^ 64) (dst + 1) (update mem dst (mem pa))

/-- A buffer of the kernel that shares no byte with the pages of the user. -/
def Apart (table : UserTable) (k len : Nat) : Prop :=
  ∀ va pa, translate table va = some pa → ¬(k ≤ pa ∧ pa < k + len)

/-! ## One page -/

section

variable {table : UserTable} {va pa k len n : Nat} {mem : Mem}

theorem walkaddr_ne_zero (mapped : walkaddr table va ≠ 0) : va < maxVa ∧ ∃ pte, table.entry
    (va / pgSize) = some pte ∧ pte.user = true ∧ walkaddr table va = pte.ppn * pgSize := by
  rw [walkaddr] at mapped ⊢
  split at mapped
  · exact absurd rfl mapped
  next below =>
  rw [if_neg below]
  refine ⟨Nat.lt_of_not_le below, ?_⟩
  split at mapped
  · exact absurd rfl mapped
  next pte found =>
  split at mapped
  · next user => exact ⟨pte, found, user, if_pos user⟩
  · exact absurd rfl mapped

section

variable (found : translate table va = some pa)
include found

theorem translate_eq_some : walkaddr table (pgRoundDown va) ≠ 0 ∧
    pa = walkaddr table (pgRoundDown va) + (va - pgRoundDown va) ∧ va < maxVa := by
  rw [translate] at found
  split at found
  · cases found
  next mapped =>
  have below := (walkaddr_ne_zero mapped).1
  rw [pgRoundDown, pgSize, maxVa] at below
  exact ⟨mapped, (Option.some.inj found).symm, by rw [maxVa]; omega⟩

theorem translate_add
    (inside : va - pgRoundDown va + n < pgSize) : translate table (va + n) = some (pa + n) := by
  obtain ⟨mapped, rfl, _⟩ := translate_eq_some found
  have page : pgRoundDown (va + n) = pgRoundDown va := by
    rw [pgRoundDown, pgSize] at inside
    rw [pgRoundDown, pgRoundDown, pgSize]
    omega
  have offset : va + n - pgRoundDown va = va - pgRoundDown va + n := by
    rw [pgRoundDown, pgSize]
    omega
  rw [translate, page, if_neg mapped, offset, add_assoc]

theorem translate_injective {va' : Nat} (hit' : translate table va' = some pa) : va = va' := by
  obtain ⟨mapped, eq, _⟩ := translate_eq_some found
  obtain ⟨mapped', eq', _⟩ := translate_eq_some hit'
  obtain ⟨_, pte, entry, user, addr⟩ := walkaddr_ne_zero mapped
  obtain ⟨_, pte', entry', user', addr'⟩ := walkaddr_ne_zero mapped'
  rw [addr, pgRoundDown, pgSize] at eq
  rw [addr', pgRoundDown, pgSize] at eq'
  have page := table.injective entry entry' user user' (by omega)
  rw [pgRoundDown, pgRoundDown, pgSize] at page
  omega

/-- The bytes from an address to the end of its page. -/
theorem translate_page :
    ∀ j < pgSize - (va - pgRoundDown va), translate table (va + j) = some (pa + j) :=
  fun _ below => translate_add found (by omega)

end

theorem Apart.tail {m : Nat} (apart : Apart table k len) (inside : n + m ≤ len) :
    Apart table (k + n) m := fun va pa found here => apart va pa found (by omega)

theorem offset_lt (va : Nat) : va - pgRoundDown va < pgSize := by
  rw [pgRoundDown, pgSize]
  omega

theorem page_end (va : Nat) : va + (pgSize - (va - pgRoundDown va)) = pgRoundDown va + pgSize := by
  rw [pgRoundDown, pgSize]
  omega

/-- The addresses after the next one. -/
theorem shift (va i : Nat) : ((va + 1) % 2 ^ 64 + i) % 2 ^ 64 = (va + (i + 1)) % 2 ^ 64 := by
  rw [Nat.mod_add_mod, Nat.add_right_comm, Nat.add_assoc]

theorem next_mod (found : translate table va = some pa) : (va + 1) % 2 ^ 64 = va + 1 := by
  have below := (translate_eq_some found).2.2
  rw [maxVa] at below
  omega

/-! ## Pages and bytes -/

/-- The moves of some bytes after each other. -/
def moves (move : (pa k : Nat) → Mem → Mem) : (n pa k : Nat) → Mem → Mem
  | 0, _, _, mem => mem
  | n + 1, pa, k, mem => moves move n (pa + 1) (k + 1) (move pa k mem)

theorem moves_toUser : moves toUser n pa k mem = moveUp n pa k mem := by
  induction n generalizing pa k mem with
  | zero => rfl
  | succ n ih => exact ih

theorem moves_toKernel : moves toKernel n pa k mem = moveUp n k pa mem := by
  induction n generalizing pa k mem with
  | zero => rfl
  | succ n ih => exact ih

theorem copyBytes_add {move : (pa k : Nat) → Mem → Mem}
    (page : ∀ j < n, translate table (va + j) = some (pa + j)) (small : va < 2 ^ 64) :
    copyBytes table move (n + len) va k mem =
    copyBytes table move len ((va + n) % 2 ^ 64) (k + n) (moves move n pa k mem) := by
  induction n generalizing va pa k mem with
  | zero => rw [zero_add, add_zero, Nat.mod_eq_of_lt small]; rfl
  | succ n ih =>
    have first : translate table va = some pa := page 0 (Nat.succ_pos n)
    have next := next_mod first
    rw [Nat.add_right_comm, copyBytes, first]
    dsimp only
    rw [next, ih _ (by omega), Nat.add_right_comm va, Nat.add_right_comm k]
    · rfl
    · intro j below
      rw [Nat.add_right_comm va, Nat.add_right_comm pa]
      exact page (j + 1) (by omega)

/-- The loop over pages does what the copy of single bytes does, if a move within a page is
the moves of its bytes. -/
theorem copyLoop_eq {move : (pa k n : Nat) → Mem → Mem} {one : (pa k : Nat) → Mem → Mem}
    (chunk : ∀ {va pa k len n mem}, Apart table k len → translate table va = some pa →
    0 < n → n ≤ len → n ≤ pgSize - (va - pgRoundDown va) → move pa k n mem = moves one n pa k mem)
    {rounds : Nat} (enough : len ≤ rounds) (small : va < 2 ^ 64) (apart : Apart table k len) :
    copyLoop table move rounds len va k mem = copyBytes table one len va k mem := by
  induction rounds generalizing len va k mem with
  | zero =>
    obtain rfl : len = 0 := by omega
    rfl
  | succ rounds ih =>
    rw [copyLoop]
    split
    · next more =>
      dsimp only
      obtain ⟨m, rfl⟩ : ∃ m, len = m + 1 := ⟨len - 1, by omega⟩
      split
      · next unmapped =>
        rw [copyBytes, translate, if_pos unmapped]
      next mapped =>
      have found : translate table va = some _ := if_neg mapped
      have page := translate_page found
      have low := offset_lt va
      rw [chunk apart found (by omega) (Nat.min_le_right _ _) (Nat.min_le_left _ _)]
      by_cases whole : pgSize - (va - pgRoundDown va) ≤ m + 1
      · rw [Nat.min_eq_left whole, ih (by omega) (Nat.mod_lt _ (by decide))
          (apart.tail (by omega)), ← page_end, ← copyBytes_add page small,
          Nat.add_sub_cancel' whole]
      rw [Nat.min_eq_right (by omega), ih (by omega) (Nat.mod_lt _ (by decide))
        (apart.tail (by omega)), Nat.sub_self]
      have all : copyBytes table one (m + 1 + 0) va k mem = _ :=
        copyBytes_add (fun j below => page j (by omega)) small
      rw [add_zero] at all
      rw [all, copyBytes, copyBytes]
    · next none =>
      obtain rfl : len = 0 := by omega
      rfl

theorem copyout_eq {dstva len : UInt64} (apart : Apart table k len.toNat) :
    copyout table dstva k len mem = copyBytes table toUser len.toNat dstva.toNat k mem := by
  refine copyLoop_eq ?_ (Nat.le_refl _) dstva.toNat_lt apart
  intro va pa k len n mem apart found _ inside _
  rw [moves_toUser]
  exact if_neg fun overlap => apart va pa found (by omega)

theorem copyin_eq {srcva len : UInt64} (apart : Apart table k len.toNat) :
    copyin table k srcva len mem = copyBytes table toKernel len.toNat srcva.toNat k mem := by
  refine copyLoop_eq ?_ (Nat.le_refl _) srcva.toNat_lt apart
  intro va pa k len n mem apart found _ inside page
  rw [moves_toKernel]
  refine if_neg fun overlap => apart _ _ (translate_page found (k - pa) (by omega)) (by omega)

theorem copyinstrPage_cases (n max dst : Nat) (mem : Mem)
    (page : ∀ j < n, translate table (va + j) = some (pa + j)) (small : va < 2 ^ 64) :
    (∃ max' dst' mem', copyinstrPage n pa (n + max) dst mem = (true, max', dst', mem') ∧
      copyinstrBytes table (n + max) va dst mem = (0, mem')) ∨
    ∃ mem', copyinstrPage n pa (n + max) dst mem = (false, max, dst + n, mem') ∧
      copyinstrBytes table (n + max) va dst mem =
        copyinstrBytes table max ((va + n) % 2 ^ 64) (dst + n) mem' := by
  induction n generalizing va pa dst mem with
  | zero =>
    refine .inr ⟨mem, ?_, ?_⟩
    · rw [copyinstrPage, zero_add]
      rfl
    · rw [zero_add, add_zero, Nat.mod_eq_of_lt small]
      rfl
  | succ n ih =>
    have first : translate table va = some pa := page 0 (Nat.succ_pos n)
    have next := next_mod first
    rw [Nat.add_right_comm n, copyinstrPage, copyinstrBytes, first]
    dsimp only
    split
    · exact .inl ⟨_, _, _, rfl, rfl⟩
    rw [next, Nat.add_sub_cancel, ← Nat.add_assoc va, ← Nat.add_assoc dst,
      Nat.add_right_comm va, Nat.add_right_comm dst]
    refine ih _ _ (fun j below => ?_) (by omega)
    rw [Nat.add_right_comm va, Nat.add_right_comm pa]
    exact page (j + 1) (by omega)

theorem copyinstrLoop_eq {max dst rounds : Nat} (enough : max ≤ rounds) (small : va < 2 ^ 64) :
    copyinstrLoop table rounds false max va dst mem = copyinstrBytes table max va dst mem := by
  induction rounds generalizing max va dst mem with
  | zero =>
    obtain rfl : max = 0 := by omega
    rfl
  | succ rounds ih =>
    rw [copyinstrLoop]
    split
    · next more =>
      obtain ⟨m, rfl⟩ : ∃ m, max = m + 1 := ⟨max - 1, by omega⟩
      dsimp only
      split
      · next unmapped => rw [copyinstrBytes, translate, if_pos unmapped]
      next mapped =>
      have found : translate table va = some _ := if_neg mapped
      have page := translate_page found
      have low := offset_lt va
      have sum : min (pgSize - (va - pgRoundDown va)) (m + 1) +
        (m + 1 - min (pgSize - (va - pgRoundDown va)) (m + 1)) = m + 1 := by omega
      have cases := copyinstrPage_cases (min (pgSize - (va - pgRoundDown va)) (m + 1))
        (m + 1 - min (pgSize - (va - pgRoundDown va)) (m + 1)) dst mem
        (fun j below => page j (by omega)) small
      rw [sum] at cases
      rcases cases with ⟨_, _, _, ran, bytes⟩ | ⟨mem', ran, bytes⟩
      · rw [ran, bytes]
        cases rounds <;> rfl
      rw [ran, bytes]
      dsimp only
      rw [ih (by omega) (Nat.mod_lt _ (by decide))]
      by_cases whole : pgSize - (va - pgRoundDown va) ≤ m + 1
      · rw [Nat.min_eq_left whole, page_end]
      · rw [Nat.min_eq_right (by omega), Nat.sub_self, copyinstrBytes, copyinstrBytes]
    · next none =>
      obtain rfl : max = 0 := by simpa using none
      rfl

/-! ## What the copies do -/

theorem copyBytes_frame {move : (pa k : Nat) → Mem → Mem} {a : Nat} (frame : ∀ i < len,
    ∀ pa mem, translate table ((va + i) % 2 ^ 64) = some pa → move pa (k + i) mem a = mem a)
    (small : va < 2 ^ 64) : (copyBytes table move len va k mem).2 a = mem a := by
  induction len generalizing va k mem with
  | zero => rfl
  | succ len ih =>
    rw [copyBytes]
    split
    · rfl
    next pa found =>
    refine (ih (fun i below pa mem next => ?_) (Nat.mod_lt _ (by decide))).trans ?_
    · rw [shift] at next
      rw [Nat.add_right_comm, Nat.add_assoc]
      exact frame (i + 1) (by omega) pa mem next
    · exact frame 0 (by omega) pa mem (by rwa [add_zero, Nat.mod_eq_of_lt small])

theorem copyBytes_toUser (small : va < 2 ^ 64) (bound : len < 2 ^ 64) (apart : Apart table k len)
    (done : (copyBytes table toUser len va k mem).1 = 0) : ∀ i < len, ∃ pa, translate table
    ((va + i) % 2 ^ 64) = some pa ∧ (copyBytes table toUser len va k mem).2 pa = mem (k + i) := by
  induction len generalizing va k mem with
  | zero => exact fun i below => absurd below (Nat.not_lt_zero i)
  | succ len ih =>
    rw [copyBytes] at done ⊢
    split at done
    · cases done
    next pa found =>
    have next := next_mod found
    rw [next] at done ⊢
    intro i below
    cases i with
    | zero =>
      refine ⟨pa, by rwa [add_zero, Nat.mod_eq_of_lt small], ?_⟩
      refine (copyBytes_frame ?_ (by omega)).trans (update_self ..)
      intro i below pa' mem hit'
      refine update_of_ne (fun same => ?_) _ _
      subst same
      have same := translate_injective found hit'
      omega
    | succ i =>
      obtain ⟨pa', hit', content⟩ := ih (by omega) (by omega) (apart.tail (by omega)) done i
        (by omega)
      rw [Nat.add_right_comm, Nat.add_assoc] at hit'
      refine ⟨pa', hit', content.trans ?_⟩
      rw [Nat.add_right_comm, Nat.add_assoc]
      exact update_of_ne (fun same => apart va pa found (by omega)) _ _

theorem copyBytes_toKernel {content : Nat → UInt8} (small : va < 2 ^ 64) (apart : Apart table k len)
    (mapped : ∀ i < len, ∃ pa, translate table ((va + i) % 2 ^ 64) = some pa ∧ mem pa = content i) :
    (copyBytes table toKernel len va k mem).1 = 0 ∧
    ∀ i < len, (copyBytes table toKernel len va k mem).2 (k + i) = content i := by
  induction len generalizing va k mem content with
  | zero => exact ⟨rfl, fun i below => absurd below (Nat.not_lt_zero i)⟩
  | succ len ih =>
    obtain ⟨pa, found, first⟩ := mapped 0 (Nat.succ_pos len)
    rw [add_zero, Nat.mod_eq_of_lt small] at found
    rw [copyBytes, found]
    dsimp only
    have later : ∀ i < len, ∃ pa', translate table (((va + 1) % 2 ^ 64 + i) % 2 ^ 64) = some pa' ∧
        toKernel pa k mem pa' = content (i + 1) := by
      intro i below
      obtain ⟨pa', hit', same⟩ := mapped (i + 1) (by omega)
      refine ⟨pa', ?_, ?_⟩
      · rwa [shift]
      · rw [← same]
        exact update_of_ne (fun same => apart _ _ hit' (by omega)) _ _
    have rest := ih (k := k + 1) (Nat.mod_lt _ (by decide)) (apart.tail (by omega)) later
    refine ⟨rest.1, fun i below => ?_⟩
    cases i with
    | zero =>
      refine (copyBytes_frame ?_ (Nat.mod_lt _ (by decide))).trans ((update_self ..).trans first)
      exact fun i below pa mem _ => update_of_ne (by omega) _ _
    | succ i => rw [← rest.2 i (by omega), Nat.add_right_comm, Nat.add_assoc]

theorem copyinstrBytes_frame {max dst a : Nat} (outside : ¬(dst ≤ a ∧ a < dst + max)) :
    (copyinstrBytes table max va dst mem).2 a = mem a := by
  induction max generalizing va dst mem with
  | zero => rfl
  | succ max ih =>
    rw [copyinstrBytes]
    split
    · rfl
    split
    · exact update_of_ne (by omega) _ _
    · exact (ih (by omega)).trans (update_of_ne (by omega) _ _)

theorem copyinstrBytes_eq_zero_iff {max dst : Nat} (small : va < 2 ^ 64)
    (apart : Apart table dst max) : (copyinstrBytes table max va dst mem).1 = 0 ↔
      ∃ i < max, (translate table ((va + i) % 2 ^ 64)).map mem = some 0 ∧
        ∀ j < i, (translate table ((va + j) % 2 ^ 64)).isSome := by
  induction max generalizing va dst mem with
  | zero => simp [copyinstrBytes]
  | succ max ih =>
    have start : (va + 0) % 2 ^ 64 = va := Nat.mod_eq_of_lt small
    rw [copyinstrBytes]
    split
    · next unmapped =>
      constructor
      · rintro ⟨⟩
      rintro ⟨i, below, null, mapped⟩
      cases i with
      | zero => rw [start, unmapped] at null; cases null
      | succ i =>
        have first := mapped 0 (Nat.succ_pos i)
        rw [start, unmapped] at first
        cases first
    · next pa found =>
      split
      · next null =>
        refine ⟨fun _ => ⟨0, by omega, ?_, fun j below => absurd below (Nat.not_lt_zero j)⟩,
          fun _ => rfl⟩
        rw [start, found, Option.map_some, null]
      · next other =>
        have kept : ∀ va, (translate table va).map (update mem dst (mem pa)) =
            (translate table va).map mem := by
          intro va
          cases found : translate table va with
          | none => rfl
          | some pa =>
            exact congrArg some (update_of_ne (fun same => apart va pa found (by omega)) _ _)
        rw [ih (Nat.mod_lt _ (by decide)) (apart.tail (by omega))]
        constructor
        · rintro ⟨i, below, null, mapped⟩
          rw [shift, kept] at null
          refine ⟨i + 1, by omega, null, fun j pre => ?_⟩
          cases j with
          | zero => rw [start, found]; rfl
          | succ j => rw [← shift]; exact mapped j (by omega)
        · rintro ⟨i, below, null, mapped⟩
          cases i with
          | zero =>
            rw [start, found] at null
            exact absurd (Option.some.inj null) other
          | succ i =>
            refine ⟨i, by omega, by rwa [shift, kept], fun j pre => ?_⟩
            rw [shift]
            exact mapped (j + 1) (by omega)

end

/-- The copies of pages are copies of bytes: `copyinstr` returns 0 if and only if a NUL comes
among the first bytes, before one that is not mapped, and writes into its buffer only;
`copyin` returns what `copyout` wrote; and `copyout` writes to its target only. -/
theorem user_copies (table : UserTable) (va len : UInt64) (k : Nat) (mem : Mem)
    (apart : Apart table k len.toNat) :
    copyout table va k len mem = copyBytes table toUser len.toNat va.toNat k mem ∧
    copyin table k va len mem = copyBytes table toKernel len.toNat va.toNat k mem ∧
    copyinstr table k va len mem = copyinstrBytes table len.toNat va.toNat k mem ∧
    ((copyinstr table k va len mem).1 = 0 ↔
      ∃ i < len.toNat, (translate table ((va.toNat + i) % 2 ^ 64)).map mem = some 0 ∧
        ∀ j < i, (translate table ((va.toNat + j) % 2 ^ 64)).isSome) ∧
    (∀ a, ¬(k ≤ a ∧ a < k + len.toNat) → (copyinstr table k va len mem).2 a = mem a) ∧
    (∀ dst, Apart table dst len.toNat → (copyout table va k len mem).1 = 0 →
      (copyin table dst va len (copyout table va k len mem).2).1 = 0 ∧ ∀ i < len.toNat,
        (copyin table dst va len (copyout table va k len mem).2).2 (dst + i) = mem (k + i)) ∧
    ∀ a, (∀ i < len.toNat, translate table ((va.toNat + i) % 2 ^ 64) ≠ some a) →
      (copyout table va k len mem).2 a = mem a := by
  have small := va.toNat_lt
  have instr : copyinstr table k va len mem = copyinstrBytes table len.toNat va.toNat k mem :=
    copyinstrLoop_eq (Nat.le_refl _) small
  rw [instr, copyout_eq apart]
  refine ⟨rfl, copyin_eq apart, rfl, copyinstrBytes_eq_zero_iff small apart,
    fun a => copyinstrBytes_frame, ?_, ?_⟩
  · intro dst apart' done
    rw [copyin_eq apart']
    exact copyBytes_toKernel small apart' (copyBytes_toUser small len.toNat_lt apart done)
  intro a outside
  refine copyBytes_frame (fun i below pa mem found => ?_) small
  refine update_of_ne (fun same => ?_) _ _
  exact outside i below (same ▸ found)

/-- The first page of a process, in the second physical page. -/
def firstPage : UserTable where
  entry i := if i = 0 then some ⟨1, true⟩ else none
  nonzero {i pte} found _ := by
    split at found
    · cases found
      decide
    · cases found
  injective {i j _ _} found found' _ _ _ := by
    split at found <;> split at found'
    · omega
    · cases found'
    · cases found
    · cases found

/-- The first physical page is apart from the pages of the user. -/
theorem apart_zero (table : UserTable) : Apart table 0 pgSize := by
  intro va pa found inside
  obtain ⟨mapped, rfl, _⟩ := translate_eq_some found
  obtain ⟨_, pte, entry, user, addr⟩ := walkaddr_ne_zero mapped
  have nonzero := table.nonzero entry user
  rw [addr, pgSize] at inside
  omega

theorem user_copies_firstPage : Apart firstPage 0 (8 : UInt64).toNat ∧
    copyin firstPage 0 4090 8 (fun a => a.toUInt8) =
      copyBytes firstPage toKernel 8 4090 0 fun a => a.toUInt8 := by
  have apart : Apart firstPage 0 (8 : UInt64).toNat := fun va pa found inside =>
    apart_zero firstPage va pa found ⟨inside.1, Nat.lt_of_lt_of_le inside.2 (by decide)⟩
  exact ⟨apart, (user_copies firstPage 4090 8 0 _ apart).2.1⟩

end Xv6.Vm
