import Mathlib.Algebra.Group.Int.Defs
import Mathlib.Algebra.Group.Nat.Defs
import Mathlib.Logic.Function.Basic
import Xv6.Param

/-! # The size of a process

`growproc` with `uvmalloc` and `uvmdealloc`, over the user part of a page table: a map from
page numbers to the contents of pages. Sizes are below 2^32, so that only the sum of the
size and the increment, which has the type `uint`, wraps around. -/

namespace Xv6.Vm

open Function

def pgRoundUp (sz : Nat) : Nat := (sz + (pgSize - 1)) / pgSize * pgSize

abbrev Page := Nat → UInt8

abbrev Pages := Nat → Option Page

/-- `uvmunmap` from a page on, or nothing for a panic. -/
def uvmunmap (pages : Pages) (page : Nat) : (npages : Nat) → Option Pages
  | 0 => some pages
  | npages + 1 =>
    match pages page with
    | none => none
    | some _ => uvmunmap (update pages page none) (page + 1) npages

/-- The size returned, and the pages. -/
def uvmdealloc (pages : Pages) (oldsz newsz : Nat) : Option (Nat × Pages) :=
  if newsz ≥ oldsz then some (oldsz, pages)
  else if pgRoundUp newsz < pgRoundUp oldsz then
    (uvmunmap pages (pgRoundUp newsz / pgSize)
      ((pgRoundUp oldsz - pgRoundUp newsz) / pgSize)).map fun pages => (newsz, pages)
  else some (newsz, pages)

/-- The loop of `uvmalloc`, with a bound on the rounds left. `available` says whether there
is memory for the page at an address and for the page-table pages that lead to it;
`mappages` panics if the page is mapped. -/
def uvmallocFrom (available : Nat → Bool) (oldsz newsz : Nat) :
    (rounds a : Nat) → Pages → Option (Nat × Pages)
  | 0, _, pages => some (newsz, pages)
  | rounds + 1, a, pages =>
    if a < newsz then
      if available a then
        match pages (a / pgSize) with
        | some _ => none
        | none => uvmallocFrom available oldsz newsz rounds (a + pgSize)
            (update pages (a / pgSize) (some fun _ => 0))
      else (uvmdealloc pages a oldsz).map fun result => (0, result.2)
    else some (newsz, pages)

def uvmalloc (available : Nat → Bool) (pages : Pages) (oldsz newsz : Nat) :
    Option (Nat × Pages) :=
  if newsz < oldsz then some (oldsz, pages)
  else uvmallocFrom available (pgRoundUp oldsz) newsz newsz (pgRoundUp oldsz) pages

/-- A process. Its pages are different ones of the 128 MB that the allocator manages. -/
structure Memory where
  sz : Nat
  pages : Pages
  fits : sz < 2 ^ 32
  mapped : ∀ page, (pages page).isSome ↔ page < pgRoundUp sz / pgSize

/-- The value returned, `p->sz` and the pages. -/
def growproc (available : Nat → Bool) (p : Memory) (n : BitVec 32) : Option (Int × Nat × Pages) :=
  if 0 < n.toInt then
    match uvmalloc available p.pages p.sz ((p.sz + n.toNat) % 2 ^ 32) with
    | none => none
    | some (0, pages) => some (-1, p.sz, pages)
    | some (sz + 1, pages) => some (0, sz + 1, pages)
  else if n.toInt < 0 then
    (uvmdealloc p.pages p.sz ((p.sz + n.toNat) % 2 ^ 32)).map fun (sz, pages) => (0, sz, pages)
  else some (0, p.sz, p.pages)

/-- What `sbrk` promises: a failed call changes nothing, and another one changes the size by
`n`, maps exactly the pages below it, fills new ones with zeros and keeps old ones. -/
def Keeps (p : Memory) (n : BitVec 32) : Int × Nat × Pages → Prop
  | (returned, sz, pages) =>
    returned = -1 ∧ sz = p.sz ∧ pages = p.pages ∨
    returned = 0 ∧ (sz : Int) = p.sz + n.toInt ∧
      ∀ page, pages page =
        if page < pgRoundUp sz / pgSize then some ((p.pages page).getD fun _ => 0) else none

/-! ## Loops -/

/-- The pages with a range of them unmapped. -/
def without (pages : Pages) (first last : Nat) : Pages := fun page =>
  if first ≤ page ∧ page < last then none else pages page

/-- The pages with a range of them filled with zeros. -/
def zeroed (pages : Pages) (first last : Nat) : Pages := fun page =>
  if first ≤ page ∧ page < last then some fun _ => 0 else pages page

variable {pages : Pages}

theorem uvmunmap_eq {page npages : Nat} (mapped : ∀ i, page ≤ i → i < page + npages →
    (pages i).isSome) : uvmunmap pages page npages = some (without pages page (page + npages)) := by
  induction npages generalizing pages page with
  | zero =>
    have same : without pages page (page + 0) = pages := by
      funext i
      exact if_neg (by omega)
    rw [same, uvmunmap]
  | succ npages ih =>
    obtain ⟨content, first⟩ := Option.isSome_iff_exists.mp (mapped page (by omega) (by omega))
    rw [uvmunmap, first]
    dsimp only
    rw [ih]
    · congr 1
      funext i
      by_cases here : i = page
      · rw [here, without, without, update_self, if_neg (by omega), if_pos (by omega)]
      · rw [without, without, update_of_ne here]
        exact if_congr (by omega) rfl rfl
    · intro i above below
      rw [update_of_ne (by omega)]
      exact mapped i (by omega) (by omega)

theorem pgRoundUp_div (sz : Nat) : pgRoundUp sz / pgSize = (sz + 4095) / 4096 :=
  Nat.mul_div_cancel _ (by decide)

variable {newsz : Nat}

theorem uvmdealloc_eq {oldsz : Nat} (shrinks : newsz < oldsz)
    (mapped : ∀ page, (newsz + 4095) / 4096 ≤ page → page < (oldsz + 4095) / 4096 →
      (pages page).isSome) : uvmdealloc pages oldsz newsz =
      some (newsz, without pages ((newsz + 4095) / 4096) ((oldsz + 4095) / 4096)) := by
  rw [uvmdealloc, if_neg (by omega), pgRoundUp_div, pgRoundUp, pgRoundUp, pgSize]
  split
  · have count : ((oldsz + (4096 - 1)) / 4096 * 4096 - (newsz + (4096 - 1)) / 4096 * 4096) / 4096 =
      (oldsz + 4095) / 4096 - (newsz + 4095) / 4096 := by omega
    have sum : (newsz + 4095) / 4096 + ((oldsz + 4095) / 4096 - (newsz + 4095) / 4096) =
      (oldsz + 4095) / 4096 := by omega
    rw [count, uvmunmap_eq (by rw [sum]; exact mapped), sum]
    rfl
  · have same : without pages ((newsz + 4095) / 4096) ((oldsz + 4095) / 4096) = pages := by
      funext i
      exact if_neg (by omega)
    rw [same]

theorem uvmallocFrom_eq (avail : Nat → Bool) {base : Pages} {first rounds i : Nat}
    (unmapped : ∀ page, first ≤ page → base page = none) (began : first ≤ i)
    (enough : newsz ≤ pgSize * i + rounds) :
    uvmallocFrom avail (pgSize * first) newsz rounds (pgSize * i) (zeroed base first i) =
        some (newsz, zeroed base first (max i ((newsz + 4095) / 4096))) ∨
      uvmallocFrom avail (pgSize * first) newsz rounds (pgSize * i) (zeroed base first i) =
        some (0, base) := by
  have last : newsz ≤ 4096 * i → max i ((newsz + 4095) / 4096) = i := by omega
  induction rounds generalizing i with
  | zero => exact .inl (by rw [uvmallocFrom, last enough])
  | succ rounds ih =>
    rw [uvmallocFrom]
    split
    · next more =>
      have ix : pgSize * i / pgSize = i := Nat.mul_div_cancel_left i (by decide)
      have free : zeroed base first i i = none := (if_neg (by omega)).trans (unmapped i began)
      split
      · have next : update (zeroed base first i) i (some fun _ => 0) =
            zeroed base first (i + 1) := by
          funext page
          by_cases here : page = i
          · rw [here, update_self, zeroed, if_pos (by omega)]
          · rw [update_of_ne here, zeroed, zeroed]
            exact if_congr (by omega) rfl rfl
        have size : max (i + 1) ((newsz + 4095) / 4096) = max i ((newsz + 4095) / 4096) := by
          rw [pgSize] at more
          omega
        rw [ix, free, next, ← size]
        exact ih (Nat.le_succ_of_le began) (by rw [pgSize] at enough ⊢; omega) (by omega)
      · refine .inr ?_
        by_cases none : i = first
        · have same : zeroed base first i = base := by
            funext page
            exact if_neg (by omega)
          rw [uvmdealloc, if_pos (Nat.le_of_eq (by rw [none])), same]
          rfl
        · have undone : without (zeroed base first i) ((pgSize * first + 4095) / 4096)
              ((pgSize * i + 4095) / 4096) = base := by
            funext page
            rw [without, zeroed, pgSize]
            split
            · exact (unmapped page (by omega)).symm
            · exact if_neg (by omega)
          rw [uvmdealloc_eq (by rw [pgSize]; omega), undone]
          · rfl
          · intro page above below
            rw [zeroed, if_pos (by rw [pgSize] at above below; omega)]
            rfl
    · next done => exact .inl (by rw [last (by rw [pgSize] at done; omega)])

/-! ## `growproc` -/

theorem Memory.page_eq (p : Memory) (page : Nat) : p.pages page =
    if page < (p.sz + 4095) / 4096 then some ((p.pages page).getD fun _ => 0) else none := by
  have mapped := p.mapped page
  rw [pgRoundUp_div] at mapped
  cases content : p.pages page with
  | none => rw [if_neg (by simp [content] at mapped; omega)]
  | some content' => rw [if_pos (by simp [content] at mapped; exact mapped)]; rfl

theorem Memory.unmapped (p : Memory) {page : Nat} (above : (p.sz + 4095) / 4096 ≤ page) :
    p.pages page = none := by
  rw [p.page_eq, if_neg (by omega)]

theorem uvmalloc_eq (avail : Nat → Bool) (p : Memory) (grows : p.sz ≤ newsz) :
    uvmalloc avail p.pages p.sz newsz = some (newsz, zeroed p.pages ((p.sz + 4095) / 4096)
        (max ((p.sz + 4095) / 4096) ((newsz + 4095) / 4096))) ∨
      uvmalloc avail p.pages p.sz newsz = some (0, p.pages) := by
  have start : pgRoundUp p.sz = pgSize * ((p.sz + 4095) / 4096) := mul_comm _ _
  have none : zeroed p.pages ((p.sz + 4095) / 4096) ((p.sz + 4095) / 4096) = p.pages := by
    funext page
    exact if_neg (by omega)
  have loop := uvmallocFrom_eq avail (fun page => p.unmapped) (Nat.le_refl _)
    (Nat.le_add_left newsz (pgSize * ((p.sz + 4095) / 4096)))
  rw [none] at loop
  rwa [uvmalloc, if_neg (by omega), start]

variable {n : BitVec 32}

/-- A call that reports success and leaves the size as it is. -/
theorem not_keeps_same {p : Memory} (changes : n.toInt ≠ 0) : ¬Keeps p n (0, p.sz, pages) := by
  rintro (⟨failed, _⟩ | ⟨_, size, _⟩)
  · cases failed
  · omega

theorem growproc_grows (avail : Nat → Bool) (p : Memory) (grows : 0 < n.toInt) :
    ∃ result, growproc avail p n = some result ∧ (Keeps p n result ↔ p.sz + n.toInt < 2 ^ 32) := by
  have fits := p.fits
  have sign := n.toInt_eq_toNat_cond
  have small : 2 * n.toNat < 2 ^ 32 := by
    by_contra large
    rw [if_neg large] at sign
    omega
  rw [if_pos small] at sign
  rw [growproc, if_pos grows]
  by_cases wraps : 2 ^ 32 ≤ p.sz + n.toNat
  · have newsz : (p.sz + n.toNat) % 2 ^ 32 = p.sz + n.toNat - 2 ^ 32 := by omega
    obtain ⟨k, size⟩ : ∃ k, p.sz = k + 1 := ⟨p.sz - 1, by omega⟩
    rw [newsz, uvmalloc, if_pos (by omega)]
    refine ⟨(0, p.sz, p.pages), by rw [size], fun keeps => ?_, fun _ => by omega⟩
    exact absurd keeps (not_keeps_same (by omega))
  · rw [Nat.mod_eq_of_lt (by omega)]
    rcases uvmalloc_eq avail p (Nat.le_add_right p.sz n.toNat) with all | failed
    · obtain ⟨k, size⟩ : ∃ k, p.sz + n.toNat = k + 1 := ⟨p.sz + n.toNat - 1, by omega⟩
      rw [all, size]
      refine ⟨_, rfl, fun _ => by omega, fun _ => .inr ⟨rfl, by omega, fun page => ?_⟩⟩
      rw [pgRoundUp_div, zeroed]
      by_cases old : page < (p.sz + 4095) / 4096
      · rw [if_neg (by omega), if_pos (by omega), p.page_eq, if_pos old]
        rfl
      · rw [p.unmapped (by omega)]
        exact if_congr (by omega) rfl rfl
    · rw [failed]
      exact ⟨_, rfl, fun _ => by omega, fun _ => .inl ⟨rfl, rfl, rfl⟩⟩

theorem growproc_shrinks (avail : Nat → Bool) (p : Memory) (shrinks : n.toInt < 0) :
    ∃ result, growproc avail p n = some result ∧ (Keeps p n result ↔ 0 ≤ p.sz + n.toInt) := by
  have fits := p.fits
  have bound := n.isLt
  have sign := n.toInt_eq_toNat_cond
  have large : ¬2 * n.toNat < 2 ^ 32 := by
    intro small
    rw [if_pos small] at sign
    omega
  rw [if_neg large] at sign
  rw [growproc, if_neg (by omega), if_pos shrinks]
  by_cases inside : 2 ^ 32 ≤ p.sz + n.toNat
  · have newsz : (p.sz + n.toNat) % 2 ^ 32 = p.sz + n.toNat - 2 ^ 32 := by omega
    rw [newsz, uvmdealloc_eq (by omega)]
    · refine ⟨_, rfl, fun _ => by omega, fun _ => .inr ⟨rfl, by omega, fun page => ?_⟩⟩
      rw [pgRoundUp_div, without]
      by_cases kept : page < (p.sz + n.toNat - 2 ^ 32 + 4095) / 4096
      · rw [if_neg (by omega), if_pos kept, p.page_eq, if_pos (by omega)]
        rfl
      rw [if_neg kept]
      split
      · rfl
      · exact p.unmapped (by omega)
    · intro page _ below
      rw [p.page_eq, if_pos below]
      rfl
  · rw [Nat.mod_eq_of_lt (by omega), uvmdealloc, if_pos (by omega)]
    exact ⟨_, rfl, fun keeps => absurd keeps (not_keeps_same (by omega)), fun _ => by omega⟩

/-- `growproc` returns, and does what `sbrk` promises if and only if the new size is not
negative and fits in a `uint`. -/
theorem growproc_keeps_iff (available : Nat → Bool) (p : Memory) (n : BitVec 32) :
    ∃ result, growproc available p n = some result ∧
      (Keeps p n result ↔ 0 ≤ p.sz + n.toInt ∧ p.sz + n.toInt < 2 ^ 32) := by
  have fits := p.fits
  rcases Int.lt_trichotomy n.toInt 0 with shrinks | zero | grows
  · obtain ⟨result, returns, keeps⟩ := growproc_shrinks available p shrinks
    exact ⟨result, returns, by rw [keeps]; omega⟩
  · rw [growproc, if_neg (by omega), if_neg (by omega)]
    refine ⟨_, rfl, fun _ => by omega, fun _ => .inr ⟨rfl, by omega, fun page => ?_⟩⟩
    rw [pgRoundUp_div]
    exact p.page_eq page
  · obtain ⟨result, returns, keeps⟩ := growproc_grows available p grows
    exact ⟨result, returns, by rw [keeps]; omega⟩

/-- A process of one page. -/
def onePage : Memory where
  sz := 4096
  pages page := if page < 1 then some fun _ => 7 else none
  fits := by decide
  mapped page := by
    rw [pgRoundUp_div]
    by_cases first : page < 1 <;> simp [first]

/-- Taking two pages from a process that has one succeeds, and changes nothing. -/
theorem shrink_below_zero : ∃ pages,
    growproc (fun _ => true) onePage (-8192) = some (0, 4096, pages) ∧
      ¬Keeps onePage (-8192) (0, 4096, pages) := ⟨_, rfl, not_keeps_same (by decide)⟩

end Xv6.Vm
