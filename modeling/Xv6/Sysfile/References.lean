import Xv6.Sysfile.Resources

/-! # Taking and giving up references and locks

The steps of the inode cache that leave the inodes on disk alone: `iget`,
`idup`, `ilock`, `iunlock`, and `iput` when it does not free the inode. -/

namespace Xv6

open Foundation Function FsResource FsState Ledger.Executes
open Multiset (mem_add mem_singleton mem_singleton_self)

variable {Pid : Type} {ninodes : Nat} {counting : Prop} {s after : FsState Pid}
  {frame needed later : FsHeld Pid}

/-! ## Resources and inodes -/

theorem amount_add_measure (left right : FsResource Pid → Nat)
    (held : FsHeld Pid) (inum : Inum) : amount (fun res =>
    left res + right res) held inum = amount left held inum + amount right held inum := by
  induction held using Multiset.induction_on with
  | empty => rfl
  | cons res rest ih =>
    rw [← Multiset.singleton_add]
    simp only [amount_add, amount_singleton, ih]
    split <;> omega

section

variable (held : FsHeld Pid)
include held

section

variable (inum : Inum)
include inum

theorem owners_le :
    amount owners held inum ≤ amount references held inum + amount fresh held inum := by
  rw [← amount_add_measure]
  apply amount_le_amount
  intro res
  cases res <;> simp

theorem references_le :
    amount references held inum ≤ amount owners held inum + amount drops held inum := by
  rw [← amount_add_measure]
  apply amount_le_amount
  intro res
  cases res <;> simp

theorem unformed_le_owners : amount unformed held inum ≤ amount owners held inum := by
  apply amount_le_amount
  intro res
  cases res with
  | locked p i d hold => cases hold <;> simp
  | _ => simp

theorem fresh_le_unformed : amount fresh held inum ≤ amount unformed held inum := by
  apply amount_le_amount
  intro res
  cases res <;> simp

theorem locks_le_references : amount locks held inum ≤ amount references held inum := by
  apply amount_le_amount
  intro res
  cases res <;> simp

theorem nameless_le_locks : amount nameless held inum ≤ amount locks held inum := by
  apply amount_le_amount
  intro res
  cases res with
  | locked p i d hold => cases hold <;> simp
  | _ => simp

theorem locks_le_owners : amount locks held inum ≤ amount owners held inum := by
  apply amount_le_amount
  intro res
  cases res <;> simp

end

end

namespace Books

section

variable (books : Books s (frame + needed))
include books

theorem mem_frame {res : FsResource Pid} (mem : res ∈ frame) : res.Fits s :=
  books.fits res (mem_add.mpr (.inl mem))

theorem mem_needed {res : FsResource Pid} (mem : res ∈ needed) : res.Fits s :=
  books.fits res (mem_add.mpr (.inr mem))

theorem locked_ne {i j : Inum} {p : Pid} {d : Dinode} {hold : Hold}
    (here : 0 < amount locks needed i) (mem : .locked p j d hold ∈ frame) : j ≠ i := by
  rintro rfl
  have o : 1 ≤ amount locks frame j := le_amount locks mem
  have bound := books.once j
  rw [amount_add] at bound
  omega

theorem unformed_eq {i : Inum} (here : 0 < amount owners needed i) :
    amount unformed frame i = 0 := by
  by_contra pos
  have bound := books.alone i (by rw [amount_add]; omega)
  have owner := unformed_le_owners frame i
  rw [amount_add] at bound
  omega

theorem fresh_ne {i : Inum} {res : FsResource Pid} (here : 0 < amount owners needed i)
    (mem : res ∈ frame) (fresh : 0 < res.fresh) : res.inum ≠ i := by
  rintro rfl
  have none := books.unformed_eq here
  have freshHere := le_amount FsResource.fresh mem
  have bound := fresh_le_unformed frame res.inum
  omega

end

end Books

/-! ## Exchanging resources over the same disk -/

/-- Two collections of resources leave the same things unfinished. -/
structure SameDebts (needed later : Multiset (FsResource Pid)) : Prop where
  pending : ∀ i, amount FsResource.pending later i = amount FsResource.pending needed i
  nameless : ∀ i, amount FsResource.nameless later i = amount FsResource.nameless needed i
  unformed : ∀ i, amount FsResource.unformed later i = amount FsResource.unformed needed i
  expects : ∀ i, amount FsResource.expects later i = amount FsResource.expects needed i
  misses : ∀ child i, amount (FsResource.misses child) later i =
    amount (FsResource.misses child) needed i

theorem SameDebts.debts_eq (same : SameDebts needed later) (leaked : Inum → Nat) :
    debts (frame + later) leaked = debts (frame + needed) leaked := by
  have pending : amount FsResource.pending (frame + later) =
      amount FsResource.pending (frame + needed) := by
    funext i
    rw [amount_add, amount_add, same.pending]
  have nameless : amount FsResource.nameless (frame + later) =
      amount FsResource.nameless (frame + needed) := by
    funext i
    rw [amount_add, amount_add, same.nameless]
  have unformed : amount FsResource.unformed (frame + later) =
      amount FsResource.unformed (frame + needed) := by
    funext i
    rw [amount_add, amount_add, same.unformed]
  rw [debts, debts, pending, nameless, unformed]

section

variable (inv : Consistent ninodes counting s (frame + needed))
include inv

theorem Consistent.exchange (disk : after.disk = s.disk) (removed : after.removed = s.removed)
    (same : SameDebts needed later) (refs : ∀ i, after.ref i = amount references (frame + later) i)
    (once : ∀ i, amount locks (frame + later) i ≤ 1)
    (unlocked : ∀ i, amount locks (frame + later) i = 0 → after.lock i = none)
    (valid : ∀ i, after.valid i = true → after.inode i = s.disk i ∧ (s.disk i).type ≠ .free)
    (alone : ∀ i, 0 < amount unformed (frame + needed) i →
      amount owners (frame + later) i = 1) (fits : ∀ res ∈ frame + later, res.Fits after)
    (referenced : counting → ∀ i, (s.disk i).type ≠ .free →
      (s.disk i).nlink = 0 → 0 < amount owners (frame + later) i ∧
        (after.valid i = true ∨ 0 < amount fresh (frame + later) i))
    (dropped : counting → ∀ i, 0 < amount drops (frame + later) i →
      (s.disk i).type = .free) : Consistent ninodes counting after (frame + later) := by
  have misses : ∀ child i, amount (FsResource.misses child) (frame + later) i =
      amount (FsResource.misses child) (frame + needed) i := by
    intro child i
    rw [amount_add, amount_add, same.misses]
  constructor
  case books =>
    refine ⟨refs, once, unlocked, ?_, ?_, fits, ?_⟩
    · rwa [disk]
    · intro i
      rw [amount_add, same.unformed, ← amount_add]
      exact alone i
    intro i child lost
    rw [misses] at lost
    rw [disk, removed, amount_add, same.nameless, ← amount_add]
    exact inv.books.children i child lost
  case tree =>
    rcases inv.tree with ⟨leaked, tree, none⟩
    refine ⟨leaked, ?_, none⟩
    rwa [disk, removed, same.debts_eq]
  case exact =>
    intro isCnt
    have exact := inv.exact isCnt
    constructor
    case gone =>
      rw [disk, removed]
      exact exact.gone
    case listed =>
      intro i par
      rw [disk, removed, misses]
      exact exact.listed i par
    case expecting =>
      intro i
      rw [removed, amount_add, same.expects, ← amount_add]
      exact exact.expecting i
    case referenced =>
      rw [disk]
      exact referenced isCnt
    case dropped =>
      rw [disk]
      exact dropped isCnt

theorem Consistent.gain {i : Inum} (disk : after.disk = s.disk) (gone : after.removed = s.removed)
    (inode : after.inode = s.inode) (lock : after.lock = s.lock)
    (ref : after.ref = update s.ref i (s.ref i + 1)) (valid : after.valid = s.valid ∨
      s.ref i = 0 ∧ after.valid = update s.valid i false) (same : SameDebts needed later)
    (references : ∀ j, amount FsResource.references later j =
      amount FsResource.references needed j + if i = j then 1 else 0)
    (locks : ∀ j, amount FsResource.locks later j = amount FsResource.locks needed j)
    (owners : ∀ j, amount FsResource.owners needed j ≤ amount FsResource.owners later j)
    (fresh : ∀ j, amount FsResource.fresh later j = amount FsResource.fresh needed j)
    (drops : ∀ j, amount FsResource.drops later j = amount FsResource.drops needed j)
    (alone : ∀ j, 0 < amount unformed (frame + needed) j →
      amount FsResource.owners later j = amount FsResource.owners needed j)
    (fits : ∀ res ∈ later, res ∈ needed ∨ res.locks = 0 ∧ res.Fits s) :
    Consistent ninodes counting after (frame + later) := by
  have books := inv.books
  have valBefore : ∀ j, after.valid j = true → s.valid j = true := by
    intro j isVal
    rcases valid with unchanged | ⟨_, recycled⟩
    · rwa [unchanged] at isVal
    rw [recycled] at isVal
    by_cases here : j = i
    · simp [here] at isVal
    · rwa [update_of_ne here] at isVal
  have valAfter : ∀ j, s.valid j = true → 0 < s.ref j → after.valid j = true := by
    intro j isVal pos
    rcases valid with unchanged | ⟨none, recycled⟩
    · rwa [unchanged]
    have o : j ≠ i := by
      intro eq
      rw [eq] at pos
      omega
    rwa [recycled, update_of_ne o]
  have keeps : ∀ res ∈ frame + needed, res.Fits after := by
    intro res mem
    have pre := books.fits res mem
    cases res with
    | locked p j d hold =>
      have locked : 1 ≤ amount FsResource.locks (frame + needed) j := le_amount FsResource.locks mem
      have bound := locks_le_references (frame + needed) j
      simp only [FsResource.Fits, disk, lock] at pre ⊢
      exact ⟨pre.1, valAfter j pre.2.1 (by rw [books.refs]; omega), pre.2.2⟩
    | dropping j => trivial
    | _ => simpa only [FsResource.Fits, disk] using pre
  apply inv.exchange disk gone same
  case refs =>
    intro j
    have pre := books.refs j
    rw [ref, amount_add, references]
    rw [amount_add] at pre
    by_cases here : i = j
    · subst here
      rw [update_self, if_pos rfl]
      omega
    · rw [update_of_ne (Ne.symm here), if_neg here]
      omega
  case once =>
    intro j
    rw [amount_add, locks, ← amount_add]
    exact books.once j
  case unlocked =>
    intro j
    rw [amount_add, locks, ← amount_add, lock]
    exact books.unlocked j
  case valid =>
    intro j isVal
    rw [inode]
    exact books.valid j (valBefore j isVal)
  case alone =>
    intro j growing
    rw [amount_add, alone j growing, ← amount_add]
    exact books.alone j growing
  case fits =>
    intro res mem
    rcases mem_add.mp mem with old | new
    · exact keeps res (mem_add.mpr (.inl old))
    rcases fits res new with had | ⟨noLock, gained⟩
    · exact keeps res (mem_add.mpr (.inr had))
    cases res with
    | locked p j d hold => simp at noLock
    | dropping j => trivial
    | _ => simpa only [FsResource.Fits, disk] using gained
  case referenced =>
    intro isCnt j alive cut
    rcases (inv.exact isCnt).referenced j alive cut with ⟨owned, known⟩
    have more := owners j
    have bound := owners_le (frame + needed) j
    have count := books.refs j
    have eq := fresh j
    simp only [amount_add] at owned known bound count ⊢
    refine ⟨by omega, ?_⟩
    rcases known with isVal | isFresh
    · by_cases pos : 0 < s.ref j
      · exact .inl (valAfter j isVal pos)
      · exact .inr (by omega)
    · exact .inr (by omega)
  case dropped =>
    intro isCnt j
    rw [amount_add, drops, ← amount_add]
    exact (inv.exact isCnt).dropped j

theorem Consistent.lose
    {i : Inum} (disk : after.disk = s.disk) (removed : after.removed = s.removed)
    (inode : after.inode = s.inode) (lock : after.lock = s.lock) (valid : after.valid = s.valid)
    (ref : after.ref = update s.ref i (s.ref i - 1))
    (gone : needed = {.ref i} ∧ ¬ s.Frees i ∨ needed = {.dropping i}) :
    Consistent ninodes counting after frame := by
  have books := inv.books
  have split : frame = frame + 0 := (add_zero frame).symm
  rw [split]
  have same : SameDebts needed 0 := by
    rcases gone with ⟨eq, _⟩ | eq <;> subst eq <;> constructor <;> simp
  have less : ∀ j, amount references needed j = if i = j then 1 else 0 := by
    intro j
    rcases gone with ⟨eq, _⟩ | eq <;> subst eq <;> simp
  have locks : ∀ j, amount FsResource.locks needed j = 0 := by
    intro j
    rcases gone with ⟨eq, _⟩ | eq <;> subst eq <;> simp
  have fresh : ∀ j, amount FsResource.fresh needed j = 0 := by
    intro j
    rcases gone with ⟨eq, _⟩ | eq <;> subst eq <;> simp
  apply inv.exchange disk removed same
  case refs =>
    intro j
    have old := books.refs j
    rw [amount_add, less] at old
    rw [ref, add_zero]
    by_cases here : i = j
    · subst here
      rw [update_self]
      rw [if_pos rfl] at old
      omega
    · rw [update_of_ne (Ne.symm here)]
      rw [if_neg here] at old
      omega
  case once =>
    intro j
    have bound := books.once j
    rw [amount_add] at bound
    rw [add_zero]
    omega
  case unlocked =>
    intro j none
    rw [add_zero] at none
    rw [lock]
    apply books.unlocked j
    rw [amount_add, locks, none]
  case valid =>
    intro j isVal
    rw [inode]
    rw [valid] at isVal
    exact books.valid j isVal
  case alone =>
    intro j growing
    have bound := books.alone j growing
    have owner := unformed_le_owners frame j
    have settled := same.unformed j
    rw [amount_zero] at settled
    rw [amount_add] at bound growing
    rw [add_zero]
    omega
  case fits =>
    intro res mem
    rw [add_zero] at mem
    have old := books.mem_frame mem
    cases res with
    | dropping j => trivial
    | _ => simpa only [FsResource.Fits, disk, lock, valid] using old
  case referenced =>
    intro isCnt j alive cut
    have exact := inv.exact isCnt
    rcases exact.referenced j alive cut with ⟨owned, known⟩
    rw [amount_add] at owned
    rw [amount_add, fresh, add_zero] at known
    rw [add_zero, valid]
    refine ⟨?_, known⟩
    by_cases here : i = j
    · subst here
      rcases gone with ⟨eq, notFreed⟩ | eq
      · subst eq
        -- The inode has no other owner only if its reference count is 1.
        by_contra none
        apply notFreed
        have dropless : amount drops (frame + {.ref i}) i = 0 := by
          by_contra pos
          exact alive (exact.dropped i (by omega))
        have formed := books.unformed_eq (by simp : 0 < amount owners {.ref i} i)
        have freshless := fresh_le_unformed frame i
        have isVal : s.valid i = true := by
          rcases known with isVal | isFresh
          · exact isVal
          · omega
        have count := books.refs i
        have bound := references_le frame i
        rw [amount_add, less, if_pos rfl] at count
        rw [amount_add] at dropless
        have shared := (books.valid i isVal).1
        refine ⟨by omega, isVal, ?_⟩
        rwa [shared]
      · subst eq
        simpa using owned
    · rcases gone with ⟨eq, _⟩ | eq
      · subst eq
        simpa [here] using owned
      · subst eq
        simpa using owned
  case dropped =>
    intro isCnt j pos
    rw [add_zero] at pos
    exact (inv.exact isCnt).dropped j (by rw [amount_add]; omega)

/-! ## Locks -/

theorem Consistent.acquire {p : Pid} {i : Inum} {hold : Hold}
    (source : needed = {.ref i} ∧ hold = .whole ∨
    ∃ type, needed = {.newborn i type} ∧ hold = .blank)
    (disk : after.disk = s.disk) (gone : after.removed = s.removed)
    (ref : after.ref = s.ref) (wasFree : s.lock i = none)
    (lock : after.lock = update s.lock i (some p))
    (inode : after.inode = update s.inode i (s.disk i))
    (valid : after.valid = update s.valid i true) :
    Consistent ninodes counting after (frame + {.locked p i (s.disk i) hold}) := by
  have books := inv.books
  have same : SameDebts needed {.locked p i (s.disk i) hold} := by
    rcases source with ⟨eq, whole⟩ | ⟨type, eq, blank⟩ <;> subst eq <;>
      subst hold <;> constructor <;> simp
  have references : ∀ j, amount FsResource.references needed j =
      if i = j then 1 else 0 := by
    intro j
    rcases source with ⟨eq, _⟩ | ⟨type, eq, _⟩ <;> subst eq <;> simp
  have owners : ∀ j, amount FsResource.owners needed j = if i = j then 1 else 0 := by
    intro j
    rcases source with ⟨eq, _⟩ | ⟨type, eq, _⟩ <;> subst eq <;> simp
  have locks : ∀ j, amount FsResource.locks needed j = 0 := by
    intro j
    rcases source with ⟨eq, _⟩ | ⟨type, eq, _⟩ <;> subst eq <;> simp
  have fresh : ∀ j, amount FsResource.fresh needed j ≤ if i = j then 1 else 0 := by
    intro j
    rcases source with ⟨eq, _⟩ | ⟨type, eq, _⟩ <;> subst eq <;> simp
  have drops : ∀ j, amount FsResource.drops needed j = 0 := by
    intro j
    rcases source with ⟨eq, _⟩ | ⟨type, eq, _⟩ <;> subst eq <;> simp
  have alive : (s.disk i).type ≠ .free := by
    rcases source with ⟨eq, _⟩ | ⟨type, eq, _⟩
    · exact books.mem_needed (by simp [eq] : .ref i ∈ needed)
    have fits := books.mem_needed (by simp [eq] : .newborn i type ∈ needed)
    rw [fits.1]
    exact fits.2
  have unlocked : ∀ {q j d o}, .locked q j d o ∈ frame → j ≠ i := by
    intro q j d o mem eq
    have fits := books.mem_frame mem
    rw [eq] at fits
    have taken := fits.1
    rw [wasFree] at taken
    simp at taken
  apply inv.exchange disk gone same
  case refs =>
    intro j
    have pre := books.refs j
    rw [amount_add, references] at pre
    rw [ref, pre]
    simp
  case once =>
    intro j
    have bound := books.once j
    simp only [amount_add, locks, amount_locked, FsResource.locks] at bound ⊢
    by_cases here : i = j
    · subst here
      rw [if_pos rfl]
      have none : amount FsResource.locks frame i = 0 := by
        by_contra pos
        rcases exists_of_amount_pos (Nat.pos_of_ne_zero pos) with
          ⟨res, mem, atI, isLock⟩
        cases res with
        | locked q j d o => exact unlocked mem atI
        | _ => simp at isLock
      omega
    · rwa [if_neg here]
  case unlocked =>
    intro j none
    simp only [amount_add, amount_locked, FsResource.locks] at none
    have o : j ≠ i := by
      intro eq
      simp [eq] at none
    rw [lock, update_of_ne o]
    apply books.unlocked j
    rw [amount_add, locks]
    omega
  case valid =>
    intro j isVal
    rw [inode]
    by_cases here : j = i
    · subst here
      rw [update_self]
      exact ⟨rfl, alive⟩
    rw [valid, update_of_ne here] at isVal
    rw [update_of_ne here]
    exact books.valid j isVal
  case alone =>
    intro j growing
    have bound := books.alone j growing
    rw [amount_add, owners] at bound
    simpa using bound
  case fits =>
    intro res mem
    rcases mem_add.mp mem with old | new
    · have pre := books.mem_frame old
      cases res with
      | dropping j => trivial
      | locked q j d o =>
        have ne := unlocked old
        simp only [FsResource.Fits, disk, lock, valid, update_of_ne ne] at pre ⊢
        exact pre
      | _ => simpa only [FsResource.Fits, disk] using pre
    · rw [mem_singleton] at new
      subst new
      simp [FsResource.Fits, disk, lock, valid, alive]
  case referenced =>
    intro isCnt j isAlloc cut
    rcases (inv.exact isCnt).referenced j isAlloc cut with ⟨owned, known⟩
    have bound := fresh j
    simp only [amount_add, owners, amount_locked, FsResource.owners, FsResource.fresh,
      ite_self, add_zero] at owned known ⊢
    refine ⟨owned, ?_⟩
    by_cases here : j = i
    · left
      rw [valid, here, update_self]
    rw [valid, update_of_ne here]
    rw [if_neg (Ne.symm here)] at bound
    rcases known with isVal | isFresh
    · exact .inl isVal
    · exact .inr (by omega)
  case dropped =>
    intro isCnt j pos
    simp only [amount_add, amount_locked, FsResource.drops, ite_self] at pos
    apply (inv.exact isCnt).dropped j
    rwa [amount_add, drops]

end

theorem Consistent.release {p : Pid}
    {i : Inum} {d : Dinode} (inv : Consistent ninodes counting s (frame + {.locked p i d .whole}))
    (disk : after.disk = s.disk) (gone : after.removed = s.removed) (ref : after.ref = s.ref)
    (inode : after.inode = s.inode) (valid : after.valid = s.valid) (lock :
    after.lock = update s.lock i none) : Consistent ninodes counting after (frame + {.ref i}) := by
  have books := inv.books
  have here : (FsResource.locked p i d .whole).Fits s := books.mem_needed (mem_singleton_self _)
  have others : ∀ {q j d' o}, .locked q j d' o ∈ frame → j ≠ i := by
    intro q j d' o mem
    exact books.locked_ne (by simp) mem
  apply inv.exchange disk gone
  case same => constructor <;> simp
  case refs =>
    intro j
    rw [ref, books.refs]
    simp
  case once =>
    intro j
    have bound := books.once j
    simp only [amount_add, amount_ref, locks, ite_self] at bound ⊢
    omega
  case unlocked =>
    intro j none
    rw [lock]
    by_cases eq : j = i
    · rw [eq, update_self]
    rw [update_of_ne eq]
    apply books.unlocked j
    simpa [Ne.symm eq] using none
  case valid =>
    rw [valid, inode]
    exact books.valid
  case alone =>
    intro j growing
    simpa using books.alone j growing
  case fits =>
    intro res mem
    rcases mem_add.mp mem with old | new
    · have pre := books.mem_frame old
      cases res with
      | dropping j => trivial
      | locked q j d' o =>
        have ne := others old
        simp only [FsResource.Fits, disk, lock, valid, update_of_ne ne] at pre ⊢
        exact pre
      | _ => simpa only [FsResource.Fits, disk] using pre
    · rw [mem_singleton] at new
      subst new
      rw [FsResource.Fits, disk, here.2.2.1]
      exact here.2.2.2
  case referenced =>
    intro isCnt j isAlloc cut
    have pre := (inv.exact isCnt).referenced j isAlloc cut
    rw [valid]
    simpa using pre
  case dropped =>
    intro isCnt j pos
    exact (inv.exact isCnt).dropped j (by simpa using pos)

/-! ## The steps -/

section

variable [DecidableEq Pid] {p : Pid} {i : Inum}

theorem executes_iget (same : SameDebts needed later)
    (references : ∀ j, amount FsResource.references later j =
      amount FsResource.references needed j + if i = j then 1 else 0)
    (locks : ∀ j, amount FsResource.locks later j = amount FsResource.locks needed j)
    (owners : ∀ j, amount FsResource.owners needed j ≤ amount FsResource.owners later j)
    (fresh : ∀ j, amount FsResource.fresh later j = amount FsResource.fresh needed j)
    (drops : ∀ j, amount FsResource.drops later j = amount FsResource.drops needed j)
    (h : ∀ (s : FsState Pid) frame, Consistent ninodes counting s (frame + needed) →
      (∀ j, 0 < amount unformed (frame + needed) j →
        amount FsResource.owners later j = amount FsResource.owners needed j) ∧
      ∀ res ∈ later, res ∈ needed ∨ res.locks = 0 ∧ res.Fits s) :
    FsExecutes ninodes counting p needed (.iget i) fun _ held => held = later := by
  apply of_outcomes
  · intro s frame r after inv ok ran
    rcases exec_iget_ok ninodes p ran with ⟨disk, gone, inode, lock, ref, valid⟩
    rcases h s frame inv with ⟨alone, fits⟩
    exact ⟨later, inv.gain disk gone inode lock ref valid same references locks owners
      fresh drops alone fits, rfl⟩
  · intro s frame why inv ok ran
    have expected : why = .igetNoInodes := exec_iget_panic ninodes p ran
    simp [fsLedger, expected]

omit [DecidableEq Pid] in
theorem gains_ref (alive : (s.disk i).type ≠ .free)
    (inUse : amount unformed (frame + needed) i = 0) :
    (∀ j, 0 < amount unformed (frame + needed) j →
    amount owners (needed + {.ref i}) j = amount owners needed j) ∧
    ∀ res ∈ needed + {.ref i}, res ∈ needed ∨ res.locks = 0 ∧ res.Fits s := by
  constructor
  · intro j growing
    have o : i ≠ j := by
      intro eq
      rw [eq] at inUse
      omega
    simp [o]
  · intro res mem
    rcases mem_add.mp mem with old | new
    · exact .inl old
    rw [mem_singleton] at new
    subst new
    exact .inr ⟨rfl, alive⟩

theorem executes_iget_root :
    FsExecutes ninodes counting p 0 (.iget rootIno) fun _ held => held = {.ref rootIno} := by
  have split : ({.ref rootIno} : FsHeld Pid) = 0 + {.ref rootIno} := (zero_add _).symm
  rw [split]
  apply executes_iget
  case same => constructor <;> simp
  case h =>
    intro s frame inv
    rcases inv.tree with ⟨leaked, tree, _⟩
    rcases tree.root with ⟨isDir, par, _⟩
    exact gains_ref (by simp [isDir]) tree.rootName.2.2
  all_goals simp

theorem executes_iget_entry {dp : Inum} {d : Dinode} {hold : Hold}
    {slot : Nat} {entry : Dirent} (has : d.entries[slot]? = some entry) (ne : entry.inum ≠ 0)
    (settled : hold.unformed = 0) : FsExecutes ninodes counting p {.locked p dp d hold}
    (.iget entry.inum) fun _ held => held = {.locked p dp d hold} + {.ref entry.inum} := by
  apply executes_iget
  case same => constructor <;> simp
  case h =>
    intro s frame inv
    have here : (locked p dp d hold).Fits s := inv.books.mem_needed (mem_singleton_self _)
    rcases here with ⟨_, _, onDisk, _⟩
    rcases inv.tree with ⟨leaked, tree, _⟩
    rw [← onDisk] at has
    apply gains_ref (tree.named dp slot entry has ne)
    by_cases self : entry.inum = dp
    · have formed := inv.books.unformed_eq (by simp : 0 < amount owners {.locked p dp d hold} dp)
      rwa [self, amount_add, formed, amount_locked, if_pos rfl, zero_add]
    · exact tree.hidden dp slot entry has ne self
  all_goals simp

theorem executes_iget_marked {type : InodeType} : FsExecutes
    ninodes counting p {.marked i type} (.iget i) fun _ held => held = {.newborn i type} := by
  apply executes_iget
  case same => constructor <;> simp
  case h =>
    intro s frame inv
    have here : (marked i type).Fits s := inv.books.mem_needed (mem_singleton_self _)
    constructor
    · simp
    intro res mem
    rw [mem_singleton] at mem
    subst mem
    exact .inr ⟨rfl, here⟩
  all_goals simp

theorem executes_idup :
    FsExecutes ninodes counting p {.ref i} (.idup i) fun _ held => held = {.ref i} + {.ref i} := by
  apply of_outcomes
  · intro s frame r after inv ok ran
    cases ran
    have here : (ref i).Fits s := inv.books.mem_needed (mem_singleton_self _)
    have inUse : amount unformed (frame + {.ref i}) i = 0 := by
      have formed := inv.books.unformed_eq (by simp : 0 < amount owners {.ref i} i)
      simp [formed]
    rcases gains_ref here inUse with ⟨alone, fits⟩
    refine ⟨_, inv.gain rfl rfl rfl rfl rfl (.inl rfl) ?_ ?_ ?_ ?_ ?_ ?_ alone fits, rfl⟩
    · constructor <;> simp
    all_goals simp
  · intro s frame why inv ok ran
    simp [fsSystem, exec] at ran

theorem executes_acquire {hold : Hold}
    (source : needed = {.ref i} ∧ hold = .whole ∨ ∃ type, needed = {.newborn i type} ∧
    hold = .blank) : FsExecutes ninodes counting p needed (.ilock i) fun _ held => ∃ s frame,
    Consistent ninodes counting s (frame + needed) ∧ held = {.locked p i (s.disk i) hold} := by
  apply of_outcomes
  · intro s frame r after inv ok ran
    rcases exec_ilock_ok ninodes p ran with
      ⟨wasFree, lock, disk, gone, ref, loaded⟩
    have loads : after.valid = update s.valid i true ∧
        after.inode = update s.inode i (s.disk i) := by
      rcases loaded with ⟨isVal, valid, inode⟩ | loads
      · rw [valid, inode, ← (inv.books.valid i isVal).1, ← isVal, update_eq_self, update_eq_self]
        exact ⟨rfl, rfl⟩
      · exact loads
    exact ⟨_, inv.acquire source disk gone ref wasFree lock loads.2 loads.1, s, frame, inv, rfl⟩
  · rintro s frame why inv ok ran rfl
    have isFree : (s.disk i).type = .free := by
      rcases exec_ilock_panic ninodes p ran with o | isFree
      · cases o
      · exact isFree
    rcases source with ⟨eq, _⟩ | ⟨type, eq, _⟩
    · subst eq
      have fits : (FsResource.ref i).Fits s := inv.books.mem_needed (mem_singleton_self _)
      exact fits isFree
    subst eq
    have fits : (newborn i type).Fits s := inv.books.mem_needed (mem_singleton_self _)
    rw [fits.1] at isFree
    exact fits.2 isFree

theorem executes_ilock : FsExecutes ninodes counting p {.ref i} (.ilock i) fun _ held => ∃ d,
    held = {.locked p i d .whole} := by
  intro s frame inv ok
  have res := executes_acquire (.inl ⟨rfl, rfl⟩) s frame inv ok
  split at res
  · rcases res with ⟨later, kept, s, _, _, eq⟩
    exact ⟨later, kept, s.disk i, eq⟩
  · trivial
  · exact res

theorem executes_ilock_newborn {type : InodeType} : FsExecutes ninodes counting
    p {.newborn i type} (.ilock i) fun _ held => held = {.locked p i (.blank type) .blank} := by
  intro s frame inv ok
  have res := executes_acquire (.inr ⟨type, rfl, rfl⟩) s frame inv ok
  split at res
  · rcases res with ⟨later, kept, s, o, inv, eq⟩
    have fits : (newborn i type).Fits s := inv.books.mem_needed (mem_singleton_self _)
    exact ⟨later, kept, by rw [eq, fits.1]⟩
  · trivial
  · exact res

theorem executes_read {d : Dinode} {hold : Hold} : FsExecutes ninodes counting
    p {.locked p i d hold} (.read i) fun r held => d = r ∧ held = {.locked p i d hold} := by
  apply of_outcomes
  · intro s frame r after inv ok ran
    cases ran
    have fits : (locked p i d hold).Fits s := inv.books.mem_needed (mem_singleton_self _)
    rcases fits with ⟨_, isVal, onDisk, _⟩
    exact ⟨_, inv, by rw [(inv.books.valid i isVal).1, onDisk], rfl⟩
  · intro s frame why inv ok ran
    simp [fsSystem, exec] at ran

theorem executes_iunlock {d : Dinode} : FsExecutes
    ninodes counting p {.locked p i d .whole} (.iunlock i) fun _ held => held = {.ref i} := by
  apply of_outcomes
  · intro s frame r after inv ok ran
    rw [exec_iunlock_ok ninodes p ran]
    exact ⟨_, inv.release rfl rfl rfl rfl rfl rfl, rfl⟩
  · intro s frame why inv ok ran
    simp [fsLedger, exec_iunlock_panic ninodes p ran]

theorem executes_iputDrop :
    FsExecutes ninodes counting p {.dropping i} (.iputDrop i) fun _ held => held = 0 := by
  apply of_outcomes
  · intro s frame r after inv ok ran
    cases ran
    refine ⟨0, ?_, rfl⟩
    rw [add_zero]
    exact inv.lose rfl rfl rfl rfl rfl rfl (.inr rfl)
  · intro s frame why inv ok ran
    simp [fsSystem, exec] at ran

theorem executes_itrunc {held : FsHeld Pid} :
    FsExecutes ninodes counting p held (.itrunc i) fun _ later => later = held := by
  apply of_outcomes
  · intro s frame r after inv ok ran
    cases ran
    refine ⟨held, ⟨?_, inv.tree, ?_⟩, rfl⟩
    · refine { inv.books with fits := ?_ }
      intro res mem
      have fits := inv.books.fits res mem
      cases res <;> exact fits
    · intro isCnt
      exact { inv.exact isCnt with }
  · intro s frame why inv ok ran
    simp [fsSystem, exec] at ran

end

end Xv6
