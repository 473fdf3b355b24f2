import Xv6.Sysfile.References

/-! # Changing a locked inode

The steps that write an inode whose lock is held: its link count and the entries
of a directory. Each moves a link between the count, the entries and what is
pending. -/

namespace Xv6

open Foundation Function Dinode FsResource FsState
open Multiset (mem_add mem_singleton mem_singleton_self)

variable {Pid : Type} {ninodes : Nat} {counting : Prop} {s after : FsState Pid}
  {frame needed later : FsHeld Pid}

/-! ## One inode written -/

/-- Two collections of resources are about the same inodes in the same roles. -/
structure SameOwners (needed later : Multiset (FsResource Pid)) : Prop where
  references : ∀ i, amount FsResource.references later i =
    amount FsResource.references needed i
  locks : ∀ i, amount FsResource.locks later i = amount FsResource.locks needed i
  owners : ∀ i, amount FsResource.owners later i = amount FsResource.owners needed i
  fresh : ∀ i, amount FsResource.fresh later i = amount FsResource.fresh needed i
  drops : ∀ i, amount FsResource.drops later i = amount FsResource.drops needed i

/-- What `after` is when one inode of `state` has been written. -/
structure Writes (s after : FsState Pid) (i : Inum) (dinode : Dinode) : Prop where
  disk : after.disk = update s.disk i dinode
  inode : after.inode = update s.inode i dinode
  ref : after.ref = s.ref
  lock : after.lock = s.lock
  valid : after.valid = s.valid
  type : dinode.type = (s.disk i).type

variable {i : Inum} {dinode : Dinode}

theorem Writes.type_eq (writes : Writes s after i dinode)
    (j : Inum) : (after.disk j).type = (s.disk j).type := by
  rw [writes.disk]
  by_cases here : j = i
  · subst here
    rw [update_self, writes.type]
  · rw [update_of_ne here]

theorem Books.fits_write (books : Books s (frame + needed)) (writes : Writes s after i dinode)
    (locked : 0 < amount locks needed i) {res : FsResource Pid}
    (mem : res ∈ frame) : res.Fits after := by
  have old := books.mem_frame mem
  have owned : 0 < amount owners needed i := lt_of_lt_of_le locked (locks_le_owners needed i)
  cases res with
  | dropping j => trivial
  | ref j | link j => simpa only [FsResource.Fits, writes.type_eq] using old
  | marked j type | newborn j type =>
    have o : j ≠ i := books.fresh_ne owned mem (by simp)
    simpa only [FsResource.Fits, writes.disk, update_of_ne o] using old
  | locked p j d hold =>
    have o : j ≠ i := books.locked_ne locked mem
    simpa only [FsResource.Fits, writes.disk, writes.lock, writes.valid, update_of_ne o] using old

theorem Consistent.write (inv : Consistent ninodes counting s (frame + needed))
    (writes : Writes s after i dinode)
    (locked : 0 < amount FsResource.locks needed i) (owners : SameOwners needed later)
    (unformed : ∀ j, amount FsResource.unformed later j ≤ amount FsResource.unformed needed j)
    (fits : ∀ res ∈ later, res.Fits after)
    (children : ∀ j child, 0 < amount (misses child) (frame + later) j →
      (after.disk child).parent? = some j ∧ after.removed child = false ∧
        0 < amount nameless (frame + later) child) (tree : ∀ leaked, (counting → leaked = 0) →
      Tree ninodes s.disk s.removed (debts (frame + needed) leaked) →
      Tree ninodes after.disk after.removed (debts (frame + later) leaked))
    (gone : counting → ∀ j, (after.disk j).type = .dir → after.removed j = true →
      upCount ninodes after.disk after.removed j = 0 ∧ (after.disk j).isdirempty = true)
    (listed : counting → ∀ j par, (after.disk j).type = .dir →
      after.removed j = false → j ≠ rootIno → (after.disk j).parent? = some par →
      0 < (after.disk par).names j ∨ 0 < amount (misses j) (frame + later) par)
    (expecting : counting → ∀ j, 0 < amount expects (frame + later) j →
      after.removed j = false) : Consistent ninodes counting after (frame + later) := by
  have books := inv.books
  have references : ∀ j, amount FsResource.references (frame + later) j =
      amount FsResource.references (frame + needed) j := by
    intro j
    rw [amount_add, amount_add, owners.references]
  have locks : ∀ j, amount FsResource.locks (frame + later) j =
      amount FsResource.locks (frame + needed) j := by
    intro j
    rw [amount_add, amount_add, owners.locks]
  have owned : ∀ j, amount FsResource.owners (frame + later) j =
      amount FsResource.owners (frame + needed) j := by
    intro j
    rw [amount_add, amount_add, owners.owners]
  have fresh : ∀ j, amount FsResource.fresh (frame + later) j =
      amount FsResource.fresh (frame + needed) j := by
    intro j
    rw [amount_add, amount_add, owners.fresh]
  have drops : ∀ j, amount FsResource.drops (frame + later) j =
      amount FsResource.drops (frame + needed) j := by
    intro j
    rw [amount_add, amount_add, owners.drops]
  constructor
  case books =>
    constructor
    case refs =>
      intro j
      rw [writes.ref, references, books.refs]
    case once =>
      intro j
      rw [locks]
      exact books.once j
    case unlocked =>
      intro j
      rw [locks, writes.lock]
      exact books.unlocked j
    case valid =>
      intro j isVal
      rw [writes.valid] at isVal
      have pre := books.valid j isVal
      rw [writes.type_eq]
      refine ⟨?_, pre.2⟩
      rw [writes.disk, writes.inode]
      by_cases here : j = i
      · rw [here, update_self, update_self]
      · rw [update_of_ne here, update_of_ne here, pre.1]
    case alone =>
      intro j growing
      have fewer := unformed j
      rw [owned]
      apply books.alone j
      rw [amount_add] at growing ⊢
      omega
    case fits =>
      intro res mem
      rcases mem_add.mp mem with old | new
      · exact books.fits_write writes locked old
      · exact fits res new
    case children => exact children
  case tree =>
    rcases inv.tree with ⟨leaked, pre, none⟩
    exact ⟨leaked, tree leaked none pre, none⟩
  case exact =>
    intro isCnt
    have exact := inv.exact isCnt
    refine ⟨gone isCnt, listed isCnt, expecting isCnt, ?_, ?_⟩
    · intro j alive cut
      rw [owned, fresh, writes.valid]
      by_cases here : j = i
      · subst here
        have pos := locks_le_owners (frame + needed) j
        rw [amount_add] at pos
        refine ⟨by omega, .inl ?_⟩
        rcases exists_of_amount_pos locked with ⟨res, mem, atJ, isLock⟩
        cases res with
        | locked p k d hold =>
          have here := books.mem_needed mem
          rw [← atJ]
          exact here.2.1
        | _ => simp at isLock
      · rw [writes.disk, update_of_ne here] at alive cut
        exact exact.referenced j alive cut
    · intro j dropping
      rw [writes.type_eq]
      rw [drops] at dropping
      exact exact.dropped j dropping

variable {held : FsHeld Pid} {p : Pid} {d : Dinode} {hold : Hold}

theorem Books.locked_inode (books : Books s held) (mem : .locked p i d hold ∈ held) :
    s.inode i = d ∧ s.disk i = d ∧ d.type ≠ .free := by
  rcases books.fits _ mem with ⟨_, isVal, onDisk, alive⟩
  exact ⟨by rw [(books.valid i isVal).1, onDisk], onDisk, alive⟩

theorem FsState.writes_store (onDisk : s.disk i = d)
    (type : dinode.type = d.type) : Writes s (s.store i dinode) i dinode :=
  ⟨rfl, rfl, rfl, rfl, rfl, by rw [type, onDisk]⟩

theorem Books.fits_written (books : Books s held) (mem : .locked p i d hold ∈ held)
    (writes : Writes s after i dinode) (next : Hold) : (locked p i dinode next).Fits after := by
  rcases books.fits _ mem with ⟨lock, isVal, onDisk, alive⟩
  refine ⟨by rw [writes.lock, lock], by rw [writes.valid, isVal], ?_, ?_⟩
  · rw [writes.disk, update_self]
  · rwa [writes.type, onDisk]

theorem Books.fits_unwritten (books : Books s held) {q : Pid} {j : Inum}
    (mem : .locked q j d hold ∈ held) (writes : Writes s after i dinode)
    (o : j ≠ i) (next : Hold) : (locked q j d next).Fits after := by
  rcases books.fits _ mem with ⟨lock, isVal, onDisk, alive⟩
  refine ⟨by rw [writes.lock, lock], by rw [writes.valid, isVal], ?_, alive⟩
  rw [writes.disk, update_of_ne o, onDisk]

theorem Books.none_in_frame (books : Books s (frame + needed))
    (locked : 0 < amount locks needed i) {measure : FsResource Pid → Nat}
    (le : ∀ res, measure res ≤ res.locks + res.fresh) : amount measure frame i = 0 := by
  have once := books.once i
  have formed := books.unformed_eq (lt_of_lt_of_le locked (locks_le_owners needed i))
  have fresh := fresh_le_unformed frame i
  have bound := amount_le_amount le frame i
  rw [amount_add_measure] at bound
  rw [amount_add] at once
  omega

theorem nameless_le (res : FsResource Pid) : res.nameless ≤ res.locks + res.fresh := by
  cases res with
  | locked p i d hold => cases hold <;> simp
  | _ => simp

theorem unformed_le (res : FsResource Pid) : res.unformed ≤ res.locks + res.fresh := by
  cases res with
  | locked p i d hold => cases hold <;> simp
  | _ => simp

theorem expects_le (res : FsResource Pid) : res.expects ≤ res.locks + res.fresh := by
  cases res with
  | locked p i d hold => cases hold <;> simp
  | _ => simp

theorem misses_le (child : Inum) (res : FsResource Pid) :
    res.misses child ≤ res.locks + res.fresh := by
  cases res with
  | locked p i d hold =>
    cases hold with
    | child o =>
      simp only [misses, locks]
      split <;> omega
    | _ => simp
  | _ => simp

theorem Books.pending_eq (books : Books s held) (mem : .locked p i d hold ∈ held)
    (isDir : d.type = .dir) : amount pending held i = hold.pending := by
  rcases Multiset.exists_cons_of_mem mem with ⟨rest, eq⟩
  rw [← Multiset.singleton_add, add_comm] at eq
  subst eq
  have none : amount pending rest i = 0 := by
    by_contra pos
    rcases exists_of_amount_pos (Nat.pos_of_ne_zero pos) with
      ⟨res, inRest, atI, isPending⟩
    have fits := books.mem_frame inRest
    cases res with
    | link j =>
      have onDisk := (books.locked_inode mem).2.1
      rw [show j = i from atI] at fits
      exact fits.2 (by rw [onDisk, isDir])
    | locked q j d' o => exact books.locked_ne (by simp) inRest atI
    | _ => simp at isPending
  rw [amount_add, none, amount_locked, if_pos rfl, zero_add]
  rfl

/-! ## Link counts -/

theorem Consistent.writeCount (inv : Consistent ninodes counting s (frame + needed))
    (writes : Writes s after i dinode)
    (entries : dinode.entries = (s.disk i).entries) (removed : after.removed = s.removed)
    (locked : 0 < amount locks needed i) (owners : SameOwners needed later)
    (unformed : ∀ j, amount FsResource.unformed later j ≤ amount FsResource.unformed needed j)
    (fits : ∀ res ∈ later, res.Fits after)
    (misses : ∀ child j, amount (FsResource.misses child) later j =
      amount (FsResource.misses child) needed j)
    (nameless : ∀ j, amount FsResource.nameless needed j ≤ amount FsResource.nameless later j)
    (tree : ∀ leaked, (counting → leaked = 0) →
      Tree ninodes s.disk s.removed (debts (frame + needed) leaked) →
      Tree ninodes after.disk s.removed (debts (frame + later) leaked))
    (expecting : counting → ∀ j, 0 < amount expects (frame + later) j →
      s.removed j = false) : Consistent ninodes counting after (frame + later) := by
  have sameEnts : ∀ j, (after.disk j).entries = (s.disk j).entries := by
    intro j
    rw [writes.disk]
    by_cases here : j = i
    · rw [here, update_self, entries]
    · rw [update_of_ne here]
  have pars : ∀ j, (after.disk j).parent? = (s.disk j).parent? := by
    intro j
    simp only [parent?, sameEnts]
  have lost : ∀ child j, amount (FsResource.misses child) (frame + later) j =
      amount (FsResource.misses child) (frame + needed) j := by
    intro child j
    rw [amount_add, amount_add, misses]
  apply inv.write writes locked owners unformed fits
  case children =>
    intro j child isLost
    rw [lost] at isLost
    have old := inv.books.children j child isLost
    have more := nameless child
    rw [pars, removed]
    simp only [amount_add] at old ⊢
    exact ⟨old.1, old.2.1, by omega⟩
  case gone =>
    intro isCnt j isDir isGone
    rw [writes.type_eq] at isDir
    rw [removed] at isGone ⊢
    rw [upCount_congr pars, isdirempty, sameEnts]
    exact (inv.exact isCnt).gone j isDir isGone
  case listed =>
    intro isCnt j par isDir stays notRoot up
    rw [writes.type_eq] at isDir
    rw [removed] at stays
    rw [pars] at up
    rw [lost, names, sameEnts]
    exact (inv.exact isCnt).listed j par isDir stays notRoot up
  case tree | expecting =>
    rwa [removed]

section

variable [DecidableEq Pid] {p : Pid} {i : Inum} {d : Dinode}

omit [DecidableEq Pid] in
theorem Consistent.linked_stays (inv : Consistent ninodes counting s held) (isCnt : counting)
    (mem : .locked p i d hold ∈ held) (isDir : d.type = .dir)
    (settled : hold.pending = 0) (linked : d.nlink ≠ 0) : s.removed i = false := by
  by_contra gone
  rw [Bool.not_eq_false] at gone
  rcases inv.books.locked_inode mem with ⟨_, onDisk, alive⟩
  rcases inv.tree with ⟨leaked, tree, none⟩
  have diskDir : (s.disk i).type = .dir := by rw [onDisk, isDir]
  have unnamed := tree.nameCount_of_removed diskDir gone
  have childless := ((inv.exact isCnt).gone i diskDir gone).1
  have counted := tree.links i (by rw [onDisk]; exact alive)
  have pending : (debts held leaked).pending i = hold.pending := inv.books.pending_eq mem isDir
  have noLeak : (debts held leaked).leaked i = 0 := congrFun (none isCnt) i
  rw [unnamed, childless, pending, settled, noLeak, onDisk] at counted
  exact linked (BitVec.eq_of_toNat_eq counted.symm)

theorem toNat_increment {nlink : BitVec 16} (room : nlink.toNat < 2 ^ 16 - 1) :
    (nlink + 1).toNat = nlink.toNat + 1 := by
  rw [BitVec.toNat_add]
  exact Nat.mod_eq_of_lt (by simp; omega)

theorem toNat_decrement (nlink : BitVec 16) (pos : 0 < nlink.toNat) :
    (nlink - 1).toNat + 1 = nlink.toNat := by
  bv_omega

theorem executes_setNlink {cmd : FsCommand} (r : FsCommand.Response cmd) {nlink : BitVec 16}
    (mem : .locked p i d hold ∈ needed) (runs : ∀ s : FsState Pid, s.inode i = d →
      exec ninodes p cmd s = .ok (r, s.store i { d with nlink := nlink }))
    (owners : SameOwners needed later)
    (misses : ∀ child j, amount (FsResource.misses child) later j =
      amount (FsResource.misses child) needed j)
    (nameless : ∀ j, amount FsResource.nameless later j = amount FsResource.nameless needed j)
    (unformed : ∀ j, amount FsResource.unformed later j = amount FsResource.unformed needed j)
    (pendingElse : ∀ j, j ≠ i → amount pending later j = amount pending needed j)
    (fits : ∀ (s after : FsState Pid) frame, Books s (frame + needed) →
      Writes s after i { d with nlink := nlink } → ∀ res ∈ later, res.Fits after)
    (moved : ∀ s frame leaked, s.inode i = d → s.disk i = d → d.type ≠ .free →
      Tree ninodes s.disk s.removed (debts (frame + needed) leaked) →
      (fsLedger Pid ninodes counting).Allowed p cmd s → amount pending later i + d.nlink.toNat =
        amount pending needed i + nlink.toNat)
    (expecting : ∀ s frame, Consistent ninodes counting s (frame + needed) →
      (fsLedger Pid ninodes counting).Allowed p cmd s →
      counting → ∀ j, 0 < amount expects (frame + later) j → s.removed j = false) :
    FsExecutes ninodes counting p needed cmd fun _ held => held = later := by
  have keeps : ∀ s frame, Consistent ninodes counting s (frame + needed) →
      (fsLedger Pid ninodes counting).Allowed p cmd s → s.inode i = d ∧
        Consistent ninodes counting (s.store i { d with nlink := nlink }) (frame + later) := by
    intro s frame inv ok
    rcases inv.books.locked_inode (mem_add.mpr (.inr mem)) with
      ⟨cached, onDisk, alive⟩
    have writes : Writes s (s.store i { d with nlink := nlink }) i _ := writes_store onDisk rfl
    have locked : 0 < amount locks needed i := le_amount locks mem
    refine ⟨cached, inv.writeCount writes (by rw [onDisk]) rfl locked owners
      (fun j => le_of_eq (unformed j)) (fits s _ frame inv.books writes) misses
      (fun j => le_of_eq (nameless j).symm) ?_
      (expecting s frame inv ok)⟩
    intro leaked none tree
    have balance := moved s frame leaked cached onDisk alive tree ok
    apply tree.setNlink (by rw [onDisk]) (by rw [onDisk])
    · simp only [debts, amount_add, onDisk]
      omega
    · intro j o
      simp only [debts, amount_add, pendingElse j o]
    · funext j
      simp only [debts, amount_add, nameless]
    · funext j
      simp only [debts, amount_add, unformed]
    · rfl
  apply Ledger.Executes.of_outcomes
  · intro s frame actual after inv ok ran
    rcases keeps s frame inv ok with ⟨cached, kept⟩
    cases (runs s cached).symm.trans ran
    exact ⟨later, kept, rfl⟩
  · intro s frame why inv ok ran
    rcases keeps s frame inv ok with ⟨cached, _⟩
    cases (runs s cached).symm.trans ran

theorem executes_incNlink_link (notDir : d.type ≠ .dir) :
    FsExecutes ninodes counting p {.locked p i d .whole} (.incNlink i) fun _ held =>
        held = {.locked p i { d with nlink := d.nlink + 1 } .whole} + {.link i} := by
  apply executes_setNlink () (mem_singleton_self _)
  case runs =>
    intro s cached
    rw [exec, cached]
  case owners => constructor <;> simp
  case fits =>
    intro s after frame books writes res isLater
    have mem : .locked p i d .whole ∈ frame + {.locked p i d .whole} := by simp
    rcases mem_add.mp isLater with lock | link
    · rw [mem_singleton.mp lock]
      exact books.fits_written mem writes .whole
    rw [mem_singleton.mp link]
    rcases books.locked_inode mem with ⟨_, onDisk, alive⟩
    rw [FsResource.Fits, writes.type_eq, onDisk]
    exact ⟨alive, notDir⟩
  case pendingElse =>
    intro j o
    simp [Ne.symm o]
  case moved =>
    intro s frame leaked cached onDisk _ tree ok
    have room := ok.2.1 i rfl
    rw [cached] at room
    have next := toNat_increment room
    simp
    omega
  case expecting =>
    intro s frame inv ok isCounting j expects
    exact (inv.exact isCounting).expecting j (by simpa using expects)
  all_goals simp

theorem executes_incNlink_parent (isDir : d.type = .dir) :
    FsExecutes ninodes counting p {.locked p i d .whole} (.incNlink i) fun _ held =>
        held = {.locked p i { d with nlink := d.nlink + 1 } .expecting} := by
  apply executes_setNlink () (mem_singleton_self _)
  case runs =>
    intro s cached
    rw [exec, cached]
  case owners => constructor <;> simp
  case fits =>
    intro s after frame books writes res isLater
    rw [mem_singleton.mp isLater]
    exact books.fits_written (mem_add.mpr (.inr (mem_singleton_self _))) writes .expecting
  case pendingElse =>
    intro j o
    simp [Ne.symm o]
  case moved =>
    intro s frame leaked cached onDisk _ tree ok
    have room := ok.2.1 i rfl
    rw [cached] at room
    have next := toNat_increment room
    simp
    omega
  case expecting =>
    intro s frame inv ok isCounting j expects
    by_cases here : i = j
    · subst here
      have mem : .locked p i d .whole ∈ frame + {.locked p i d .whole} := by simp
      have cached := (inv.books.locked_inode mem).1
      have linked := (ok.2.2 isCounting).1.1 i rfl (by rw [cached, isDir])
      rw [cached] at linked
      exact inv.linked_stays isCounting mem isDir rfl linked
    · exact (inv.exact isCounting).expecting j (by simpa [here] using expects)
  all_goals simp

/-- The link to be dropped was counted beside the inode or with its lock. -/
theorem executes_decNlink
    (owes : needed = {.locked p i d .whole} + {.link i} ∨ needed = {.locked p i d .orphan}) :
    FsExecutes ninodes counting p needed (.decNlink i none)
      fun _ held => held = {.locked p i { d with nlink := d.nlink - 1 } .whole} := by
  obtain ⟨hold, mem⟩ : ∃ hold, .locked p i d hold ∈ needed := by
    rcases owes with rfl | rfl
    · exact ⟨.whole, by simp⟩
    · exact ⟨.orphan, by simp⟩
  apply executes_setNlink () mem
  case runs =>
    intro s cached
    rw [exec, cached]
    rfl
  case fits =>
    intro s after frame books writes res isLater
    rw [mem_singleton.mp isLater]
    exact books.fits_written (mem_add.mpr (.inr mem)) writes .whole
  all_goals rcases owes with rfl | rfl
  case owners.inl | owners.inr => constructor <;> simp
  case pendingElse.inl | pendingElse.inr =>
    intro j o
    simp [Ne.symm o]
  case moved.inl | moved.inr =>
    intro s frame leaked cached onDisk alive tree ok
    have counted := tree.links i (by rw [onDisk]; exact alive)
    simp only [debts, onDisk] at counted
    simp at counted
    have next := toNat_decrement d.nlink (by omega)
    simp
    omega
  case expecting.inl | expecting.inr =>
    intro s frame inv ok isCnt j expects
    exact (inv.exact isCnt).expecting j (by simpa using expects)
  all_goals simp

/-- What `create` owes for a new inode whose link count it has set. -/
def initialized (p : Pid) (i : Inum) (type : InodeType) (major : BitVec 16) :
    Multiset (FsResource Pid) :=
  if type = .dir then {.locked p i { Dinode.blank type with major := major, nlink := 1 } .making}
  else {.locked p i { Dinode.blank type with major := major, nlink := 1 } .whole} + {.link i}

theorem executes_initInode {type : InodeType}
    {major : BitVec 16} : FsExecutes ninodes counting p {.locked p i (.blank type) .blank}
    (.initInode i major) fun _ held => held = initialized p i type major := by
  let dinode : Dinode := { blank type with major := major, nlink := 1 }
  apply Ledger.Executes.of_outcomes
  · intro s frame r after inv ok did
    have mem : .locked p i (.blank type) .blank ∈
      frame + {.locked p i (.blank type) .blank} := by simp
    rcases inv.books.locked_inode mem with ⟨cached, onDisk, alive⟩
    have written : after = s.store i dinode := by
      cases did
      rw [cached]
    subst written
    have writes : Writes s (s.store i dinode) i dinode := writes_store onDisk rfl
    refine ⟨_, ?_, rfl⟩
    rw [initialized]
    split
    all_goals
      apply inv.writeCount writes (by rw [onDisk]) rfl (by simp)
      case owners => constructor <;> simp
      case unformed | misses | nameless => simp
      case expecting =>
        intro isCnt j expects
        exact (inv.exact isCnt).expecting j (by simpa using expects)
    case isTrue.fits isDir =>
      intro res isLater
      rw [mem_singleton.mp isLater]
      exact inv.books.fits_written mem writes .making
    case isFalse.fits notDir =>
      intro res isLater
      rcases mem_add.mp isLater with lock | link
      · rw [mem_singleton.mp lock]
        exact inv.books.fits_written mem writes .whole
      rw [mem_singleton.mp link]
      rw [FsResource.Fits, writes.type_eq, onDisk]
      exact ⟨alive, notDir⟩
    all_goals
      intro leaked none tree
      have bound := inv.books.once i
      have namelessBound := nameless_le_locks frame i
      simp at bound
      apply tree.initInode onDisk alive rfl rfl rfl
      case pending =>
        intro j
        simp [debts, eq_comm]
      case namelessHere =>
        simp [debts]
        omega
      case namelessElse =>
        intro j o
        simp [debts, Ne.symm o]
      case unformedLe => simp [debts]
      case leaked => rfl
    case isTrue.tree.unformedElse =>
      intro j _
      simp [debts]
    case isFalse.tree.unformedElse notDir =>
      intro j o
      have different : i ≠ j := fun eq => o.elim (fun ne => ne eq.symm) notDir
      simp [debts, different]
  · intro s frame why inv ok did
    simp [fsSystem, exec] at did

end

end Xv6
