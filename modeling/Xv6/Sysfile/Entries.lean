import Xv6.Sysfile.Updates

/-! # Changing the entries of a directory

The writes of `dirlink` and `sys_unlink`, and the step of `sys_unlink` that takes
a directory out of its parent's count. -/

namespace Xv6

open Foundation Function Dinode Dirent FsResource FsState Option
open Multiset (mem_add mem_singleton)

variable {Pid : Type} {ninodes : Nat} {counting : Prop} {s after : FsState Pid}
  {frame needed later : FsHeld Pid} [DecidableEq Pid] {p : Pid} {i dp ip : Inum} {d dir : Dinode}
  {slot : Nat}

theorem executes_writei {hold : Hold} {entry : Dirent} (mem : .locked p i d hold ∈ needed)
    (keeps : ∀ s frame, Consistent ninodes counting s (frame + needed) →
      (fsLedger Pid ninodes counting).Allowed p (.writei i slot entry) s →
      s.inode i = d → s.disk i = d → d.type ≠ .free → slot ≤ d.entries.length →
      Writes s (s.store i (d.setEntry slot entry)) i (d.setEntry slot entry) →
      .locked p i d hold ∈ frame + needed →
      Consistent ninodes counting (s.store i (d.setEntry slot entry)) (frame + later)) :
    FsExecutes ninodes counting p needed (.writei i slot entry)
      fun written held => (written = true → held = later) ∧ (written = false → held = needed) := by
  apply Ledger.Executes.of_outcomes
  · intro s frame r after inv ok ran
    have here : .locked p i d hold ∈ frame + needed := mem_add.mpr (.inr mem)
    rcases inv.books.locked_inode here with ⟨cached, onDisk, alive⟩
    rcases exec_writei_ok ninodes p ran with
      ⟨written, isIn, eq⟩ | ⟨unwritten, eq⟩
    · rw [cached] at isIn eq
      subst eq
      refine ⟨later, keeps s frame inv ok cached onDisk alive isIn
        (writes_store onDisk rfl) here, fun _ => rfl, ?_⟩
      intro isFalse
      cases written.symm.trans isFalse
    · subst eq
      refine ⟨needed, inv, ?_, fun _ => rfl⟩
      intro isTrue
      cases unwritten.symm.trans isTrue
  · intro s frame why inv ok ran
    exact absurd ran (exec_writei_panic ninodes p)

/-! ## The dots of a new directory -/

theorem executes_writei_dot (small : ninodes ≤ 2 ^ 16) (isDir : d.type = .dir)
    (empty : d.entries = []) : FsExecutes ninodes counting p {.locked p i d .making}
      (.writei i 0 (.make dot i)) fun written held =>
        (written = true → held = {.locked p i (d.setEntry 0 (.make dot i)) .making}) ∧
        (written = false → held = {.locked p i d .making}) := by
  apply executes_writei (Multiset.mem_singleton_self _)
  intro s frame inv ok cached onDisk alive isIn writes here
  have pars : ∀ j, ((s.store i (d.setEntry 0 (.make dot i))).disk j).parent? =
      (s.disk j).parent? := by
    intro j
    by_cases here : j = i
    · subst here
      simp [onDisk, parent?, setEntry, empty]
    · simp [here]
  have names : ∀ j k, ((s.store i (d.setEntry 0 (.make dot i))).disk j).names k =
      (s.disk j).names k := by
    intro j k
    by_cases here : j = i
    · subst here
      simp [onDisk, Dinode.names, setEntry, empty]
    · simp [here]
  apply inv.write writes (by simp)
  case owners => constructor <;> simp
  case unformed => simp
  case fits =>
    intro res isLater
    rw [mem_singleton.mp isLater]
    exact inv.books.fits_written here writes .making
  case children =>
    intro j child isLost
    rw [pars]
    simpa using inv.books.children j child (by simpa using isLost)
  case tree =>
    intro leaked none tree
    have inRange := (tree.range i (by rw [onDisk]; exact alive)).2
    have isSelf : (make dot i).inum = i := Nat.mod_eq_of_lt (by omega)
    have same : debts (frame + {.locked p i (d.setEntry 0 (.make dot i)) .making}) leaked =
        debts (frame + {.locked p i d .making}) leaked := by
      simp [debts, funext_iff]
    rw [same]
    exact tree.writeDot onDisk isDir empty (by simp [debts]) isSelf
  case gone =>
    intro isCnt j jDir isGone
    rw [writes.type_eq] at jDir
    rcases inv.tree with ⟨leaked, tree, _⟩
    have o : j ≠ i := by
      intro eq
      have young := tree.young i (by simp [debts])
      rw [eq, store_removed, young] at isGone
      simp at isGone
    rw [upCount_congr pars, writes.disk, update_of_ne o]
    exact (inv.exact isCnt).gone j jDir isGone
  case listed =>
    intro isCnt j par jDir stays notRoot up
    rw [writes.type_eq] at jDir
    rw [pars] at up
    rw [names]
    simpa using (inv.exact isCnt).listed j par jDir stays notRoot up
  case expecting =>
    intro isCnt j expects
    exact (inv.exact isCnt).expecting j (by simpa using expects)

variable {j : Inum}

omit [DecidableEq Pid] in
theorem Books.locks_ne {q : Pid} {d' : Dinode} {hold hold' : Hold}
    (books : Books s (frame + ({.locked p i d hold} + {.locked q j d' hold'}))) : i ≠ j := by
  rintro rfl
  have once := books.once i
  simp at once

theorem executes_writei_dotdot (small : ninodes ≤ 2 ^ 16) (isDir : d.type = .dir)
    (dots : d.entries = [⟨i, dot⟩]) : FsExecutes ninodes counting p
      ({.locked p i d .making} + {.locked p dp dir .expecting}) (.writei i 1 (.make dotdot dp))
      fun written held =>
        (written = true → held = {.locked p i (d.setEntry 1 (.make dotdot dp)) .unnamed} +
          {.locked p dp dir (.child i)}) ∧ (written = false → held = {.locked p i d .making} +
          {.locked p dp dir .expecting}) := by
  have mem : .locked p i d .making ∈ ({.locked p i d .making} +
    {.locked p dp dir .expecting} : FsHeld Pid) := by simp
  apply executes_writei mem
  intro s frame inv ok cached onDisk alive isIn writes here
  have ne := inv.books.locks_ne
  have parMember : .locked p dp dir .expecting ∈ frame +
    ({.locked p i d .making} + {.locked p dp dir .expecting}) := by simp
  rcases inv.books.locked_inode parMember with ⟨_, parOnDisk, parAlloc⟩
  have parBefore : (s.disk i).parent? = none := by simp [onDisk, parent?, dots]
  have stays : s.removed i = false := by
    rcases inv.tree with ⟨leaked, tree, _⟩
    exact tree.young i (by simp [debts])
  have small' : (make dotdot dp) = ⟨dp, dotdot⟩ := by
    rcases inv.tree with ⟨leaked, tree, _⟩
    have inRange := (tree.range dp (by rw [parOnDisk]; exact parAlloc)).2
    have exactly : dp % 2 ^ 16 = dp := Nat.mod_eq_of_lt (by omega)
    rw [make, exactly]
    rfl
  have parAfter : ((s.store i (d.setEntry 1 (.make dotdot dp))).disk i).parent? = some dp := by
    simp [parent?, setEntry, dots, small']
  have parElse : ∀ j, j ≠ i → ((s.store i (d.setEntry 1 (.make dotdot dp))).disk j).parent? =
        (s.disk j).parent? := by
    intro j o
    simp [o]
  have names : ∀ j k, ((s.store i (d.setEntry 1 (.make dotdot dp))).disk j).names k =
      (s.disk j).names k := by
    intro j k
    by_cases here : j = i
    · subst here
      simp [onDisk, Dinode.names, setEntry, dots]
    · simp [here]
  have lost : ∀ child j, child ≠ i → amount (misses child)
        (frame + ({.locked p i (d.setEntry 1 (.make dotdot dp)) .unnamed} +
          {.locked p dp dir (.child i)})) j = amount (misses child)
        (frame + ({.locked p i d .making} + {.locked p dp dir .expecting})) j := by
    intro child j o
    simp [Ne.symm o]
  apply inv.write writes (by simp)
  case owners => constructor <;> simp
  case unformed => simp
  case fits =>
    intro res isLater
    rcases mem_add.mp isLater with lock | lock
    · rw [mem_singleton.mp lock]
      exact inv.books.fits_written here writes .unnamed
    · rw [mem_singleton.mp lock]
      exact inv.books.fits_unwritten parMember writes ne.symm (.child i)
  case children =>
    intro j child isLost
    by_cases here : child = i
    · subst here
      have atPar : j = dp := by
        by_contra o
        have old := inv.books.children j child (by simpa [Ne.symm o] using isLost)
        rw [parBefore] at old
        simp at old
      subst atPar
      exact ⟨parAfter, stays, by simp⟩
    · rw [lost child j here] at isLost
      have old := inv.books.children j child isLost
      rw [parElse child here]
      simpa using old
  case tree =>
    intro leaked none tree
    have formed := inv.books.none_in_frame (i := dp) (by simp) unformed_le
    apply tree.writeDotdot onDisk isDir dots rfl small'
    case target =>
      rwa [parOnDisk]
    case targetFormed => simp [debts, formed, ne]
    case pending =>
      intro j
      simp [debts]
      omega
    case nameless =>
      funext j
      simp [debts]
    case unformed =>
      intro j o
      simp [debts, Ne.symm o]
    case growing | fewer => simp [debts]
    case leaked => rfl
  case gone =>
    intro isCnt j jDir isGone
    rw [writes.type_eq] at jDir
    rw [store_removed] at isGone ⊢
    have o : j ≠ i := by
      intro eq
      rw [eq, stays] at isGone
      simp at isGone
    have old := (inv.exact isCnt).gone j jDir isGone
    have notPar : j ≠ dp := by
      intro eq
      have parStays := (inv.exact isCnt).expecting dp (by simp)
      rw [eq, parStays] at isGone
      simp at isGone
    rcases inv.tree with ⟨leaked, tree, _⟩
    have changed := upCount_change s.disk s.removed
      (s.store i (d.setEntry 1 (.make dotdot dp))).disk s.removed
      (tree.range i (by rw [onDisk]; exact alive)).2 parElse (fun _ _ => rfl) j
    rw [parBefore, parAfter] at changed
    simp only [Option.some.injEq, Ne.symm notPar, and_false, reduceCtorEq, if_false,
      add_zero] at changed
    refine ⟨changed.trans old.1, ?_⟩
    rw [writes.disk, update_of_ne o]
    exact old.2
  case listed =>
    intro isCnt j par jDir jStays notRoot up
    rw [writes.type_eq] at jDir
    rw [names]
    by_cases here : j = i
    · subst here
      rw [parAfter] at up
      cases up
      right
      simp
    · rw [parElse j here] at up
      rw [lost j par here]
      exact (inv.exact isCnt).listed j par jDir jStays notRoot up
  case expecting =>
    intro isCnt j expects
    apply (inv.exact isCnt).expecting j
    simp at expects ⊢
    omega

/-! ## Entries behind the dots -/

omit [DecidableEq Pid] in
theorem Consistent.writeEntry (inv : Consistent ninodes counting s (frame + needed))
    {entry : Dirent} (onDisk : s.disk dp = dir) (isDir : dir.type = .dir)
    (beyond : 2 ≤ slot) (isIn : slot ≤ dir.entries.length)
    (locked : 0 < amount locks needed dp) (owners : SameOwners needed later)
    (unformed : ∀ j, amount FsResource.unformed later j = amount FsResource.unformed needed j)
    (fits : ∀ res ∈ later, res.Fits (s.store dp (dir.setEntry slot entry)))
    (notDot : entry.inum ≠ 0 → namecmp entry.name dot = false)
    (target : entry.inum ≠ 0 → (s.disk entry.inum).type ≠ .free) (targetFormed : entry.inum ≠ 0 →
      amount FsResource.unformed (frame + needed) entry.inum = 0)
    (child : (s.disk entry.inum).type = .dir →
      (s.disk entry.inum).parent? = some dp ∧ s.removed entry.inum = false)
    (notRoot : entry.inum ≠ rootIno) (pending : ∀ j, j ≠ 0 →
      amount FsResource.pending later j + (if entry.inum = j then 1 else 0) =
        amount FsResource.pending needed j +
          if dir.entries[slot]?.map Dirent.inum = some j then 1 else 0)
    (nameless : ∀ j, (s.disk j).type = .dir →
      amount FsResource.nameless later j + (if entry.inum = j then 1 else 0) ≤
        amount FsResource.nameless needed j +
          if dir.entries[slot]?.map Dirent.inum = some j then 1 else 0)
    (children : ∀ j child, 0 < amount (misses child) (frame + later) j →
      (s.disk child).parent? = some j ∧ s.removed child = false ∧
        0 < amount FsResource.nameless (frame + later) child)
    (adds : counting → entry.inum ≠ 0 → s.removed dp = false)
    (keepsListed : ∀ j, (s.disk j).type = .dir → dir.entries[slot]?.map Dirent.inum = some j ∨
        0 < amount (misses j) needed dp → entry.inum = j ∨ 0 < amount (misses j) later dp)
    (elsewhere : ∀ j q, q ≠ dp → amount (misses j) later q = amount (misses j) needed q)
    (expects : ∀ j, amount FsResource.expects later j = amount FsResource.expects needed j) :
    Consistent ninodes counting (s.store dp (dir.setEntry slot entry)) (frame + later) := by
  have writes : Writes s (s.store dp (dir.setEntry slot entry)) dp _ := writes_store onDisk rfl
  have pars : ∀ j, ((s.store dp (dir.setEntry slot entry)).disk j).parent? =
      (s.disk j).parent? := by
    intro j
    by_cases here : j = dp
    · subst here
      rw [store_disk, update_self, onDisk]
      exact parent?_setEntry beyond isIn entry
    · simp [here]
  apply inv.write writes locked owners (fun j => le_of_eq (unformed j)) fits
  case children =>
    intro j child isLost
    rw [pars]
    exact children j child isLost
  case tree =>
    intro leaked none tree
    apply tree.setEntry onDisk isDir beyond isIn notDot target targetFormed child notRoot
    case pending =>
      intro j ne
      have balance := pending j ne
      simp only [debts, amount_add]
      omega
    case nameless =>
      intro j jDir
      have bound := nameless j jDir
      simp only [debts, amount_add]
      omega
    case unformed =>
      funext j
      simp only [debts, amount_add, unformed]
    case leaked => rfl
  case gone =>
    intro isCnt j jDir isGone
    rw [writes.type_eq] at jDir
    rw [store_removed] at isGone ⊢
    rw [upCount_congr pars]
    have pre := (inv.exact isCnt).gone j jDir isGone
    refine ⟨pre.1, ?_⟩
    by_cases here : j = dp
    · subst here
      rw [store_disk, update_self, isdirempty_iff]
      intro ix hit far has
      rw [getElem?_setEntry isIn] at has
      split at has
      · cases has
        by_contra ne
        rw [adds isCnt ne] at isGone
        simp at isGone
      · rw [onDisk] at pre
        exact (isdirempty_iff dir).mp pre.2 ix hit far has
    · rw [store_disk, update_of_ne here]
      exact pre.2
  case listed =>
    intro isCnt j par jDir stays notRoot up
    rw [writes.type_eq] at jDir
    rw [pars] at up
    have pre := (inv.exact isCnt).listed j par jDir stays notRoot up
    by_cases here : par = dp
    · subst here
      have counted := names_setEntry beyond isIn entry j
      rw [store_disk, update_self]
      rw [onDisk, amount_add] at pre
      rw [amount_add]
      have kept := keepsListed j jDir
      have oldNamed : dir.entries[slot]?.map Dirent.inum = some j → 0 < dir.names j := by
        intro h
        rcases map_eq_some_iff.mp h with ⟨hit, has, eq⟩
        exact (dir.names_pos_iff j).mpr ⟨slot, hit, beyond, has, eq⟩
      by_cases isNew : entry.inum = j
      · left
        rw [if_pos isNew] at counted
        split at counted
        · next old =>
          have pos := oldNamed old
          omega
        · omega
      · rw [if_neg isNew] at counted
        by_cases old : dir.entries[slot]?.map Dirent.inum = some j
        · have lost := (kept (.inl old)).resolve_left isNew
          exact .inr (by omega)
        rw [if_neg old] at counted
        rcases pre with named | missing
        · exact .inl (by omega)
        right
        by_cases inNeeded : 0 < amount (misses j) needed par
        · have lost := (kept (.inr inNeeded)).resolve_left isNew
          omega
        · omega
    · rwa [store_disk, update_of_ne here, amount_add, elsewhere j par here, ← amount_add]
  case expecting =>
    intro isCnt j isExpecting
    rw [amount_add, expects, ← amount_add] at isExpecting
    exact (inv.exact isCnt).expecting j isExpecting

variable {name : Name}

omit [DecidableEq Pid] in
theorem emptySlot_facts {tree : Debts}
    (h : Tree ninodes s.disk s.removed tree) (onDisk : s.disk dp = dir)
    (isDir : dir.type = .dir) (lost : dir.lookup name = none) (formed : tree.unformed dp = 0) :
    2 ≤ dir.emptySlot ∧ (∀ target, namecmp (make name target).name dot = false) ∧
    ∀ j, j ≠ 0 → dir.entries[dir.emptySlot]?.map Dirent.inum ≠ some j := by
  have diskDir : (s.disk dp).type = .dir := by rw [onDisk, isDir]
  have isFormed := h.formed dp diskDir formed
  have pos := (h.range dp (by simp [diskDir])).1
  rw [onDisk] at isFormed
  refine ⟨isFormed.two_le_emptySlot (ne_of_gt pos),
    isFormed.namecmp_of_missing (ne_of_gt pos) lost, ?_⟩
  intro j ne named
  rcases map_eq_some_iff.mp named with ⟨hit, has, eq⟩
  exact ne (eq ▸ emptySlot_spec has)

theorem executes_writei_link (small : ninodes ≤ 2 ^ 16)
    (isDir : dir.type = .dir) (missing : dir.lookup name = none) {owner : FsResource Pid}
    (isOwner : owner.inum = ip) (owns : 0 < owner.owners) (settled : owner.unformed = 0) :
    FsExecutes ninodes counting p ({owner} + ({.locked p dp dir .whole} + {.link ip}))
      (.writei dp dir.emptySlot (.make name ip)) fun written held =>
        (written = true → held = {owner} +
          {.locked p dp (dir.setEntry dir.emptySlot (.make name ip)) .whole}) ∧
        (written = false → held =
          {owner} + ({.locked p dp dir .whole} + {.link ip})) := by
  refine executes_writei (by simp : .locked p dp dir .whole ∈ (_ : FsHeld Pid)) ?_
  intro s frame inv ok cached onDisk alive isIn writes here
  have linkFits : (link ip).Fits s := inv.books.fits _ (by simp)
  have owned : 0 < amount FsResource.owners {owner} ip := by rwa [amount_singleton, if_pos isOwner]
  have ownerFormed : amount FsResource.unformed {owner} ip = 0 := by
    rw [amount_singleton, if_pos isOwner, settled]
  have formedTarget : amount FsResource.unformed
      (frame + ({owner} + ({.locked p dp dir .whole} + {.link ip}))) ip = 0 := by
    have others := inv.books.unformed_eq (i := ip) (by rw [amount_add]; omega)
    rw [amount_add, others, amount_add, ownerFormed]
    simp
  rw [← add_assoc] at inv here ⊢
  rcases inv.tree with ⟨leaked, tree, _⟩
  have exactly : (make name ip).inum = ip := by
    have inRange := (tree.range ip linkFits.1).2
    exact Nat.mod_eq_of_lt (by omega)
  have formedDp : (debts (frame + {owner} + ({.locked p dp dir .whole} + {.link ip}))
      leaked).unformed dp = 0 := by
    have others := inv.books.none_in_frame (i := dp) (by simp) unformed_le
    rw [debts_unformed, amount_add, others]
    simp
  rcases emptySlot_facts tree onDisk isDir missing formedDp with ⟨beyond, notDot, noOld⟩
  have isPositive := (tree.range ip linkFits.1).1
  apply inv.writeEntry onDisk isDir beyond isIn (by simp)
  case notDot => exact fun _ => notDot ip
  case owners => constructor <;> simp
  case fits =>
    intro res isLater
    rw [mem_singleton.mp isLater]
    exact inv.books.fits_written here writes .whole
  case target =>
    rw [exactly]
    exact fun _ => linkFits.1
  case targetFormed =>
    rw [exactly, add_assoc]
    exact fun _ => formedTarget
  case child =>
    rw [exactly]
    exact fun ipDir => absurd ipDir linkFits.2
  case notRoot =>
    rw [exactly]
    intro eq
    exact linkFits.2 (eq ▸ tree.root.1)
  case pending =>
    intro j ne0
    rw [exactly, if_neg (noOld j ne0)]
    simp
  case nameless =>
    intro j jDir
    have o : ip ≠ j := fun eq => linkFits.2 (eq ▸ jDir)
    rw [exactly, if_neg o]
    simp
  case children =>
    intro j child isMissing
    simpa using inv.books.children j child (by simpa using isMissing)
  case adds =>
    intro isCounting ne0
    have linked := (ok.2.2 isCounting).1.2 dp _ _ rfl ne0
    rw [cached] at linked
    exact inv.linked_stays isCounting here isDir rfl linked
  case keepsListed =>
    intro j jDir old
    have ne0 := (tree.range j (by simp [jDir])).1
    rcases old with named | missing
    · exact absurd named (noOld j (ne_of_gt ne0))
    · simp at missing
  case unformed | elsewhere | expects => simp

omit [DecidableEq Pid] in
theorem Books.child_unique (books : Books s (frame + needed)) (locked : 0 < amount locks needed dp)
    (par : (s.disk ip).parent? = some dp) {child : Inum}
    (isLost : 0 < amount (misses child) frame j) : child ≠ ip := by
  rintro rfl
  have up := (books.children j child (by rw [amount_add]; omega)).1
  rw [par, Option.some.injEq] at up
  subst up
  have none := books.none_in_frame locked (misses_le child)
  omega

theorem executes_writei_child (small : ninodes ≤ 2 ^ 16)
    (isDir : dir.type = .dir) (missing : dir.lookup name = none) :
    FsExecutes ninodes counting p ({.locked p dp dir (.child ip)} + {.locked p ip d .unnamed})
      (.writei dp dir.emptySlot (.make name ip)) fun written held => (written = true → held =
          {.locked p dp (dir.setEntry dir.emptySlot (.make name ip)) .whole} +
            {.locked p ip d .whole}) ∧ (written = false → held =
          {.locked p dp dir (.child ip)} + {.locked p ip d .unnamed}) := by
  have mem : .locked p dp dir (.child ip) ∈
    ({.locked p dp dir (.child ip)} + {.locked p ip d .unnamed} : FsHeld Pid) := by simp
  apply executes_writei mem
  intro s frame inv ok cached onDisk alive isIn writes here
  have childMember : .locked p ip d .unnamed ∈
    frame + ({.locked p dp dir (.child ip)} + {.locked p ip d .unnamed}) := by simp
  rcases inv.books.locked_inode childMember with ⟨_, childOnDisk, childAllocated⟩
  have ne := inv.books.locks_ne
  rcases inv.books.children dp ip (by simp) with ⟨parent, stays, _⟩
  rcases inv.tree with ⟨leaked, tree, _⟩
  have ipAllocated : (s.disk ip).type ≠ .free := by rw [childOnDisk]; exact childAllocated
  have exactly : (make name ip).inum = ip := by
    have inRange := (tree.range ip ipAllocated).2
    exact Nat.mod_eq_of_lt (by omega)
  have formedDp : (debts (frame + ({.locked p dp dir (.child ip)} +
      {.locked p ip d .unnamed})) leaked).unformed dp = 0 := by
    have others := inv.books.none_in_frame (i := dp) (by simp) unformed_le
    simp [others]
  rcases emptySlot_facts tree onDisk isDir missing formedDp with ⟨beyond, notDot, noOld⟩
  apply inv.writeEntry onDisk isDir beyond isIn (by simp)
  case notDot => exact fun _ => notDot ip
  case owners => constructor <;> simp
  case fits =>
    intro res isLater
    rcases mem_add.mp isLater with lock | lock
    · rw [mem_singleton.mp lock]
      exact inv.books.fits_written here writes .whole
    · rw [mem_singleton.mp lock]
      exact inv.books.fits_unwritten childMember writes ne.symm .whole
  case target =>
    rw [exactly]
    exact fun _ => ipAllocated
  case targetFormed =>
    have others := inv.books.none_in_frame (i := ip) (by simp) unformed_le
    rw [exactly]
    simp [others]
  case child =>
    rw [exactly]
    exact fun _ => ⟨parent, stays⟩
  case notRoot =>
    rw [exactly]
    intro eq
    have none := tree.rootName.2.1
    rw [← eq] at none
    simp at none
  case pending =>
    intro j ne0
    rw [exactly, if_neg (noOld j ne0)]
    simp
  case nameless =>
    intro j jDir
    have ne0 := (tree.range j (by simp [jDir])).1
    rw [exactly, if_neg (noOld j (ne_of_gt ne0))]
    simp
  case children =>
    intro j child isMissing
    have inFrame : 0 < amount (misses child) frame j := by simpa using isMissing
    have o := inv.books.child_unique (by simp) parent inFrame
    have before := inv.books.children j child (by rw [amount_add]; omega)
    simpa [Ne.symm o] using before
  case adds =>
    intro isCounting ne0
    have linked := (ok.2.2 isCounting).1.2 dp _ _ rfl ne0
    rw [cached] at linked
    exact inv.linked_stays isCounting here isDir rfl linked
  case keepsListed =>
    intro j jDir old
    have ne0 := (tree.range j (by simp [jDir])).1
    rcases old with named | missing
    · exact absurd named (noOld j (ne_of_gt ne0))
    left
    rw [exactly]
    by_contra o
    simp [o] at missing
  case elsewhere =>
    intro j q o
    simp [Ne.symm o]
  case unformed | expects => simp

/-! ## Removing an entry -/

theorem empty_ne (ne : j ≠ 0) : empty.inum ≠ j := fun eq => ne eq.symm

omit [DecidableEq Pid] in
theorem lookup_facts {frame : FsHeld Pid} (inv : Consistent ninodes counting s
      (frame + ({.locked p dp dir .whole} + {.locked p ip d .whole})))
    (onDisk : s.disk dp = dir) (isDir : dir.type = .dir) (notDot : namecmp name dot = false)
    (notDotdot : namecmp name dotdot = false) (hit : dir.lookup name = some (ip, slot)) :
    2 ≤ slot ∧ dir.entries[slot]?.map Dirent.inum = some ip := by
  rcases inv.tree with ⟨leaked, tree, _⟩
  have others := inv.books.none_in_frame (i := dp) (by simp) unformed_le
  have isFormed := tree.formed dp (by rw [onDisk, isDir]) (by simp [others])
  rw [onDisk] at isFormed
  rcases lookup_eq_some hit with ⟨entry, has, eq, _⟩
  refine ⟨isFormed.two_le_of_lookup notDot notDotdot hit, ?_⟩
  rw [has, map_some, eq]

theorem executes_writei_unlink (isDir : dir.type = .dir)
    (notDot : namecmp name dot = false) (notDotdot : namecmp name dotdot = false)
    (found : dir.lookup name = some (ip, slot)) (notDir : d.type ≠ .dir) :
    FsExecutes ninodes counting p
      ({.locked p dp dir .whole} + {.locked p ip d .whole}) (.writei dp slot .empty)
      fun written held =>
        (written = true → held = {.locked p dp (dir.setEntry slot .empty) .whole} +
          ({.locked p ip d .whole} + {.link ip})) ∧ (written = false → held =
          {.locked p dp dir .whole} + {.locked p ip d .whole}) := by
  refine executes_writei (by simp : .locked p dp dir .whole ∈ (_ : FsHeld Pid)) ?_
  intro s frame inv ok cached onDisk alive isIn writes here
  have targetMember : .locked p ip d .whole ∈
    frame + ({.locked p dp dir .whole} + {.locked p ip d .whole}) := by simp
  rcases inv.books.locked_inode targetMember with ⟨_, targetOnDisk, targetAllocated⟩
  have ne := inv.books.locks_ne
  rcases inv.tree with ⟨leaked, tree, _⟩
  rcases lookup_facts inv onDisk isDir notDot notDotdot found with ⟨beyond, old⟩
  apply inv.writeEntry onDisk isDir beyond isIn (by simp)
  case notDot => exact fun ne0 => absurd rfl ne0
  case owners => constructor <;> simp [add_comm]
  case fits =>
    intro res isLater
    rcases mem_add.mp isLater with lock | rest
    · rw [mem_singleton.mp lock]
      exact inv.books.fits_written here writes .whole
    rcases mem_add.mp rest with lock | link
    · rw [mem_singleton.mp lock]
      exact inv.books.fits_unwritten targetMember writes ne.symm .whole
    · rw [mem_singleton.mp link, FsResource.Fits, writes.type_eq, targetOnDisk]
      exact ⟨targetAllocated, notDir⟩
  case target | targetFormed => exact fun isNonzero => absurd rfl isNonzero
  case child =>
    intro (zeroDir : (s.disk 0).type = .dir)
    exact absurd (tree.range 0 (by simp [zeroDir])).1 (lt_irrefl 0)
  case notRoot => simp [empty, rootIno]
  case pending =>
    intro j isNonzero
    rw [old, if_neg (empty_ne isNonzero)]
    simp
  case nameless =>
    intro j jDir
    have isNonzero := (tree.range j (by simp [jDir])).1
    rw [if_neg (empty_ne (ne_of_gt isNonzero))]
    simp
  case children =>
    intro j child isMissing
    simpa using inv.books.children j child (by simpa using isMissing)
  case adds => exact fun _ isNonzero => absurd rfl isNonzero
  case keepsListed =>
    rintro j jDir (named | missing)
    · rw [old, Option.some.injEq] at named
      rw [← named, targetOnDisk] at jDir
      exact absurd jDir notDir
    · simp at missing
  case unformed | elsewhere | expects => simp

theorem executes_writei_rmdir (isDir : dir.type = .dir)
    (notDot : namecmp name dot = false) (notDotdot : namecmp name dotdot = false)
    (found : dir.lookup name = some (ip, slot)) (childDir : d.type = .dir) :
    FsExecutes ninodes counting p
      ({.locked p dp dir .whole} + {.locked p ip d .whole}) (.writei dp slot .empty)
      fun written held =>
        (written = true → held = {.locked p dp (dir.setEntry slot .empty) (.child ip)} +
          {.locked p ip d .unnamed}) ∧ (written = false → held =
          {.locked p dp dir .whole} + {.locked p ip d .whole}) := by
  refine executes_writei (by simp : .locked p dp dir .whole ∈ (_ : FsHeld Pid)) ?_
  intro s frame inv ok cached onDisk alive isIn writes here
  have targetMember : .locked p ip d .whole ∈
    frame + ({.locked p dp dir .whole} + {.locked p ip d .whole}) := by simp
  rcases inv.books.locked_inode targetMember with ⟨_, targetOnDisk, targetAllocated⟩
  have ne := inv.books.locks_ne
  rcases inv.tree with ⟨leaked, tree, _⟩
  rcases lookup_facts inv onDisk isDir notDot notDotdot found with ⟨beyond, old⟩
  have isChild : (s.disk ip).parent? = some dp ∧ s.removed ip = false := by
    rcases map_eq_some_iff.mp old with ⟨entry, has, eq⟩
    rw [← onDisk] at has
    have subdir := tree.subdir dp slot entry beyond has (by rw [eq, targetOnDisk, childDir])
    rwa [eq] at subdir
  apply inv.writeEntry onDisk isDir beyond isIn (by simp)
  case notDot => exact fun ne0 => absurd rfl ne0
  case owners => constructor <;> simp
  case fits =>
    intro res isLater
    rcases mem_add.mp isLater with lock | lock
    · rw [mem_singleton.mp lock]
      exact inv.books.fits_written here writes (.child ip)
    · rw [mem_singleton.mp lock]
      exact inv.books.fits_unwritten targetMember writes ne.symm .unnamed
  case target | targetFormed => exact fun isNonzero => absurd rfl isNonzero
  case child =>
    intro (zeroDir : (s.disk 0).type = .dir)
    exact absurd (tree.range 0 (by simp [zeroDir])).1 (lt_irrefl 0)
  case notRoot => simp [empty, rootIno]
  case pending =>
    intro j isNonzero
    rw [old, if_neg (empty_ne isNonzero)]
    simp
  case nameless =>
    intro j jDir
    have isNonzero := (tree.range j (by simp [jDir])).1
    rw [old, if_neg (empty_ne (ne_of_gt isNonzero))]
    simp
  case children =>
    intro j child isMissing
    by_cases inFrame : 0 < amount (misses child) frame j
    · have before := inv.books.children j child (by rw [amount_add]; omega)
      refine ⟨before.1, before.2.1, ?_⟩
      have pos := before.2.2
      simp at pos
      rw [amount_add]
      omega
    · have atDp : dp = j ∧ ip = child := by
        rw [amount_add] at isMissing
        by_contra o
        rw [not_and_or] at o
        rcases o with o | o <;> simp [o] at isMissing <;> omega
      rcases atDp with ⟨rfl, rfl⟩
      exact ⟨isChild.1, isChild.2, by simp⟩
  case adds => exact fun _ isNonzero => absurd rfl isNonzero
  case keepsListed =>
    intro j jDir removes
    right
    rcases removes with named | missing
    · rw [old, Option.some.injEq] at named
      simp [named]
    · simp at missing
  case elsewhere =>
    intro j q o
    simp [Ne.symm o]
  case unformed | expects => simp

theorem executes_decNlink_parent (empty : d.isdirempty = true) : FsExecutes ninodes counting p
      ({.locked p dp dir (.child ip)} + {.locked p ip d .unnamed}) (.decNlink dp (some ip))
      fun _ held => held = {.locked p dp { dir with nlink := dir.nlink - 1 } .whole} +
        {.locked p ip d .orphan} := by
  apply Ledger.Executes.of_outcomes
  case tolerates =>
    intro s frame why inv ok ran
    simp [fsSystem, exec] at ran
  intro s frame r after inv ok ran
  have here : .locked p dp dir (.child ip) ∈
    frame + ({.locked p dp dir (.child ip)} + {.locked p ip d .unnamed}) := by simp
  have childMember : .locked p ip d .unnamed ∈
    frame + ({.locked p dp dir (.child ip)} + {.locked p ip d .unnamed}) := by simp
  rcases inv.books.locked_inode here with ⟨cached, onDisk, alive⟩
  rcases inv.books.locked_inode childMember with ⟨_, childOnDisk, childAllocated⟩
  have ne := inv.books.locks_ne
  rcases inv.books.children dp ip (by simp) with ⟨parent, stays, _⟩
  have written : after = { s.store dp { dir with nlink := dir.nlink - 1 } with
      removed := update s.removed ip true } := by
    cases ran
    rw [cached]
  have writes : Writes s after dp { dir with nlink := dir.nlink - 1 } := by
    subst written
    exact ⟨rfl, rfl, rfl, rfl, rfl, by rw [onDisk]⟩
  have removed : after.removed = update s.removed ip true := by rw [written]
  have sameEntries : ∀ j, (after.disk j).entries = (s.disk j).entries := by
    intro j
    rw [writes.disk]
    by_cases atDp : j = dp
    · rw [atDp, update_self, onDisk]
    · rw [update_of_ne atDp]
  have parents : ∀ j, (after.disk j).parent? = (s.disk j).parent? := by
    intro j
    simp only [parent?, sameEntries]
  have childDir : (s.disk ip).type = .dir := by
    by_contra notDir
    rcases inv.tree with ⟨leaked, tree, _⟩
    rw [parent?, tree.contents ip notDir] at parent
    simp at parent
  have ups : ∀ j, upCount ninodes after.disk after.removed j ≤
      upCount ninodes s.disk s.removed j := by
    intro j
    rcases inv.tree with ⟨leaked, tree, _⟩
    have changed := upCount_change s.disk s.removed after.disk after.removed
      (tree.range ip (by simp [childDir])).2 (fun o _ => parents o)
      (fun o isOther => by rw [removed, update_of_ne isOther]) j
    rw [removed, update_self] at changed
    simp only [Bool.true_eq_false, false_and, if_false] at changed
    rw [removed]
    omega
  have namelessOnce := inv.books.none_in_frame (i := ip) (by simp) nameless_le
  have formedOnce := inv.books.none_in_frame (i := ip) (by simp) unformed_le
  have expectsOnce := inv.books.none_in_frame (i := ip) (by simp) expects_le
  refine ⟨_, ?_, rfl⟩
  apply inv.write writes (by simp)
  case owners => constructor <;> simp
  case unformed => simp
  case fits =>
    intro res isLater
    rcases mem_add.mp isLater with lock | lock
    · rw [mem_singleton.mp lock]
      exact inv.books.fits_written here writes .whole
    · rw [mem_singleton.mp lock]
      exact inv.books.fits_unwritten childMember writes ne.symm .orphan
  case children =>
    intro j child isMissing
    have inFrame : 0 < amount (misses child) frame j := by simpa using isMissing
    have o := inv.books.child_unique (by simp) parent inFrame
    have old := inv.books.children j child (by rw [amount_add]; omega)
    rw [parents, removed, update_of_ne o]
    simpa [Ne.symm o] using old
  case tree =>
    intro leaked none tree
    rw [writes.disk, removed]
    have counted := tree.links dp (by rw [onDisk]; exact alive)
    have up := upCount_pos (tree.range ip (by simp [childDir])).2 stays parent
    rw [onDisk] at counted
    apply tree.removeChild (by rw [onDisk]) (by rw [onDisk]) _ childDir parent stays
    case isNameless => simp [namelessOnce]
    case isFormed => simp [formedOnce]
    case nameless => simp
    case pending | unformed =>
      funext j
      simp
    case leaked => rfl
    rw [onDisk]
    exact toNat_decrement dir.nlink (by omega)
  case gone =>
    intro isCounting j jDir isGone
    have exact := inv.exact isCounting
    rw [writes.type_eq] at jDir
    rw [isdirempty, sameEntries]
    have fewer := ups j
    by_cases isChild : j = ip
    · subst isChild
      rw [childOnDisk]
      refine ⟨?_, empty⟩
      -- A directory with this one as its parent would be listed in it.
      have childless : upCount ninodes s.disk s.removed j = 0 := by
        rw [upCount, Finset.sum_eq_zero]
        intro c _
        rw [if_neg]
        intro isParent
        rcases inv.tree with ⟨leaked, tree, _⟩
        have cDir : (s.disk c).type = .dir := by
          by_contra notDir
          have none := isParent.2
          rw [parent?, tree.contents c notDir] at none
          simp at none
        have notRoot : c ≠ rootIno := by
          intro eq
          have up := isParent.2
          rw [eq, tree.root.2.1, Option.some.injEq] at up
          have named := tree.rootName.2.1
          rw [up] at named
          simp at named
        rcases exact.listed c j cDir isParent.1 notRoot isParent.2 with named | missing
        · rcases ((s.disk j).names_pos_iff c).mp named with
            ⟨slot, entry, beyond, has, eq⟩
          rw [childOnDisk] at has
          have isZero := (d.isdirempty_iff).mp empty slot entry beyond has
          have pos := (tree.range c (by simp [cDir])).1
          rw [← eq, isZero] at pos
          simp at pos
        · have none := inv.books.none_in_frame (i := j) (by simp) (misses_le c)
          simp [none, ne] at missing
      omega
    · rw [removed, update_of_ne isChild] at isGone
      have old := exact.gone j jDir isGone
      exact ⟨by omega, old.2⟩
  case listed =>
    intro isCounting j up jDir jStays notRoot isParent
    rw [writes.type_eq] at jDir
    have o : j ≠ ip := by
      intro eq
      rw [removed, eq, update_self] at jStays
      simp at jStays
    rw [removed, update_of_ne o] at jStays
    rw [parents] at isParent
    rw [names, sameEntries]
    have old := (inv.exact isCounting).listed j up jDir jStays notRoot isParent
    simpa [Ne.symm o, names] using old
  case expecting =>
    intro isCounting j isExpecting
    have inFrame : 0 < amount expects frame j := by simpa using isExpecting
    have o : j ≠ ip := by
      intro eq
      rw [eq] at inFrame
      omega
    rw [removed, update_of_ne o]
    exact (inv.exact isCounting).expecting j (by rw [amount_add]; omega)

end Xv6
