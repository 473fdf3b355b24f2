import Xv6.Sysfile.Entries

/-! # Allocating and freeing inodes

The steps of `ialloc` and `iput` that change the type of an inode on disk. -/

namespace Xv6

open Foundation Function Consistent Dinode FsResource FsState Multiset

variable {Pid : Type} {ninodes : Nat} {counting : Prop} {s after : FsState Pid}
  {frame needed later held : FsHeld Pid} {p : Pid} {i : Inum}

/-! ## Free inodes -/

theorem Books.fits_of_free (books : Books s held) (isFree : (s.disk i).type = .free)
    {res : FsResource Pid} (mem : res ∈ held) (about : res.inum = i) : res = .dropping i := by
  have fits := books.fits res mem
  subst about
  cases res with
  | ref j => exact absurd isFree fits
  | dropping j => rfl
  | link j => exact absurd isFree fits.1
  | marked j type => exact absurd ((congrArg Dinode.type fits.1).symm.trans isFree) fits.2
  | newborn j type => exact absurd ((congrArg Dinode.type fits.1).symm.trans isFree) fits.2
  | locked q j d hold =>
    exact absurd ((congrArg Dinode.type fits.2.2.1).symm.trans isFree) fits.2.2.2

theorem Books.amount_of_free (books : Books s held) (isFree : (s.disk i).type = .free) {measure :
    FsResource Pid → Nat} (none : measure (.dropping i) = 0) : amount measure held i = 0 := by
  by_contra pos
  rcases exists_of_amount_pos (Nat.pos_of_ne_zero pos) with
    ⟨res, mem, about, counts⟩
  rw [books.fits_of_free isFree mem about] at counts
  omega

theorem FsResource.Fits.of_ne {res : FsResource Pid} (fits : res.Fits s) (o : res.inum ≠ i)
    (disk : ∀ j, j ≠ i → after.disk j = s.disk j) (lock : after.lock = s.lock)
    (valid : ∀ j, j ≠ i → after.valid j = s.valid j) : res.Fits after := by
  cases res with
  | dropping j => trivial
  | locked q j d hold =>
    simpa only [FsResource.Fits, disk j o, lock, valid j o] using fits
  | ref j => simpa only [FsResource.Fits, disk j o] using fits
  | link j => simpa only [FsResource.Fits, disk j o] using fits
  | marked j type => simpa only [FsResource.Fits, disk j o] using fits
  | newborn j type => simpa only [FsResource.Fits, disk j o] using fits

/-! ## Allocation -/

section

variable {type : InodeType}

theorem Consistent.mark (inv : Consistent ninodes counting s frame)
    (isFree : (s.disk i).type = .free) (pos : 0 < i) (isIn : i < ninodes) (alive : type ≠ .free)
    (unreferenced : counting → s.ref i = 0) (disk : after.disk = update s.disk i (.blank type))
    (removed : after.removed = update s.removed i false) (inode : after.inode = s.inode)
    (ref : after.ref = s.ref) (lock : after.lock = s.lock) (valid : after.valid = s.valid) :
    Consistent ninodes counting after (frame + {.marked i type}) := by
  have books := inv.books
  have diskElse : ∀ j, j ≠ i → after.disk j = s.disk j := by
    intro j o
    rw [disk, update_of_ne o]
  have noEnts : (s.disk i).entries = [] := by
    rcases inv.tree with ⟨leaked, tree, _⟩
    exact tree.contents i (by simp [isFree])
  have entries : ∀ j, (after.disk j).entries = (s.disk j).entries := by
    intro j
    by_cases here : j = i
    · rw [here, noEnts, disk, update_self]
      rfl
    · rw [diskElse j here]
  have pars : ∀ j, (after.disk j).parent? = (s.disk j).parent? := by
    intro j
    simp only [parent?, entries]
  have noPar : (s.disk i).parent? = none := by simp [parent?, noEnts]
  have unowned : amount owners frame i = 0 := books.amount_of_free isFree rfl
  constructor
  case books =>
    constructor
    case refs =>
      intro j
      rw [ref, books.refs]
      simp
    case once =>
      intro j
      simpa using books.once j
    case unlocked =>
      intro j none
      rw [lock]
      exact books.unlocked j (by simpa using none)
    case valid =>
      intro j isVal
      rw [valid] at isVal
      have pre := books.valid j isVal
      have o : j ≠ i := by
        intro eq
        exact pre.2 (eq ▸ isFree)
      rwa [inode, diskElse j o]
    case alone =>
      intro j growing
      by_cases here : i = j
      · subst here
        simp [unowned]
      · simp only [amount_add, amount_marked, if_neg here, add_zero] at growing ⊢
        exact books.alone j growing
    case fits =>
      intro res mem
      rcases mem_add.mp mem with old | new
      · by_cases about : res.inum = i
        · rw [books.fits_of_free isFree old about]
          trivial
        · exact (books.fits res old).of_ne about diskElse lock (fun _ _ => by rw [valid])
      · rw [mem_singleton] at new
        subst new
        rw [FsResource.Fits, disk, update_self]
        exact ⟨rfl, alive⟩
    case children =>
      intro j child isLost
      have pre := books.children j child (by simpa using isLost)
      have o : child ≠ i := by
        intro eq
        rw [eq, noPar] at pre
        simp at pre
      rw [pars, removed, update_of_ne o]
      simpa using pre
  case tree =>
    rcases inv.tree with ⟨leaked, tree, none⟩
    refine ⟨update leaked i 0, ?_, ?_⟩
    · rw [disk, removed]
      apply tree.mark isFree pos isIn
      case pending | nameless =>
        funext j
        simp
      case pendHere | namelessHere => exact books.amount_of_free isFree rfl
      case unformed =>
        intro j
        simp [eq_comm]
      case leaked =>
        intro j o
        simp [o]
      case leakedHere => simp
    · intro isCnt
      rw [none isCnt]
      exact update_eq_self i 0
  case exact =>
    intro isCnt
    have exact := inv.exact isCnt
    constructor
    case gone =>
      intro j jDir isGone
      have o : j ≠ i := by
        intro eq
        rw [eq, removed, update_self] at isGone
        simp at isGone
      have changed := upCount_change s.disk s.removed after.disk after.removed
        isIn (fun k _ => pars k)
        (fun k isO => by rw [removed, update_of_ne isO]) j
      rw [pars, noPar] at changed
      simp only [reduceCtorEq, and_false, if_false, add_zero] at changed
      rw [changed, diskElse j o]
      rw [diskElse j o] at jDir
      rw [removed, update_of_ne o] at isGone
      exact exact.gone j jDir isGone
    case listed =>
      intro j par jDir stays notRoot up
      rw [pars] at up
      have o : j ≠ i := by
        intro eq
        rw [eq, noPar] at up
        simp at up
      rw [diskElse j o] at jDir
      rw [removed, update_of_ne o] at stays
      rw [names, entries]
      simpa [names] using exact.listed j par jDir stays notRoot up
    case expecting =>
      intro j isExpecting
      have inFrame : 0 < amount expects frame j := by simpa using isExpecting
      have o : j ≠ i := by
        intro eq
        rw [eq, books.amount_of_free isFree rfl] at inFrame
        omega
      rw [removed, update_of_ne o]
      exact exact.expecting j inFrame
    case referenced =>
      intro j isAlloc cut
      by_cases here : j = i
      · subst here
        simp
      rw [diskElse j here] at isAlloc cut
      rw [valid]
      simpa [Ne.symm here] using exact.referenced j isAlloc cut
    case dropped =>
      intro j dropping
      have inFrame : 0 < amount drops frame j := by simpa using dropping
      have o : j ≠ i := by
        intro eq
        rw [eq] at inFrame
        have none := books.refs i
        have bound : amount drops frame i ≤ amount references frame i := by
          apply amount_le_amount
          intro res
          cases res <;> simp
        rw [unreferenced isCnt] at none
        omega
      rw [diskElse j o]
      exact exact.dropped j inFrame

variable [DecidableEq Pid]

theorem executes_iallocMark (pos : 0 < i) (isIn : i < ninodes) (alive : type ≠ .free) :
    FsExecutes ninodes counting p 0 (.iallocMark i type) fun marked held => (marked = true →
    held = {.marked i type}) ∧ (marked = false → held = 0) := by
  apply Ledger.Executes.of_outcomes
  · intro s frame r after inv ok ran
    rw [add_zero] at inv
    rcases exec_iallocMark_ok ninodes p ran with
      ⟨isMarked, isFree, eq⟩ | ⟨unmarked, eq⟩
    · subst eq
      refine ⟨{.marked i type}, ?_, fun _ => rfl, ?_⟩
      · exact mark inv isFree pos isIn alive (fun isCnt => (ok.2.2 isCnt).2 i type rfl isFree)
          rfl rfl rfl rfl rfl rfl
      · intro isFalse
        cases isMarked.symm.trans isFalse
    · subst eq
      refine ⟨0, by rwa [add_zero], ?_, fun _ => rfl⟩
      intro isTrue
      cases unmarked.symm.trans isTrue
  · intro s frame why inv ok ran
    exact absurd ran (exec_iallocMark_panic ninodes p)

end

/-! ## Freeing -/

section

theorem amount_eq_zero {measure : FsResource Pid → Nat}
    (none : ∀ res ∈ held, res.inum ≠ i) : amount measure held i = 0 := by
  by_contra pos
  rcases exists_of_amount_pos (Nat.pos_of_ne_zero pos) with
    ⟨res, mem, about, _⟩
  exact none res mem about

theorem nameless_le_pending (held : FsHeld Pid) (inum : Inum) :
    amount nameless held inum ≤ amount pending held inum := by
  apply amount_le_amount
  intro res
  cases res with
  | locked p i d hold => cases hold <;> simp
  | _ => simp

section

variable (inv : Consistent ninodes counting s (frame + {.ref i}))
include inv

theorem Consistent.last (one : s.ref i = 1) (cut : (s.disk i).nlink = 0) :
    ∀ res ∈ frame, res.inum ≠ i := by
  intro res mem about
  have books := inv.books
  have alive : (ref i).Fits s := books.mem_needed (mem_singleton_self _)
  have unreferenced : amount references frame i = 0 := by
    have count := books.refs i
    simp only [amount_add, amount_ref, if_true, references] at count
    omega
  have noReference : res.references = 0 := by
    have counted := le_amount references mem
    rw [about] at counted
    omega
  cases res with
  | link j =>
    rcases inv.tree with ⟨leaked, tree, _⟩
    have counted : 1 ≤ amount pending frame i := about ▸ le_amount pending mem
    have linked := tree.links i alive
    rw [cut, debts_pending, amount_add] at linked
    change _ = 0 at linked
    omega
  | marked j type => exact books.fresh_ne (by simp) mem (by simp) about
  | _ => simp at noReference

theorem Consistent.removed_of_unlinked (isCounting : counting)
    (isDir : (s.disk i).type = .dir) (unlinked : (s.disk i).nlink = 0) : s.removed i = true := by
  rcases inv.tree with ⟨leaked, tree, _⟩
  have books := inv.books
  have linked := tree.links i (by simp [isDir])
  rw [unlinked, debts_pending] at linked
  change _ = 0 at linked
  have formed := books.unformed_eq (by simp : 0 < amount owners {.ref i} i)
  rcases tree.formed i isDir (by simp [formed]) with ⟨_, parent, _, up⟩
  have isParent : (s.disk i).parent? = some parent := by simp [parent?, up]
  by_contra notRemoved
  have stays : s.removed i = false := by simpa using notRemoved
  have notRoot : i ≠ rootIno := by
    intro eq
    have pos := tree.root_linked
    rw [← eq, unlinked] at pos
    simp at pos
  rcases (inv.exact isCounting).listed i parent isDir stays notRoot isParent with
    named | missing
  · rcases ((s.disk parent).names_pos_iff i).mp named with
      ⟨slot, entry, beyond, has, eq⟩
    have counted := tree.nameCount_pos beyond has
    rw [eq] at counted
    omega
  · have nameless := (books.children parent i missing).2.2
    have bound := nameless_le_pending (frame + {.ref i}) i
    omega

theorem Consistent.names_nothing (isCnt : counting) (cut : (s.disk i).nlink = 0) {j : Inum} (ne :
    j ≠ 0) : (s.disk i).names j = 0 ∧ ¬ (s.removed i = false ∧ (s.disk i).parent? = some j) := by
  by_cases isDir : (s.disk i).type = .dir
  · have gone := inv.removed_of_unlinked isCnt isDir cut
    have empty := ((inv.exact isCnt).gone i isDir gone).2
    exact ⟨names_of_isdirempty empty ne, by simp [gone]⟩
  rcases inv.tree with ⟨leaked, tree, _⟩
  have noEnts := tree.contents i isDir
  simp [names, parent?, noEnts]

theorem Consistent.free (frees : s.Frees i) (alone : ∀ j, j ≠ i → (s.disk j).parent? ≠ some i)
    (disk : after.disk = update s.disk i (s.freed i))
    (inode : after.inode = update s.inode i (s.freed i)) (removed : after.removed = s.removed)
    (ref : after.ref = s.ref) (lock : after.lock = s.lock)
    (valid : after.valid = update s.valid i false) :
    Consistent ninodes counting after (frame + {.dropping i}) := by
  have books := inv.books
  have shared := (books.valid i frees.2.1).1
  have alive := (books.valid i frees.2.1).2
  have cut : (s.disk i).nlink = 0 := shared ▸ frees.2.2
  have others := inv.last frees.1 cut
  have diskElse : ∀ j, j ≠ i → after.disk j = s.disk j := by
    intro j o
    rw [disk, update_of_ne o]
  have valElse : ∀ j, j ≠ i → after.valid j = s.valid j := by
    intro j o
    rw [valid, update_of_ne o]
  have typeHere : (after.disk i).type = .free := by
    rw [disk, update_self]
    rfl
  constructor
  case books =>
    constructor
    case refs =>
      intro j
      rw [ref, books.refs]
      simp
    case once =>
      intro j
      simpa using books.once j
    case unlocked =>
      intro j none
      rw [lock]
      exact books.unlocked j (by simpa using none)
    case valid =>
      intro j isVal
      have o : j ≠ i := by
        intro eq
        simp [valid, eq] at isVal
      rw [valElse j o] at isVal
      rw [inode, update_of_ne o, diskElse j o]
      exact books.valid j isVal
    case alone =>
      intro j growing
      have inFrame : 0 < amount FsResource.unformed frame j := by simpa using growing
      have o : i ≠ j := by
        intro eq
        rw [← eq, amount_eq_zero others] at inFrame
        omega
      simpa [o] using books.alone j (by simpa using inFrame)
    case fits =>
      intro res mem
      rcases mem_add.mp mem with old | new
      · exact (books.mem_frame old).of_ne (others res old) diskElse lock valElse
      rw [mem_singleton] at new
      subst new
      trivial
    case children =>
      intro j child isLost
      have pre := books.children j child (by simpa using isLost)
      have nameless : 0 < amount FsResource.nameless frame child := by simpa using pre.2.2
      have o : child ≠ i := by
        intro eq
        rw [eq, amount_eq_zero others] at nameless
        omega
      rw [diskElse child o, removed]
      exact ⟨pre.1, pre.2.1, by simpa using nameless⟩
  case tree =>
    rcases inv.tree with ⟨leaked, tree, none⟩
    refine ⟨fun j => if (s.disk j).type = .free then 0 else
      leaked j + (s.disk i).names j +
        if s.removed i = false ∧ (s.disk i).parent? = some j then 1 else 0, ?_, ?_⟩
    · rw [disk, removed]
      apply tree.free alive cut alone
      case isFree | empty => rfl
      case pending | nameless | unformed =>
        funext j
        simp
      case leaked =>
        intro j isAlloc
        simp [isAlloc]
    · intro isCnt
      funext j
      by_cases isFree : (s.disk j).type = .free
      · simp [isFree]
      have pos := (tree.range j isFree).1
      rcases inv.names_nothing isCnt cut (ne_of_gt pos) with
        ⟨unnamed, notParent⟩
      simp [isFree, none isCnt, unnamed, notParent]
  case exact =>
    intro isCnt
    have exact := inv.exact isCnt
    constructor
    case gone =>
      intro j jDir isGone
      have o : j ≠ i := by
        intro eq
        rw [eq, typeHere] at jDir
        simp at jDir
      rw [diskElse j o] at jDir ⊢
      rw [removed] at isGone ⊢
      rcases exact.gone j jDir isGone with ⟨noChildren, empty⟩
      refine ⟨?_, empty⟩
      rcases inv.tree with ⟨leaked, tree, _⟩
      have changed := upCount_change s.disk s.removed after.disk s.removed
        (tree.range i alive).2 (fun k isO => by rw [diskElse k isO])
        (fun _ _ => rfl) j
      have noPar : (after.disk i).parent? = none := by
        rw [disk, update_self]
        rfl
      simp only [noPar, reduceCtorEq, and_false, if_false] at changed
      omega
    case listed =>
      intro j par jDir stays notRoot up
      have o : j ≠ i := by
        intro eq
        rw [eq, typeHere] at jDir
        simp at jDir
      rw [diskElse j o] at jDir up
      rw [removed] at stays
      have oPar : par ≠ i := by
        intro eq
        exact alone j o (eq ▸ up)
      rw [diskElse par oPar]
      simpa using exact.listed j par jDir stays notRoot up
    case expecting =>
      intro j isExpecting
      rw [removed]
      exact exact.expecting j (by simpa using isExpecting)
    case referenced =>
      intro j isAlloc noLinks
      have o : j ≠ i := by
        intro eq
        exact isAlloc (eq ▸ typeHere)
      rw [diskElse j o] at isAlloc noLinks
      rw [valElse j o]
      simpa [Ne.symm o] using exact.referenced j isAlloc noLinks
    case dropped =>
      intro j dropping
      by_cases here : j = i
      · rw [here, typeHere]
      · rw [diskElse j here]
        exact exact.dropped j (by simpa [Ne.symm here] using dropping)

end

variable [DecidableEq Pid]

theorem executes_iputFree : FsExecutes ninodes counting p {.ref i} (.iputFree i)
    fun frees held => (frees = true → held = {.dropping i}) ∧ (frees = false → held = 0) := by
  apply Ledger.Executes.of_outcomes
  · intro s frame r after inv ok ran
    rcases exec_iputFree_ok ninodes p ran with
      ⟨isFreed, frees, eq⟩ | ⟨notFreed, stays, eq⟩
    · subst eq
      refine ⟨{.dropping i}, ?_, fun _ => rfl, ?_⟩
      · exact free inv frees (ok.1 i rfl frees) rfl rfl rfl rfl rfl rfl
      · intro isFalse
        cases isFreed.symm.trans isFalse
    · subst eq
      refine ⟨0, ?_, ?_, fun _ => rfl⟩
      · rw [add_zero]
        exact lose inv rfl rfl rfl rfl rfl rfl (.inl ⟨rfl, stays⟩)
      · intro isTrue
        cases notFreed.symm.trans isTrue
  · intro s frame why inv ok ran
    exact absurd ran (exec_iputFree_panic ninodes p)

end

end Xv6
