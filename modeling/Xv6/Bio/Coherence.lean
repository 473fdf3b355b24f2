import Xv6.Bio.Bio
import Xv6.Foundation.Tally

/-! # Coherence of the buffer cache

Each process holds references: to buffers that it got from `bread`, and to the
one that its current call has looked up or is about to give back. The
invariant counts them, and relates the buffers, the disk and the contents that
holders have stored. -/

namespace Xv6

open Foundation Function Or

/-! ## What a process holds -/

/-- How far a call has come with the buffer it refers to. -/
inductive BufStage
  | waiting
  | locked
  | invalid
  | loaded
  | releasing
deriving DecidableEq

/-- The stages in which the process holds the buffer's lock. -/
def BufStage.owns : BufStage → Bool
  | .waiting | .releasing => false
  | .locked | .invalid | .loaded => true

/-- The reference of the call in progress. -/
structure Pending where
  b : BufIndex
  blockno : Nat
  stage : BufStage

structure BioToken where
  held : Holdings
  pending : Option Pending

namespace BioToken

def refersTo (b : BufIndex) : Option Pending → Nat
  | some pending => if pending.b = b then 1 else 0
  | none => 0

/-- The references of a process to one buffer. -/
def refs (b : BufIndex) (tok : BioToken) : Nat :=
  (tok.held b).isSome.toNat + refersTo b tok.pending

/-- The process holds the lock of the buffer. -/
def Owns (tok : BioToken) (b : BufIndex) : Prop :=
  (∃ blockno, tok.held b = some blockno) ∨
    ∃ pending, tok.pending = some pending ∧ pending.b = b ∧ pending.stage.owns

/-- The token with which a process comes to each command. -/
def Ready : BioCommand → BioToken → Prop
  | .bget _, tok | .store _ _, tok | .bwrite _, tok | .releasesleep _, tok
  | .bpin _, tok | .bunpin _, tok => tok.pending = none
  | .acquiresleep b, tok =>
    ∃ blockno, tok.pending = some { b := b, blockno := blockno, stage := .waiting }
  | .testValid b, tok =>
    ∃ blockno, tok.pending = some { b := b, blockno := blockno, stage := .locked }
  | .diskRead b, tok =>
    ∃ blockno, tok.pending = some { b := b, blockno := blockno, stage := .invalid }
  | .setValid b, tok =>
    ∃ blockno, tok.pending = some { b := b, blockno := blockno, stage := .loaded }
  | .unref b, tok =>
    ∃ blockno, tok.pending = some { b := b, blockno := blockno, stage := .releasing }

/-- `bget` has found or recycled a buffer. -/
def enlist (tok : BioToken) (b : BufIndex) (blockno : Nat) : BioToken :=
  { tok with pending := some { b := b, blockno := blockno, stage := .waiting } }

def advance (tok : BioToken) (stage : BufStage) : BioToken :=
  { tok with pending := tok.pending.map fun pending => { pending with stage := stage } }

/-- `bread` returns. -/
def arrive (tok : BioToken) : BioToken :=
  match tok.pending with
  | some pending =>
    { held := update tok.held pending.b (some pending.blockno)
      pending := none }
  | none => tok

/-- `brelse` has given up the lock. -/
def release (tok : BioToken) (b : BufIndex) : BioToken where
  held := update tok.held b none
  pending := (tok.held b).map fun blockno =>
    { b := b, blockno := blockno, stage := .releasing }

/-- The call in progress gives up its reference. -/
def drop (tok : BioToken) : BioToken := { tok with pending := none }

/-- The token with which a process leaves each command. -/
def next : (cmd : BioCommand) → cmd.Response → BioToken → BioToken
  | .bget blockno, b, tok => tok.enlist b blockno
  | .acquiresleep _, _, tok => tok.advance .locked
  | .testValid _, valid, tok => if valid then tok.arrive else tok.advance .invalid
  | .diskRead _, _, tok => tok.advance .loaded
  | .setValid _, _, tok => tok.arrive
  | .releasesleep b, _, tok => tok.release b
  | .unref _, _, tok => tok.drop
  | .store _ _, _, tok => tok
  | .bwrite _, _, tok => tok
  | .bpin _, _, tok => tok
  | .bunpin _, _, tok => tok

variable {tok : BioToken} {b : BufIndex} {blockno : Nat} {stage : BufStage}

theorem refs_enlist (none : tok.pending = none) (o : BufIndex) : (tok.enlist b blockno).refs o =
    tok.refs o + if b = o then 1 else 0 := by
  simp [refs, enlist, none, refersTo]

theorem refs_advance (o : BufIndex) : (tok.advance stage).refs o = tok.refs o := by
  cases hit : tok.pending with
  | none => simp [refs, advance, hit]
  | some pending => simp [refs, advance, hit, refersTo]

theorem refs_arrive (hit : tok.pending = some { b := b, blockno := blockno, stage := stage })
    (notHeld : tok.held b = none) (o : BufIndex) :
    tok.arrive.refs o = tok.refs o := by
  by_cases same : o = b
  · subst same
    simp [refs, arrive, hit, refersTo, notHeld]
  · simp [refs, arrive, hit, refersTo, same, Ne.symm same]

theorem refs_release (none : tok.pending = none) (held : tok.held b = some blockno)
    (o : BufIndex) : (tok.release b).refs o = tok.refs o := by
  by_cases same : o = b
  · subst same
    simp [refs, release, none, held, refersTo]
  · simp [refs, release, none, held, refersTo, same, Ne.symm same]

theorem refs_drop (hit : tok.pending = some { b := b, blockno := blockno, stage := stage })
    (o : BufIndex) :
    tok.drop.refs o + (if b = o then 1 else 0) = tok.refs o := by
  simp [refs, drop, hit, refersTo]

end BioToken

/-! ## The invariant -/

variable {count : Nat}

theorem increment_eq (room : count + 1 < 2 ^ 32) :
    increment count = count + 1 := Nat.mod_eq_of_lt room

theorem decrement_eq (pos : 0 < count) (bound : count < 2 ^ 32) : decrement count = count - 1 := by
  rw [decrement]
  omega

variable {Pid : Type}

theorem Bcache.unref_eq (bcache : Bcache Pid) (b : BufIndex) : ∃ lru, bcache.unref b = { bcache with
        refcnt := update bcache.refcnt b (decrement (bcache.refcnt b))
        lru := lru } := by
  rw [Bcache.unref]
  split
  · exact ⟨_, rfl⟩
  · exact ⟨_, rfl⟩

variable {bcache : Bcache Pid}

theorem Bcache.lookup_some {dev blockno : Nat} {b : BufIndex} (hit :
    bcache.lookup dev blockno = some b) : bcache.dev b = dev ∧ bcache.blockno b = blockno := by
  simpa using List.find?_some hit

theorem Bcache.lookup_none {dev blockno : Nat} (lost : bcache.lookup dev blockno = none)
    (b : BufIndex) : ¬(bcache.dev b = dev ∧ bcache.blockno b = blockno) := by
  have passed := List.find?_eq_none.mp lost b (bcache.lru.complete b)
  simpa using passed

theorem Bcache.unused_some {b : BufIndex} (hit : bcache.unused = some b) : bcache.refcnt b = 0 := by
  simpa using List.find?_some hit

/-- The contents last stored for each block, or those found on the disk. -/
def BioState.array (origin : Disk) (s : BioState Pid) : Disk :=
  applyWrites s.history.stores origin

/-- What the references of a process say about the buffers. -/
structure TokenFits (origin : Disk) (s : BioState Pid) (p : Pid)
    (tok : BioToken) : Prop where
  holding : ∀ b blockno, tok.held b = some blockno →
    s.bcache.lock b = some p ∧ s.bcache.dev b = rootDev ∧
      s.bcache.blockno b = blockno ∧ s.bcache.valid b = true
  identity : ∀ pending, tok.pending = some pending →
    s.bcache.dev pending.b = rootDev ∧
      s.bcache.blockno pending.b = pending.blockno
  locking : ∀ pending, tok.pending = some pending → pending.stage.owns = true →
    s.bcache.lock pending.b = some p ∧ tok.held pending.b = none
  reading : ∀ pending, tok.pending = some pending →
    pending.stage = .invalid ∨ pending.stage = .loaded →
      s.bcache.valid pending.b = false
  loaded : ∀ pending, tok.pending = some pending → pending.stage = .loaded →
    s.bcache.data pending.b = s.array origin pending.blockno

structure Coherent [Fintype Pid] (origin : Disk) (s : BioState Pid)
    (ts : Pid → BioToken) : Prop where
  counted : ∀ b, s.bcache.refcnt b =
    tally (BioToken.refs b) ts + s.history.pins b
  bounded : ∀ b, s.bcache.refcnt b < 2 ^ 32
  unique : ∀ b other, s.bcache.dev b = rootDev →
    s.bcache.dev other = rootDev →
    s.bcache.blockno b = s.bcache.blockno other → b = other
  owned : ∀ b p, s.bcache.lock b = some p → (ts p).Owns b
  fits : ∀ p, TokenFits origin s p (ts p)
  contents : ∀ b, s.bcache.dev b = rootDev → s.bcache.valid b = true →
    s.bcache.data b = s.array origin (s.bcache.blockno b)
  clean : ∀ b, s.bcache.dev b = rootDev → s.bcache.valid b = true →
    s.history.dirty b = false →
      s.disk (s.bcache.blockno b) = s.bcache.data b
  absent : ∀ blockno, (∀ b, s.bcache.dev b = rootDev →
      s.bcache.blockno b = blockno → s.bcache.valid b = false) →
    s.disk blockno = s.array origin blockno
  kept : ∀ b, s.history.dirty b = true → s.bcache.valid b = true ∧
    (0 < s.history.pins b ∨
      ∃ p blockno, (ts p).held b = some blockno)

variable {origin : Disk} {s after : BioState Pid} {p : Pid} {b : BufIndex} {blockno : Nat}
  {tok : BioToken}

theorem TokenFits.lock_of_owns (fits : TokenFits origin s p tok) (owns : tok.Owns b) :
    s.bcache.lock b = some p := by
  rcases owns with ⟨blockno, held⟩ | ⟨pending, hit, rfl, owning⟩
  · exact (fits.holding b blockno held).1
  · exact (fits.locking pending hit owning).1

theorem TokenFits.not_owner (fits : TokenFits origin s p tok) (notOwns : ¬tok.Owns b)
    (sameDev : after.bcache.dev = s.bcache.dev)
    (sameBno : after.bcache.blockno = s.bcache.blockno) (others : ∀ o, o ≠ b →
      after.bcache.lock o = s.bcache.lock o ∧ after.bcache.valid o = s.bcache.valid o ∧
      after.bcache.data o = s.bcache.data o) (arrays : ∀ o, o ≠ b → s.bcache.dev o = rootDev →
      after.array origin (s.bcache.blockno o) = s.array origin (s.bcache.blockno o)) :
    TokenFits origin after p tok := by
  have heldAway : ∀ o blockno, tok.held o = some blockno → o ≠ b := by
    rintro o blockno held rfl
    exact notOwns (Or.inl ⟨blockno, held⟩)
  have pendAway : ∀ pending, tok.pending = some pending →
      pending.stage.owns = true → pending.b ≠ b := by
    intro pending hit owning same
    exact notOwns (Or.inr ⟨pending, hit, same, owning⟩)
  constructor
  case holding =>
    intro o blockno held
    rcases others o (heldAway o blockno held) with ⟨lock, valid, _⟩
    rw [sameDev, sameBno, lock, valid]
    exact fits.holding o blockno held
  case identity =>
    intro pending hit
    rw [sameDev, sameBno]
    exact fits.identity pending hit
  case locking =>
    intro pending hit owning
    rw [(others pending.b (pendAway pending hit owning)).1]
    exact fits.locking pending hit owning
  case reading =>
    intro pending hit stage
    have owning : pending.stage.owns = true := by
      rcases stage with stage | stage <;> rw [stage] <;> rfl
    rw [(others pending.b (pendAway pending hit owning)).2.1]
    exact fits.reading pending hit stage
  case loaded =>
    intro pending hit stage
    have owning : pending.stage.owns = true := by
      rw [stage]
      rfl
    have elsewhere := pendAway pending hit owning
    rcases fits.identity pending hit with ⟨dev, same⟩
    rw [(others pending.b elsewhere).2.2, ← same, arrays pending.b elsewhere dev, same]
    exact fits.loaded pending hit stage

namespace Coherent

variable [Fintype Pid] {ts : Pid → BioToken}

section

variable (inv : Coherent origin s ts)
include inv

theorem not_owns {o : Pid} (ne : s.bcache.lock b ≠ some o) : ¬(ts o).Owns b :=
  fun owns => ne ((inv.fits o).lock_of_owns owns)

theorem unreferenced (zero : s.bcache.refcnt b = 0) : s.history.pins b = 0 ∧
    ∀ p, (ts p).held b = none ∧ ∀ pending, (ts p).pending = some pending → pending.b ≠ b := by
  have total := inv.counted b
  refine ⟨by omega, ?_⟩
  intro p
  have none := (tally_eq_zero_iff (BioToken.refs b) ts).mp (by omega) p
  rw [BioToken.refs, Nat.add_eq_zero_iff] at none
  refine ⟨by simpa using none.1, ?_⟩
  intro pending hit same
  simp [hit, BioToken.refersTo, same] at none

theorem refcnt_pos (referenced : (ts p).refs b ≠ 0) : 0 < s.bcache.refcnt b := by
  have part := measure_le_tally (BioToken.refs b) ts p
  have total := inv.counted b
  omega

theorem refcnt_pos_of_pending {pending : Pending} (hit : (ts p).pending = some pending) :
    0 < s.bcache.refcnt pending.b := by
  have referenced : (ts p).refs pending.b ≠ 0 := by simp [BioToken.refs, hit, BioToken.refersTo]
  exact inv.refcnt_pos referenced

end

variable [DecidableEq Pid]

theorem counted_update (inv : Coherent origin s ts)
    (sameRefs : ∀ b, tok.refs b = (ts p).refs b) (b : BufIndex) :
    s.bcache.refcnt b = tally (BioToken.refs b) (update ts p tok) + s.history.pins b := by
  rw [tally_update_same _ _ _ _ (sameRefs b)]
  exact inv.counted b

omit [Fintype Pid] in
theorem fits_update (own : TokenFits origin after p tok) (rest : ∀ o, o ≠ p →
    TokenFits origin after o (ts o)) (o : Pid) : TokenFits origin after o (update ts p tok o) := by
  by_cases same : o = p
  · subst same
    rwa [update_self]
  · rw [update_of_ne same]
    exact rest o same

section

variable (inv : Coherent origin s ts)
include inv

theorem kept_update (keepsHeld : ∀ b blockno, (ts p).held b = some blockno →
      ∃ blockno, tok.held b = some blockno) (b : BufIndex) (dirty : s.history.dirty b = true) :
    s.bcache.valid b = true ∧ (0 < s.history.pins b ∨ ∃ o blockno, (update ts p tok o).held b =
        some blockno) := by
  rcases inv.kept b dirty with ⟨valid, pinned | ⟨o, blockno, held⟩⟩
  · exact ⟨valid, inl pinned⟩
  refine ⟨valid, inr ⟨o, ?_⟩⟩
  by_cases same : o = p
  · subst same
    rw [update_self]
    exact keepsHeld b blockno held
  · rw [update_of_ne same]
    exact ⟨blockno, held⟩

theorem owned_update (keepsOwned : ∀ b, (ts p).Owns b → tok.Owns b) (b : BufIndex)
    (o : Pid) (locked : s.bcache.lock b = some o) : (update ts p tok o).Owns b := by
  have owns := inv.owned b o locked
  by_cases same : o = p
  · subst same
    rw [update_self]
    exact keepsOwned b owns
  · rwa [update_of_ne same]

/-! ## One lemma for each command -/

theorem acquiresleep
    (waits : (ts p).pending = some { b := b, blockno := blockno, stage := .waiting })
    (free : s.bcache.lock b = none) :
    Coherent origin
      { s with
        bcache :=
          { s.bcache with
            lock := update s.bcache.lock b (some p) } }
      (update ts p ((ts p).advance .locked)) := by
  have fits := inv.fits p
  have identity := fits.identity _ waits
  have later : (ts p).advance .locked =
      { held := (ts p).held
        pending := some { b := b, blockno := blockno, stage := .locked } } := by
    simp [BioToken.advance, waits]
  have notHeld : (ts p).held b = none := by
    cases held : (ts p).held b with
    | none => rfl
    | some o =>
      have locked := (fits.holding b o held).1
      rw [free] at locked
      cases locked
  refine { inv with counted := ?counted, owned := ?owned, fits := ?fits, kept := ?kept }
  case counted => exact inv.counted_update fun _ => BioToken.refs_advance _
  case owned =>
    intro o holder
      (locked : update s.bcache.lock b (some p) o = some holder)
    by_cases same : o = b
    · subst same
      rw [update_self] at locked
      cases locked
      rw [update_self, later]
      exact inr ⟨_, rfl, rfl, rfl⟩
    · rw [update_of_ne same] at locked
      refine inv.owned_update ?_ o holder locked
      rintro kept (held | ⟨pending, hit, _, owning⟩)
      · rw [later]
        exact inl held
      · rw [waits] at hit
        cases hit
        cases owning
  case fits =>
    apply fits_update
    · rw [later]
      constructor
      case holding =>
        intro o blockno held
        have ne : o ≠ b := by
          rintro rfl
          rw [notHeld] at held
          cases held
        rcases fits.holding o blockno held with ⟨locked, rest⟩
        exact ⟨(update_of_ne ne _ _).trans locked, rest⟩
      case identity =>
        rintro _ ⟨⟩
        exact identity
      case locking =>
        rintro _ ⟨⟩ _
        exact ⟨update_self b _ _, notHeld⟩
      case reading =>
        rintro _ ⟨⟩ stage
        rcases stage with stage | stage <;> cases stage
      case loaded =>
        rintro _ ⟨⟩ ⟨⟩
    · intro o _
      refine (inv.fits o).not_owner (inv.not_owns (b := b) ?_) rfl rfl ?_ ?_
      · rw [free]
        simp
      · intro buf ne
        exact ⟨update_of_ne ne _ _, rfl, rfl⟩
      · intro _ _ _
        rfl
  case kept =>
    apply inv.kept_update
    intro buf blockno held
    rw [later]
    exact ⟨blockno, held⟩

theorem testValid_invalid (locked : (ts p).pending =
      some { b := b, blockno := blockno, stage := .locked })
    (invalid : s.bcache.valid b = false) :
    Coherent origin s (update ts p ((ts p).advance .invalid)) := by
  have fits := inv.fits p
  have identity := fits.identity _ locked
  have locking := fits.locking _ locked rfl
  have later : (ts p).advance .invalid =
      { held := (ts p).held
        pending := some { b := b, blockno := blockno, stage := .invalid } } := by
    simp [BioToken.advance, locked]
  refine { inv with counted := ?counted, owned := ?owned, fits := ?fits, kept := ?kept }
  case counted => exact inv.counted_update fun _ => BioToken.refs_advance _
  case owned =>
    apply inv.owned_update
    rintro o (held | ⟨pending, hit, same, _⟩)
    · rw [later]
      exact inl held
    · rw [locked] at hit
      cases hit
      rw [later]
      exact inr ⟨_, rfl, same, rfl⟩
  case fits =>
    apply fits_update
    · rw [later]
      constructor
      case holding => exact fits.holding
      case identity =>
        rintro _ ⟨⟩
        exact identity
      case locking =>
        rintro _ ⟨⟩ _
        exact locking
      case reading =>
        rintro _ ⟨⟩ _
        exact invalid
      case loaded =>
        rintro _ ⟨⟩ ⟨⟩
    · intro o _
      exact inv.fits o
  case kept =>
    apply inv.kept_update
    intro buf blockno held
    rw [later]
    exact ⟨blockno, held⟩

theorem arrive {stage : BufStage}
    (found : (ts p).pending = some { b := b, blockno := blockno, stage := stage })
    (owns : stage.owns = true)
    (stored : s.bcache.data b = s.array origin (s.bcache.blockno b))
    (written : s.history.dirty b = false →
      s.disk (s.bcache.blockno b) = s.bcache.data b) :
    Coherent origin
      { s with
        bcache :=
          { s.bcache with valid := update s.bcache.valid b true } }
      (update ts p (ts p).arrive) := by
  have fits := inv.fits p
  have identity := fits.identity _ found
  rcases fits.locking _ found owns with ⟨locked, notHeld⟩
  have later : (ts p).arrive =
      { held := update (ts p).held b (some blockno)
        pending := none } := by
    simp [BioToken.arrive, found]
  have keepsHeld : ∀ o, o ≠ b → update (ts p).held b (some blockno) o =
    (ts p).held o := fun o ne => update_of_ne ne _ _
  have keepsValid : ∀ o, s.bcache.valid o = true → update s.bcache.valid b true o = true := by
    intro o valid
    by_cases same : o = b
    · rw [same, update_self]
    · rw [update_of_ne same, valid]
  constructor
  case counted => exact inv.counted_update (BioToken.refs_arrive found notHeld)
  case bounded => exact inv.bounded
  case unique => exact inv.unique
  case owned =>
    apply inv.owned_update
    intro o otherOwns
    rw [later]
    by_cases same : o = b
    · subst same
      exact inl ⟨blockno, update_self _ _ _⟩
    rcases otherOwns with ⟨otherBlock, held⟩ | ⟨pending, otherFound, isOther, _⟩
    · exact inl ⟨otherBlock, (keepsHeld o same).trans held⟩
    rw [found] at otherFound
    cases otherFound
    exact absurd isOther.symm same
  case fits =>
    apply fits_update
    · rw [later]
      constructor
      case holding =>
        intro o otherBlock
          (held : update (ts p).held b (some blockno) o =
            some otherBlock)
        by_cases same : o = b
        · subst same
          rw [update_self] at held
          cases held
          exact ⟨locked, identity.1, identity.2, update_self _ _ _⟩
        · rw [keepsHeld o same] at held
          rcases fits.holding o otherBlock held with ⟨lock, dev, block, valid⟩
          exact ⟨lock, dev, block, keepsValid o valid⟩
      all_goals
        rintro _ ⟨⟩
    · intro o ne
      refine (inv.fits o).not_owner (inv.not_owns (b := b) ?_) rfl rfl ?_ ?_
      · rw [locked]
        exact fun same => ne (Option.some.inj same).symm
      · intro buffer otherBuffer
        exact ⟨rfl, update_of_ne otherBuffer _ _, rfl⟩
      · intro _ _ _
        rfl
  case contents =>
    intro o dev (valid : update s.bcache.valid b true o = true)
    by_cases same : o = b
    · subst same
      exact stored
    · rw [update_of_ne same] at valid
      exact inv.contents o dev valid
  case clean =>
    intro o dev (valid : update s.bcache.valid b true o = true) clean
    by_cases same : o = b
    · subst same
      exact written clean
    · rw [update_of_ne same] at valid
      exact inv.clean o dev valid clean
  case absent =>
    intro block allInvalid
    apply inv.absent block
    intro o dev sameBlock
    cases valid : s.bcache.valid o with
    | false => rfl
    | true => exact (keepsValid o valid).symm.trans (allInvalid o dev sameBlock)
  case kept =>
    have keeps : ∀ o otherBlock, (ts p).held o = some otherBlock →
        ∃ otherBlock, (ts p).arrive.held o = some otherBlock := by
      intro o otherBlock held
      rw [later]
      by_cases same : o = b
      · subst same
        exact ⟨blockno, update_self _ _ _⟩
      · exact ⟨otherBlock, (keepsHeld o same).trans held⟩
    intro o dirty
    rcases inv.kept_update keeps o dirty with ⟨valid, rest⟩
    exact ⟨keepsValid o valid, rest⟩

omit [DecidableEq Pid] in
theorem disk_of_invalid (dev : s.bcache.dev b = rootDev) (invalid : s.bcache.valid b = false) :
    s.disk (s.bcache.blockno b) = s.array origin (s.bcache.blockno b) := by
  apply inv.absent
  intro o oDev sameBlk
  rwa [inv.unique o b oDev dev sameBlk]

theorem diskRead (reads : (ts p).pending = some { b := b, blockno := blockno, stage := .invalid }) :
    Coherent origin
      { s with
        bcache :=
          { s.bcache with
            data := update s.bcache.data b
              (s.disk (s.bcache.blockno b)) } }
      (update ts p ((ts p).advance .loaded)) := by
  have fits := inv.fits p
  have identity := fits.identity _ reads
  have locking := fits.locking _ reads rfl
  have invalid := fits.reading _ reads (inl rfl)
  have later : (ts p).advance .loaded =
      { held := (ts p).held
        pending := some { b := b, blockno := blockno, stage := .loaded } } := by
    simp [BioToken.advance, reads]
  have elsewhere : ∀ o, s.bcache.valid o = true → o ≠ b := by
    rintro o valid rfl
    rw [valid] at invalid
    cases invalid
  constructor
  case counted => exact inv.counted_update fun _ => BioToken.refs_advance _
  case bounded => exact inv.bounded
  case unique => exact inv.unique
  case owned =>
    apply inv.owned_update
    rintro o (held | ⟨pending, hit, same, _⟩)
    · rw [later]
      exact inl held
    · rw [reads] at hit
      cases hit
      rw [later]
      exact inr ⟨_, rfl, same, rfl⟩
  case fits =>
    apply fits_update
    · rw [later]
      constructor
      case holding => exact fits.holding
      case identity =>
        rintro _ ⟨⟩
        exact identity
      case locking =>
        rintro _ ⟨⟩ _
        exact locking
      case reading =>
        rintro _ ⟨⟩ _
        exact invalid
      case loaded =>
        rintro _ ⟨⟩ _
        have cur := inv.disk_of_invalid identity.1 invalid
        rw [identity.2] at cur
        rw [← identity.2] at cur ⊢
        exact (update_self b _ _).trans cur
    · intro o ne
      refine (inv.fits o).not_owner (inv.not_owns (b := b) ?_) rfl rfl ?_ ?_
      · rw [locking.1]
        exact fun same => ne (Option.some.inj same).symm
      · intro buf oBuf
        exact ⟨rfl, rfl, update_of_ne oBuf _ _⟩
      · intro _ _ _
        rfl
  case contents =>
    intro o dev valid
    exact (update_of_ne (elsewhere o valid) _ _).trans (inv.contents o dev valid)
  case clean =>
    intro o dev valid clean
    exact (inv.clean o dev valid clean).trans (update_of_ne (elsewhere o valid) _ _).symm
  case absent => exact inv.absent
  case kept =>
    apply inv.kept_update
    intro buf blockno held
    rw [later]
    exact ⟨blockno, held⟩

section

variable (between : (ts p).pending = none)
include between

section

variable (locked : s.bcache.lock b = some p)
include locked

omit [DecidableEq Pid] in
theorem held_of_lock : (ts p).held b = some (s.bcache.blockno b) ∧
    s.bcache.dev b = rootDev ∧ s.bcache.valid b = true := by
  rcases inv.owned b p locked with ⟨blockno, held⟩ | ⟨pending, hit, _⟩
  · rcases (inv.fits p).holding b blockno held with ⟨_, dev, rfl, valid⟩
    exact ⟨held, dev, valid⟩
  · rw [between] at hit
    cases hit

theorem store (data : Block) : Coherent origin { s with
        bcache := { s.bcache with data := update s.bcache.data b data }
        history :=
          { s.history with
            stores := s.history.stores ++ [(s.bcache.blockno b, data)]
            dirty := update s.history.dirty b true } }
      ts := by
  rcases inv.held_of_lock between locked with ⟨held, dev, valid⟩
  have arrayEqual : applyWrites (s.history.stores ++ [(s.bcache.blockno b, data)]) origin =
        update (s.array origin) (s.bcache.blockno b) data := by
    rw [applyWrites_append]
    rfl
  have oBlk : ∀ o, o ≠ b → s.bcache.dev o = rootDev →
      update (s.array origin) (s.bcache.blockno b) data (s.bcache.blockno o) =
        s.array origin (s.bcache.blockno o) := by
    intro o ne oDev
    apply update_of_ne
    exact fun same => ne (inv.unique o b oDev dev same)
  constructor
  case counted => exact inv.counted
  case bounded => exact inv.bounded
  case unique => exact inv.unique
  case owned => exact inv.owned
  case fits =>
    intro o
    by_cases same : o = p
    · subst same
      have fits := inv.fits o
      refine ⟨fits.holding, fits.identity, fits.locking, fits.reading, ?_⟩
      intro pending hit
      rw [between] at hit
      cases hit
    · refine (inv.fits o).not_owner (inv.not_owns (b := b) ?_) rfl rfl ?_ ?_
      · rw [locked]
        exact fun eq => same (Option.some.inj eq).symm
      · intro buf ne
        exact ⟨rfl, rfl, update_of_ne ne _ _⟩
      · intro buf ne bufDev
        rw [BioState.array, arrayEqual]
        exact oBlk buf ne bufDev
  case contents =>
    intro o oDev oVal
    rw [BioState.array, arrayEqual]
    by_cases same : o = b
    · subst same
      have stored : update (s.array origin) (s.bcache.blockno o)
        data (s.bcache.blockno o) = data := update_self _ _ _
      exact (update_self _ _ _).trans stored.symm
    · exact (update_of_ne same _ _).trans ((inv.contents o oDev oVal).trans (oBlk o same oDev).symm)
  case clean =>
    intro o oDev oVal (clean : update s.history.dirty b true o = false)
    have ne : o ≠ b := by
      rintro rfl
      rw [update_self] at clean
      cases clean
    rw [update_of_ne ne] at clean
    exact (inv.clean o oDev oVal clean).trans (update_of_ne ne _ _).symm
  case absent =>
    intro block allInvalid
    have ne : block ≠ s.bcache.blockno b := by
      rintro rfl
      have invalid : s.bcache.valid b = false := allInvalid b dev rfl
      rw [valid] at invalid
      cases invalid
    rw [BioState.array, arrayEqual, update_of_ne ne]
    exact inv.absent block allInvalid
  case kept =>
    intro o (dirty : update s.history.dirty b true o = true)
    by_cases same : o = b
    · subst same
      exact ⟨valid, inr ⟨p, _, held⟩⟩
    · rw [update_of_ne same] at dirty
      exact inv.kept o dirty

omit [DecidableEq Pid] in
theorem bwrite : Coherent origin { s with
        disk := update s.disk (s.bcache.blockno b) (s.bcache.data b)
        history :=
          { s.history with
            dirty := update s.history.dirty b false } }
      ts := by
  rcases inv.held_of_lock between locked with ⟨_, dev, valid⟩
  refine { inv with fits := ?fits, clean := ?clean, absent := ?absent, kept := ?kept }
  case fits =>
    intro o
    have fits := inv.fits o
    exact ⟨fits.holding, fits.identity, fits.locking, fits.reading, fits.loaded⟩
  case clean =>
    intro o oDev oVal (clean : update s.history.dirty b false o = false)
    by_cases same : o = b
    · subst same
      exact update_self _ _ _
    rw [update_of_ne same] at clean
    have ne : s.bcache.blockno o ≠ s.bcache.blockno b := fun eq => same (inv.unique o b oDev dev eq)
    exact (update_of_ne ne _ _).trans (inv.clean o oDev oVal clean)
  case absent =>
    intro block allInvalid
    have ne : block ≠ s.bcache.blockno b := by
      rintro rfl
      have invalid : s.bcache.valid b = false := allInvalid b dev rfl
      rw [valid] at invalid
      cases invalid
    exact (update_of_ne ne _ _).trans (inv.absent block allInvalid)
  case kept =>
    intro o (dirty : update s.history.dirty b false o = true)
    have ne : o ≠ b := by
      rintro rfl
      rw [update_self] at dirty
      cases dirty
    rw [update_of_ne ne] at dirty
    exact inv.kept o dirty

theorem releasesleep (safe : s.history.dirty b = true → 0 < s.history.pins b) : Coherent origin
      { s with
        bcache :=
          { s.bcache with lock := update s.bcache.lock b none } }
      (update ts p ((ts p).release b)) := by
  have fits := inv.fits p
  rcases inv.held_of_lock between locked with ⟨held, dev, valid⟩
  have later : (ts p).release b =
      { held := update (ts p).held b none
        pending := some
          { b := b, blockno := s.bcache.blockno b, stage := .releasing } } := by
    simp [BioToken.release, held]
  refine { inv with counted := ?counted, owned := ?owned, fits := ?fits, kept := ?kept }
  case counted => exact inv.counted_update (BioToken.refs_release between held)
  case owned =>
    intro o holder
      (oLk : update s.bcache.lock b none o = some holder)
    have ne : o ≠ b := by
      rintro rfl
      rw [update_self] at oLk
      cases oLk
    rw [update_of_ne ne] at oLk
    have owns := inv.owned o holder oLk
    by_cases same : holder = p
    · subst same
      rw [update_self, later]
      rcases owns with ⟨blockno, oHeld⟩ | ⟨pending, hit, _⟩
      · exact inl ⟨blockno, (update_of_ne ne _ _).trans oHeld⟩
      · rw [between] at hit
        cases hit
    · rwa [update_of_ne same]
  case fits =>
    apply fits_update
    · rw [later]
      constructor
      case holding =>
        intro o blockno
          (oHeld : update (ts p).held b none o = some blockno)
        have ne : o ≠ b := by
          rintro rfl
          rw [update_self] at oHeld
          cases oHeld
        rw [update_of_ne ne] at oHeld
        rcases fits.holding o blockno oHeld with ⟨oLk, rest⟩
        exact ⟨(update_of_ne ne _ _).trans oLk, rest⟩
      case identity =>
        rintro _ ⟨⟩
        exact ⟨dev, rfl⟩
      case reading =>
        rintro _ ⟨⟩ stage
        rcases stage with stage | stage <;> cases stage
      case locking | loaded =>
        rintro _ ⟨⟩ ⟨⟩
    · intro o ne
      refine (inv.fits o).not_owner (inv.not_owns (b := b) ?_) rfl rfl ?_ ?_
      · rw [locked]
        exact fun same => ne (Option.some.inj same).symm
      · intro buf oBuf
        exact ⟨update_of_ne oBuf _ _, rfl, rfl⟩
      · intro _ _ _
        rfl
  case kept =>
    intro o dirty
    rcases inv.kept o dirty with ⟨oVal, pinned | ⟨holder, blockno, oHeld⟩⟩
    · exact ⟨oVal, inl pinned⟩
    by_cases same : o = b
    · subst same
      exact ⟨oVal, inl (safe dirty)⟩
    refine ⟨oVal, inr ⟨holder, blockno, ?_⟩⟩
    by_cases sameHolder : holder = p
    · subst sameHolder
      rw [update_self, later]
      exact (update_of_ne same _ _).trans oHeld
    · rwa [update_of_ne sameHolder]

end

end

/-! ### Steps that count references -/

theorem recount {refcnt pins : BufIndex → Nat} (lru : LruList) (counted : ∀ b, refcnt b =
      tally (BioToken.refs b) (update ts p tok) + pins b)
    (bounded : ∀ b, refcnt b < 2 ^ 32) (sameHeld : tok.held = (ts p).held)
    (unlocked : ∀ pending, (ts p).pending = some pending → pending.stage.owns = false)
    (pendingFits : ∀ pending, tok.pending = some pending → pending.stage = .waiting ∧
      s.bcache.dev pending.b = rootDev ∧ s.bcache.blockno pending.b = pending.blockno)
    (kept : ∀ b, s.history.dirty b = true → 0 < s.history.pins b → 0 < pins b) : Coherent origin
      { s with
        bcache := { s.bcache with refcnt := refcnt, lru := lru }
        history := { s.history with pins := pins } }
      (update ts p tok) := by
  have fits := inv.fits p
  constructor
  case counted => exact counted
  case bounded => exact bounded
  case unique => exact inv.unique
  case owned =>
    apply inv.owned_update
    rintro o (⟨blockno, held⟩ | ⟨pending, hit, _, owning⟩)
    · exact inl ⟨blockno, by rw [sameHeld]; exact held⟩
    · rw [unlocked pending hit] at owning
      cases owning
  case fits =>
    apply fits_update
    · constructor
      case holding =>
        rw [sameHeld]
        exact fits.holding
      case identity =>
        intro pending hit
        exact (pendingFits pending hit).2
      case locking =>
        intro pending hit owning
        rw [(pendingFits pending hit).1] at owning
        cases owning
      case reading =>
        intro pending hit stage
        rw [(pendingFits pending hit).1] at stage
        rcases stage with stage | stage <;> cases stage
      case loaded =>
        intro pending hit stage
        rw [(pendingFits pending hit).1] at stage
        cases stage
    · intro o _
      have oFits := inv.fits o
      exact ⟨oFits.holding, oFits.identity, oFits.locking, oFits.reading, oFits.loaded⟩
  case contents => exact inv.contents
  case clean => exact inv.clean
  case absent => exact inv.absent
  case kept =>
    intro o dirty
    have keeps : ∀ b blockno, (ts p).held b = some blockno →
        ∃ blockno, tok.held b = some blockno := by
      intro b blockno held
      exact ⟨blockno, by rw [sameHeld]; exact held⟩
    rcases inv.kept_update keeps o dirty with ⟨valid, pinned | held⟩
    · exact ⟨valid, inl (kept o dirty pinned)⟩
    · exact ⟨valid, inr held⟩

section

variable (between : (ts p).pending = none)
include between

theorem repin {pins : Nat}
    (moved : count + s.history.pins b = s.bcache.refcnt b + pins) (bound : count < 2 ^ 32)
    (safe : s.history.dirty b = true → 0 < s.history.pins b → 0 < pins) : Coherent origin { s with
        bcache :=
          { s.bcache with refcnt := update s.bcache.refcnt b count }
        history :=
          { s.history with
            pins := update s.history.pins b pins } }
      ts := by
  have counted : ∀ o, update s.bcache.refcnt b count o = tally (BioToken.refs o)
          (update ts p (ts p)) + update s.history.pins b pins o := by
    intro o
    rw [update_eq_self]
    have total := inv.counted o
    by_cases same : o = b
    · subst same
      rw [update_self, update_self]
      omega
    · rwa [update_of_ne same, update_of_ne same]
  have bounded : ∀ o, update s.bcache.refcnt b count o < 2 ^ 32 := by
    intro o
    by_cases same : o = b
    · rwa [same, update_self]
    · rw [update_of_ne same]
      exact inv.bounded o
  have kept : ∀ o, s.history.dirty o = true → 0 < s.history.pins o →
        0 < update s.history.pins b pins o := by
    intro o dirty pinned
    by_cases same : o = b
    · subst same
      rw [update_self]
      exact safe dirty pinned
    · rwa [update_of_ne same]
  have none : ∀ pending, (ts p).pending ≠ some pending := by
    intro pending hit
    rw [between] at hit
    cases hit
  have recounted := inv.recount s.bcache.lru counted bounded rfl
    (fun pending hit => absurd hit (none pending))
    (fun pending hit => absurd hit (none pending)) kept
  rwa [update_eq_self] at recounted

theorem bpin (room : s.bcache.refcnt b + 1 < 2 ^ 32) : Coherent origin { s with
        bcache := s.bcache.bpin b
        history :=
          { s.history with
            pins := update s.history.pins b (s.history.pins b + 1) } }
      ts := by
  have grown := increment_eq room
  exact inv.repin between (by omega) (by omega) fun _ _ => Nat.succ_pos _

theorem bunpin (pinned : 0 < s.history.pins b) (clean : s.history.dirty b = false) : Coherent origin
      { s with
        bcache := s.bcache.bunpin b
        history :=
          { s.history with
            pins := update s.history.pins b (s.history.pins b - 1) } }
      ts := by
  have total := inv.counted b
  have bound := inv.bounded b
  have shrunk := decrement_eq (by omega) bound
  apply inv.repin between (by omega) (by omega)
  intro dirty
  rw [clean] at dirty
  cases dirty

end

theorem rerefer (lru : LruList) (refsElsewhere : ∀ o, o ≠ b → tok.refs o = (ts p).refs o)
    (moved : count + (ts p).refs b = s.bcache.refcnt b + tok.refs b) (bound : count < 2 ^ 32)
    (sameHeld : tok.held = (ts p).held)
    (unlocked : ∀ pending, (ts p).pending = some pending → pending.stage.owns = false)
    (pendingFits : ∀ pending, tok.pending = some pending → pending.stage = .waiting ∧
      s.bcache.dev pending.b = rootDev ∧ s.bcache.blockno pending.b = pending.blockno) :
    Coherent origin { s with
        bcache :=
          { s.bcache with
            refcnt := update s.bcache.refcnt b count
            lru := lru } }
      (update ts p tok) := by
  have counted : ∀ o, update s.bcache.refcnt b count o = tally (BioToken.refs o) (update ts p tok) +
        s.history.pins o := by
    intro o
    have total := inv.counted o
    have tallied := tally_update (BioToken.refs o) ts p tok
    by_cases same : o = b
    · subst same
      rw [update_self]
      omega
    have unmoved := refsElsewhere o same
    rw [update_of_ne same]
    omega
  have bounded : ∀ o, update s.bcache.refcnt b count o < 2 ^ 32 := by
    intro o
    by_cases same : o = b
    · rwa [same, update_self]
    · rw [update_of_ne same]
      exact inv.bounded o
  exact inv.recount lru counted bounded sameHeld unlocked pendingFits fun _ _ pinned => pinned

theorem bget_found (between : (ts p).pending = none)
    (found : s.bcache.lookup rootDev blockno = some b) (room : s.bcache.refcnt b + 1 < 2 ^ 32) :
    Coherent origin { s with bcache := s.bcache.bpin b }
      (update ts p ((ts p).enlist b blockno)) := by
  have grown := increment_eq room
  have identity := Bcache.lookup_some found
  have refs : ∀ o, ((ts p).enlist b blockno).refs o = (ts p).refs o + if b = o then 1 else 0 :=
    BioToken.refs_enlist between
  apply inv.rerefer
  case refsElsewhere =>
    intro o ne
    rw [refs, if_neg (Ne.symm ne), add_zero]
  case moved =>
    rw [refs, if_pos rfl]
    omega
  case bound => omega
  case sameHeld => rfl
  case unlocked =>
    intro pending never
    rw [between] at never
    cases never
  case pendingFits =>
    rintro _ ⟨⟩
    exact ⟨rfl, identity⟩

theorem unref (releases : (ts p).pending =
      some { b := b, blockno := blockno, stage := .releasing }) :
    Coherent origin { s with bcache := s.bcache.unref b } (update ts p (ts p).drop) := by
  have pos : 0 < s.bcache.refcnt b := inv.refcnt_pos_of_pending releases
  have shrunk := decrement_eq pos (inv.bounded b)
  have bound := inv.bounded b
  have refs := BioToken.refs_drop releases
  rcases s.bcache.unref_eq b with ⟨lru, eq⟩
  rw [eq]
  apply inv.rerefer
  case refsElsewhere =>
    intro o ne
    have moved := refs o
    rwa [if_neg (Ne.symm ne)] at moved
  case moved =>
    have moved := refs b
    rw [if_pos rfl] at moved
    omega
  case bound => omega
  case sameHeld => rfl
  case unlocked =>
    intro pending hit
    rw [releases] at hit
    cases hit
    rfl
  case pendingFits =>
    rintro _ ⟨⟩

theorem bget_recycled (between : (ts p).pending = none)
    (missing : s.bcache.lookup rootDev blockno = none) (free : s.bcache.refcnt b = 0) :
    Coherent origin { s with bcache := s.bcache.recycle b rootDev blockno }
      (update ts p ((ts p).enlist b blockno)) := by
  rcases inv.unreferenced free with ⟨unpinned, unreferenced⟩
  have notOwned : ∀ o, ¬(ts o).Owns b := by
    rintro o (⟨otherBlock, held⟩ | ⟨pending, found, same, _⟩)
    · rw [(unreferenced o).1] at held
      cases held
    · exact (unreferenced o).2 pending found same
  have clean : s.history.dirty b = false := by
    cases dirty : s.history.dirty b with
    | false => rfl
    | true =>
      rcases (inv.kept b dirty).2 with pinned | ⟨o, otherBlock, held⟩
      · omega
      · exact absurd (inl ⟨otherBlock, held⟩) (notOwned o)
  have noCopy : ∀ o, s.bcache.dev o = rootDev → s.bcache.blockno o ≠ blockno := fun o dev same =>
    Bcache.lookup_none missing o ⟨dev, same⟩
  have elsewhere : ∀ o, o ≠ b → (s.bcache.recycle b rootDev blockno).dev o = s.bcache.dev o ∧
      (s.bcache.recycle b rootDev blockno).blockno o = s.bcache.blockno o ∧
      (s.bcache.recycle b rootDev blockno).valid o = s.bcache.valid o :=
    fun o ne => ⟨update_of_ne ne _ _, update_of_ne ne _ _, update_of_ne ne _ _⟩
  have newBlock : (s.bcache.recycle b rootDev blockno).blockno b = blockno := update_self _ _ _
  have newValid : (s.bcache.recycle b rootDev blockno).valid b = false := update_self _ _ _
  have ne : ∀ o, (s.bcache.recycle b rootDev blockno).valid o = true → o ≠ b := by
    rintro o valid rfl
    rw [newValid] at valid
    cases valid
  constructor
  case counted =>
    intro o
    have tallied := tally_update (BioToken.refs o) ts p ((ts p).enlist b blockno)
    rw [BioToken.refs_enlist between] at tallied
    have total := inv.counted o
    by_cases same : o = b
    · subst same
      rw [if_pos rfl] at tallied
      have one : (s.bcache.recycle o rootDev blockno).refcnt o = 1 := update_self _ _ _
      simp only [one]
      omega
    · rw [if_neg (Ne.symm same)] at tallied
      have unmoved : (s.bcache.recycle b rootDev blockno).refcnt o =
        s.bcache.refcnt o := update_of_ne same _ _
      simp only [unmoved]
      omega
  case bounded =>
    intro o
    by_cases same : o = b
    · subst same
      exact lt_of_le_of_lt (le_of_eq (update_self _ _ _)) (by decide)
    · exact lt_of_le_of_lt (le_of_eq (update_of_ne same _ _)) (inv.bounded o)
  case unique =>
    intro first second firstDev secondDev sameBlock
    by_cases firstSame : first = b
    · by_cases secondSame : second = b
      · rw [firstSame, secondSame]
      rcases elsewhere second secondSame with ⟨dev, block, _⟩
      rw [dev] at secondDev
      rw [block, firstSame, newBlock] at sameBlock
      exact absurd sameBlock.symm (noCopy second secondDev)
    · rcases elsewhere first firstSame with ⟨firstDevEqual, firstBlock, _⟩
      rw [firstDevEqual] at firstDev
      rw [firstBlock] at sameBlock
      by_cases secondSame : second = b
      · rw [secondSame, newBlock] at sameBlock
        exact absurd sameBlock (noCopy first firstDev)
      rcases elsewhere second secondSame with ⟨dev, block, _⟩
      rw [dev] at secondDev
      rw [block] at sameBlock
      exact inv.unique first second firstDev secondDev sameBlock
  case owned =>
    apply inv.owned_update
    rintro o (held | ⟨pending, found, _⟩)
    · exact inl held
    · rw [between] at found
      cases found
  case fits =>
    have untouched : ∀ o (tok : BioToken), TokenFits origin s o tok → tok.held b = none →
        (∀ pending, tok.pending = some pending → pending.b ≠ b) → TokenFits origin
          { s with bcache := s.bcache.recycle b rootDev blockno } o tok := by
      intro o tok fits notHeld notPending
      constructor
      case holding =>
        intro buffer otherBlock held
        have bufferElse : buffer ≠ b := by
          rintro rfl
          rw [notHeld] at held
          cases held
        rcases elsewhere buffer bufferElse with ⟨dev, block, valid⟩
        simp only [dev, block, valid]
        exact fits.holding buffer otherBlock held
      case identity =>
        intro pending found
        rcases elsewhere pending.b (notPending pending found) with ⟨dev, block, _⟩
        simp only [dev, block]
        exact fits.identity pending found
      case locking => exact fits.locking
      case reading =>
        intro pending found stage
        rcases elsewhere pending.b (notPending pending found) with ⟨_, _, valid⟩
        simp only [valid]
        exact fits.reading pending found stage
      case loaded => exact fits.loaded
    apply fits_update
    · have idle : TokenFits origin
        { s with bcache := s.bcache.recycle b rootDev blockno } p
        (ts p) := untouched p _ (inv.fits p) (unreferenced p).1 (unreferenced p).2
      constructor
      case holding => exact idle.holding
      case identity =>
        rintro _ ⟨⟩
        exact ⟨update_self _ _ _, newBlock⟩
      case reading =>
        rintro _ ⟨⟩ stage
        rcases stage with stage | stage <;> cases stage
      case locking | loaded =>
        rintro _ ⟨⟩ ⟨⟩
    · intro o _
      exact untouched o _ (inv.fits o) (unreferenced o).1 (unreferenced o).2
  case contents =>
    intro o dev valid
    rcases elsewhere o (ne o valid) with ⟨devEqual, block, validEqual⟩
    rw [devEqual] at dev
    rw [validEqual] at valid
    simp only [block]
    exact inv.contents o dev valid
  case clean =>
    intro o dev valid otherClean
    rcases elsewhere o (ne o valid) with ⟨devEqual, block, validEqual⟩
    rw [devEqual] at dev
    rw [validEqual] at valid
    simp only [block]
    exact inv.clean o dev valid otherClean
  case absent =>
    intro block allInvalid
    by_cases old : s.bcache.dev b = rootDev ∧ s.bcache.blockno b = block ∧ s.bcache.valid b = true
    · rcases old with ⟨dev, rfl, valid⟩
      exact (inv.clean b dev valid clean).trans (inv.contents b dev valid)
    apply inv.absent block
    intro o dev sameBlock
    by_cases same : o = b
    · subst same
      cases valid : s.bcache.valid o with
      | false => rfl
      | true => exact absurd ⟨dev, sameBlock, valid⟩ old
    · rcases elsewhere o same with ⟨devEqual, blockEqual, validEqual⟩
      have invalid := allInvalid o
      simp only [devEqual, blockEqual, validEqual] at invalid
      exact invalid dev sameBlock
  case kept =>
    intro o dirty
    have otherElse : o ≠ b := by
      rintro rfl
      have isDirty : s.history.dirty o = true := dirty
      rw [clean] at isDirty
      cases isDirty
    have keeps : ∀ buffer otherBlock, (ts p).held buffer = some otherBlock →
      ∃ otherBlock, ((ts p).enlist b blockno).held buffer =
        some otherBlock := fun _ otherBlock held => ⟨otherBlock, held⟩
    rcases inv.kept_update keeps o dirty with ⟨valid, rest⟩
    exact ⟨(elsewhere o otherElse).2.2.trans valid, rest⟩

end

end Coherent

end Xv6
