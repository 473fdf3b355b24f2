import Xv6.Sysfile.Dangling

/-! # Different names

`dirlink` looks for its name while it holds the lock of the directory, so the names in a
directory stay different. -/

namespace Xv6

open Foundation Function

/-- The names of the entries in use differ in their first `DIRSIZ` bytes. -/
def Dinode.DistinctNames (dinode : Dinode) : Prop :=
  ∀ (slot slot' : Nat) (entry entry' : Dirent), dinode.entries[slot]? = some entry →
    dinode.entries[slot']? = some entry' → entry.inum ≠ 0 → entry'.inum ≠ 0 →
    namecmp entry.name entry'.name = true → slot = slot'

namespace Dinode

variable {dinode : Dinode}

theorem distinctNames_nil (empty : dinode.entries = []) : dinode.DistinctNames := by
  intro slot slot' entry entry' has
  rw [empty, List.getElem?_nil] at has
  cases has

variable {name : Name} {slot : Nat} {entry : Dirent}

theorem namecmp_of_lookup_eq_none (lost : dinode.lookup name = none)
    (has : dinode.entries[slot]? = some entry) (used : entry.inum ≠ 0) :
    namecmp name entry.name = false := by
  rw [lookup, Option.map_eq_none_iff, List.find?_eq_none] at lost
  have mem : (entry, slot) ∈ dinode.entries.zipIdx := List.mem_zipIdx_iff_getElem?.mpr has
  have ne := lost _ mem
  simpa [used] using ne

theorem DistinctNames.setEntry (distinct : dinode.DistinctNames)
    (isIn : slot ≤ dinode.entries.length) (fresh : entry.inum ≠ 0 →
    dinode.lookup entry.name = none) : (dinode.setEntry slot entry).DistinctNames := by
  intro left right fst snd atLeft atRight usedFst usedSnd same
  rw [getElem?_setEntry isIn] at atLeft atRight
  split at atLeft
  · next isLeft =>
    cases atLeft
    split at atRight
    · next isRight => rw [isLeft, isRight]
    have ne := namecmp_of_lookup_eq_none (fresh usedFst) atRight usedSnd
    rw [same] at ne
    cases ne
  · split at atRight
    · cases atRight
      have ne := namecmp_of_lookup_eq_none (fresh usedSnd) atLeft usedFst
      rw [namecmp, beq_eq_false_iff_ne] at ne
      rw [namecmp, beq_iff_eq] at same
      exact absurd same.symm ne
    · exact distinct left right fst snd atLeft atRight usedFst usedSnd same

end Dinode

variable {Pid : Type} [DecidableEq Pid] {ninodes : Nat}

namespace FsState

/-- The names in every directory are different, on disk and in the cache. -/
structure DistinctNames (s : FsState Pid) : Prop where
  disk : ∀ i, (s.disk i).DistinctNames
  inode : ∀ i, (s.inode i).DistinctNames

variable {s after : FsState Pid} {i : Inum} {d : Dinode} {p : Pid}

theorem distinctNames_update {dinodes : Inum → Dinode} (old : ∀ j, (dinodes j).DistinctNames)
    (new : d.DistinctNames) (j : Inum) : (update dinodes i d j).DistinctNames := by
  rw [update_apply]
  split
  · exact new
  · exact old j

omit [DecidableEq Pid] in
theorem DistinctNames.store (distinct : s.DistinctNames) (new : d.DistinctNames) :
    (s.store i d).DistinctNames :=
  ⟨distinctNames_update distinct.disk new, distinctNames_update distinct.inode new⟩

theorem DistinctNames.exec {cmd : FsCommand} {r : cmd.Response} (distinct : s.DistinctNames)
    (fresh : cmd.Fresh s) (ran : exec ninodes p cmd s = .ok (r, after)) : after.DistinctNames := by
  cases cmd with
  | iget i =>
    obtain ⟨disk, _, inode, _⟩ := exec_iget_ok ninodes p ran
    exact ⟨disk ▸ distinct.disk, inode ▸ distinct.inode⟩
  | ilock i =>
    obtain ⟨_, _, disk, _, _, ⟨_, _, inode⟩ | ⟨_, inode⟩⟩ := exec_ilock_ok ninodes p ran
    · exact ⟨disk ▸ distinct.disk, inode ▸ distinct.inode⟩
    refine ⟨disk ▸ distinct.disk, ?_⟩
    rw [inode]
    exact distinctNames_update distinct.inode (distinct.disk i)
  | iunlock i =>
    rw [exec_iunlock_ok ninodes p ran]
    exact ⟨distinct.disk, distinct.inode⟩
  | iputFree i =>
    obtain ⟨_, _, rfl⟩ | ⟨_, _, rfl⟩ := exec_iputFree_ok ninodes p ran
    · have kept : (s.store i (s.freed i)).DistinctNames :=
        distinct.store (Dinode.distinctNames_nil rfl)
      exact ⟨kept.disk, kept.inode⟩
    · exact ⟨distinct.disk, distinct.inode⟩
  | iallocMark i type =>
    obtain ⟨_, _, rfl⟩ | ⟨_, rfl⟩ := exec_iallocMark_ok ninodes p ran
    · exact ⟨distinctNames_update distinct.disk (Dinode.distinctNames_nil rfl), distinct.inode⟩
    · exact distinct
  | writei i slot entry =>
    obtain ⟨_, isIn, rfl⟩ | ⟨_, rfl⟩ := exec_writei_ok ninodes p ran
    · exact distinct.store ((distinct.inode i).setEntry isIn fresh)
    · exact distinct
  | initInode i major | incNlink i =>
    cases ran
    exact distinct.store (distinct.inode i)
  | decNlink i removes =>
    cases ran
    have kept : (s.store i { s.inode i with nlink := (s.inode i).nlink - 1 }).DistinctNames :=
      distinct.store (distinct.inode i)
    exact ⟨kept.disk, kept.inode⟩
  | panic why => exact r.elim
  | _ =>
    cases ran
    exact ⟨distinct.disk, distinct.inode⟩

end FsState

instance {counting : Prop} :
    Follows ((fsLedger Pid ninodes counting).keeping FsState.DistinctNames) counting where
  executes := fun executes fresh => executes.keeping fun s frame _ _ inv distinct ran =>
    distinct.exec (fresh s frame inv) ran
  idle := rfl

theorem ConsistentImage.reachable_distinct [Fintype Pid] (small : ninodes ≤ 2 ^ 16)
    {image : Inum → Dinode} (consistent : ConsistentImage ninodes image)
    (distinct : ∀ i, (image i).DistinctNames) {counting : Prop} {pool : Pool (fsSystem Pid ninodes)}
    (reach : (fsSystem Pid ninodes).Reachable (fsLedger Pid ninodes counting).Allowed
    (fsBoot Pid ninodes image) pool) (i : Inum) : (pool.state.disk i).DistinctNames := by
  let L := (fsLedger Pid ninodes counting).keeping FsState.DistinctNames
  have start : (FsState.boot Pid image).DistinctNames :=
    ⟨distinct, fun _ => Dinode.distinctNames_nil rfl⟩
  obtain ⟨_, inv, _⟩ := (Follows.sound L small).reachable ⟨consistent.boot counting, start⟩ reach
  exact inv.2.disk i

end Xv6
