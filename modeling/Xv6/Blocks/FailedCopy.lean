import Xv6.Blocks.Content

/-! # Copies that fail

The copy of `writei` goes straight into a buffer, and may stop inside a block. The buffer
is not logged then, so that what was copied is seen until the buffer is evicted. -/

namespace Xv6

open Foundation BlockState List Mkfs

namespace BlockState

/-- `either_copyin` of memory of which the first `limit` bytes are mapped. -/
def copyin (source : Nat → UInt8) (limit tot m : Nat) : Copy :=
  if tot + m ≤ limit then copyOf source tot m
  else ⟨(copyOf source tot (limit - tot)).bytes, false⟩

/-- What is left of a copy when its buffer has been evicted. -/
def evicted (copyin : (tot m : Nat) → Copy) (tot m : Nat) : Copy :=
  if (copyin tot m).ok then copyin tot m else ⟨[], false⟩

theorem Supplies.copyin (source : Nat → UInt8) (total limit : Nat) :
    Supplies source total limit true (copyin source limit) where
  whole _ _ reaches := if_pos reaches
  part _ _ _ behind _ := if_neg (not_le.mpr behind)

theorem Supplies.evicted {source : Nat → UInt8} {total limit : Nat} {keep : Bool}
    {copyin : (tot m : Nat) → Copy} (supplies : Supplies source total limit keep copyin) :
    Supplies source total limit false (evicted copyin) where
  whole tot m reaches := by
    rw [BlockState.evicted, supplies.whole tot m reaches]
    exact if_pos rfl
  part tot m within behind all := by
    rw [BlockState.evicted, supplies.part tot m within behind all]
    exact if_neg Bool.false_ne_true

variable {sb : Superblock} {s : BlockState} {ip : Nat}

theorem overlay_eq_iff {old source : Nat → UInt8} {size start whole stored : Nat}
    (within : start ≤ size) (fewer : whole ≤ stored) :
    (range (max size (start + whole))).map (overlay old start stored source) =
    splice ((range size).map old) start ((range whole).map source) ↔
    ∀ k, whole ≤ k → k < stored → start + k < size → source k = old (start + k) := by
  rw [← map_range_overlay within, map_inj_left]
  constructor
  · intro eq k from_ below isIn
    have here := eq (start + k) (mem_range.mpr (by omega))
    rwa [overlay, if_pos (by omega), overlay, if_neg (by omega), Nat.add_sub_cancel_left] at here
  intro eq pos mem
  have below := mem_range.mp mem
  by_cases first : start ≤ pos ∧ pos < start + whole
  · rw [overlay, if_pos (by omega), overlay, if_pos first]
  by_cases extra : start ≤ pos ∧ pos < start + stored
  · have here := eq (pos - start) (by omega) (by omega) (by omega)
    rw [overlay, if_pos extra, overlay, if_neg first, here]
    congr 1
    omega
  · rw [overlay, if_neg extra, overlay, if_neg first]

/-- After a copy of which `limit` bytes succeed, `writei` has written the blocks that were
copied as a whole. Once the buffers are evicted, the file has exactly these bytes. Before,
it has them if and only if the bytes of the last block that were copied are the ones that
the file had there. -/
theorem failed_copy_keeps_bytes (small : sb.size ≤ 2 ^ 32) (exact : s.Exact sb)
    (covered : s.Covered ip) (off n : BitVec 32) (source : Nat → UInt8) (limit : Nat) :
    Finishes (fun out : Int × BlockState => 0 ≤ out.1 →
      ∃ tot : Nat, out.1 = (tot : Int) ∧ tot = wholeBlocks off.toNat n.toNat limit ∧
      (out.2.inode ip).size = max (s.inode ip).size (off.toNat + tot) ∧
      (out.2.file ip = splice (s.file ip) off.toNat ((List.range tot).map source) ↔
        ∀ k, tot ≤ k → k < min n.toNat limit → off.toNat + k < (s.inode ip).size →
          source k = s.content ip (off.toNat + k))) (s.writei sb ip off n (copyin source limit)) ∧
    Finishes (fun out : Int × BlockState => 0 ≤ out.1 →
      ∃ tot : Nat, out.1 = (tot : Int) ∧ tot = wholeBlocks off.toNat n.toNat limit ∧
      out.2.file ip = splice (s.file ip) off.toNat ((List.range tot).map source))
      (s.writei sb ip off n (evicted (copyin source limit))) := by
  by_cases writable : (s.inode ip).Writable off n
  · have start := (writable_iff.mp writable).1
    have stored : storedBytes true off.toNat n.toNat limit = min n.toNat limit := if_pos rfl
    have dropped : storedBytes false off.toNat n.toNat limit =
        wholeBlocks off.toNat n.toNat limit := rfl
    have fewer := wholeBlocks_le true off.toNat n.toNat limit
    have supplies := Supplies.copyin source n.toNat limit
    constructor
    · apply Safe.finishes _ .writei
      apply (writei_supplied supplies small exact covered writable).mono
      intro out holds _
      rcases holds with ⟨returned, _, becomes⟩
      have here := (becomes ip covered).2
      rw [Function.update_self] at here
      refine ⟨_, returned, rfl, ?_, ?_⟩
      · have length := congrArg List.length here
        rwa [length_file, List.length_map, List.length_range] at length
      · rw [here, ← stored]
        exact overlay_eq_iff start fewer
    · apply Safe.finishes _ .writei
      apply (writei_supplied supplies.evicted small exact covered writable).mono
      intro out holds _
      rcases holds with ⟨returned, _, becomes⟩
      have here := (becomes ip covered).2
      rw [Function.update_self, dropped, map_range_overlay start] at here
      exact ⟨_, returned, rfl, here⟩
  · rw [writei, if_neg writable, writei, if_neg writable]
    have negative : ¬(0 : Int) ≤ -1 := by decide
    exact ⟨fun nonnegative => absurd nonnegative negative,
      fun nonnegative => absurd nonnegative negative⟩

/-! ## A copy that stops after two bytes -/

theorem stopped_copy : ∃ s s' : BlockState, s.Exact superblock ∧ s.NoHoles ∧ s.Covered 1 ∧
    s.file 1 = [7, 7, 7, 7, 7] ∧ s.writei superblock 1 0 4 (copyin (fun _ => 9) 2) = .ok (0, s') ∧
    s'.file 1 = [9, 9, 7, 7, 7] ∧ (s'.inode 1).type = .file := by
  have eval : (match BlockOp.runAll superblock writesFile freshDisk with
      | .ok s => s.file 1 == [7, 7, 7, 7, 7] && (s.inode 1).type == .file &&
          match s.writei superblock 1 0 4 (copyin (fun _ => 9) 2) with
          | .ok (tot, s') => tot == 0 && s'.file 1 == [9, 9, 7, 7, 7] && (s'.inode 1).type == .file
          | .error _ => false
      | .error _ => false) = true := by
    decide +kernel
  cases ran : BlockOp.runAll superblock writesFile freshDisk with
  | error panic =>
    rw [ran] at eval
    cases eval
  | ok s =>
    have kept := BlockOp.runAll_keeps (by decide) (freshDisk_exact rfl) ran
    have noHoles := kept.2 fun _ live => absurd rfl live
    rw [ran] at eval
    simp only [Bool.and_eq_true, beq_iff_eq] at eval
    rcases eval with ⟨⟨isFile, type⟩, writes⟩
    have live : (s.inode 1).type ≠ .free := by
      rw [type]
      exact file_ne_free
    cases wrote : s.writei superblock 1 0 4 (copyin (fun _ => 9) 2) with
    | error panic =>
      rw [wrote] at writes
      cases writes
    | ok out =>
      rcases out with ⟨tot, s'⟩
      rw [wrote] at writes
      simp only [Bool.and_eq_true, beq_iff_eq] at writes
      rcases writes with ⟨⟨rfl, isAfter⟩, afterType⟩
      exact ⟨s, s', kept.1, noHoles, ⟨live, noHoles 1 live⟩, isFile, wrote, isAfter, afterType⟩

/-- Nothing is written, and the first two bytes of the file have changed. -/
theorem failed_copy_changes_file : ∃ s after : BlockState, s.Exact Mkfs.superblock ∧ s.Covered 1 ∧
    s.readi Mkfs.superblock 1 0 5 (fun _ _ => true) = .ok (some [7, 7, 7, 7, 7], s) ∧
    s.writei Mkfs.superblock 1 0 4 (copyin (fun _ => 9) 2) = .ok (0, after) ∧
    after.readi Mkfs.superblock 1 0 5 (fun _ _ => true) = .ok (some [9, 9, 7, 7, 7], after) := by
  rcases stopped_copy with
    ⟨s, after, exact, noHoles, covered, isFile, wrote, isAfter, afterType⟩
  have liveAfter : (after.inode 1).type ≠ .free := by
    rw [afterType]
    exact file_ne_free
  have coveredAfter : after.Covered 1 := by
    have safe : Safe _ (s.writei Mkfs.superblock 1 0 4 (copyin (fun _ => 9) 2)) :=
      writei_spec (by decide) exact covered.live
    rw [wrote] at safe
    exact ⟨liveAfter, safe.2 noHoles 1 liveAfter⟩
  refine ⟨s, after, exact, covered, ?_, wrote, ?_⟩
  · rw [readi_content covered, isFile]
    rfl
  · rw [readi_content coveredAfter, isAfter]
    rfl

/-- The same copy, once the buffer has been evicted. -/
theorem failed_copy_keeps_bytes_evicted : ∃ s : BlockState, s.Covered 1 ∧
    Finishes (fun out : Int × BlockState => 0 ≤ out.1 →
      ∃ tot : Nat, out.1 = (tot : Int) ∧ tot = wholeBlocks 0 4 2 ∧
      out.2.file 1 = splice (s.file 1) 0 ((List.range tot).map fun _ => 9))
      (s.writei Mkfs.superblock 1 0 4 (evicted (copyin (fun _ => 9) 2))) := by
  rcases stopped_copy with ⟨s, _, exact, _, covered, _⟩
  exact ⟨s, covered, (failed_copy_keeps_bytes (by decide) exact covered 0 4 (fun _ => 9) 2).2⟩

end BlockState

end Xv6
