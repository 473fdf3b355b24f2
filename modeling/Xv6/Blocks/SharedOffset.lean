import Xv6.Blocks.FailedCopy

/-! # A shared offset

Processes that share an open file write through it in chunks. Each chunk is written and
moves the offset under the lock of the inode. -/

namespace Xv6

open Foundation List

namespace BlockState

variable {sb : Superblock} {s after : BlockState} {ip : Nat}

/-! ## Other files -/

/-- A file is still there, with the same bytes. -/
def KeepsFile (ip : Nat) (s after : BlockState) : Prop :=
  s.Covered ip → after.Covered ip ∧ after.file ip = s.file ip

theorem KeepsFile.of_leaves (grown : Extends s after)
    (same : ∀ pos, s.refs (.leaf ip (pos / bSize)) ≠ 0 →
    after.content ip pos = s.content ip pos) : KeepsFile ip s after := by
  intro cover
  refine ⟨⟨?_, ?_⟩, ?_⟩
  · rw [grown.type]
    exact cover.live
  · intro bn below
    rw [grown.size] at below
    rw [grown.refs _ (cover.present bn below)]
    exact cover.present bn below
  · apply file_congr (grown.size ip)
    intro pos below
    exact same pos (cover.present_of_lt below)

theorem KeepsFile.of_inode (inode : after.inode ip = s.inode ip)
    (data : after.data = s.data) : KeepsFile ip s after := by
  have refs : ∀ bn, after.refs (.leaf ip bn) = s.refs (.leaf ip bn) := by
    intro bn
    rw [BlockPlace.leaf]
    split
    · rw [BlockState.refs, BlockState.refs, inode]
    · rw [BlockState.refs, BlockState.refs, inode, data]
  intro cover
  refine ⟨⟨by rw [inode]; exact cover.live, ?_⟩, ?_⟩
  · intro bn below
    rw [inode] at below
    rw [refs]
    exact cover.present bn below
  · apply file_congr (by rw [inode])
    intro pos _
    rw [content, content, refs, data]

theorem KeepsFile.trans {fst snd third : BlockState} (left : KeepsFile ip fst snd)
    (right : KeepsFile ip snd third) : KeepsFile ip fst third := by
  intro cover
  have mid := left cover
  have last := right mid.1
  exact ⟨last.1, last.2.trans mid.2⟩

theorem writeLoop_others {copyin : (tot m : Nat) → Copy} (small : sb.size ≤ 2 ^ 32)
    {fuel off tot left : Nat} (exact : s.Exact sb) (live : (s.inode ip).type ≠ .free) :
    Safe (fun out => ∀ i pos, i ≠ ip → s.refs (.leaf i (pos / bSize)) ≠ 0 →
    out.2.2.content i pos = s.content i pos) (writeLoop sb ip copyin fuel off tot left s) := by
  induction fuel generalizing off tot left s with
  | zero => exact fun _ _ _ _ => rfl
  | succ fuel ih =>
    rw [writeLoop]
    split
    · exact fun _ _ _ _ => rfl
    apply ((bmap_spec small exact live).and (bmap_leaves exact live)).bind
    intro out h
    rcases out with ⟨block, mapped⟩
    rcases h with ⟨⟨exactMapped, grown, isLeaf, has⟩, same⟩
    dsimp only at exactMapped grown isLeaf has same ⊢
    generalize isBytes : (copyin tot (min left (bSize - off % bSize))).bytes.take
      (min left (bSize - off % bSize)) = bytes
    have inBlk : off % bSize < bSize := Nat.mod_lt _ (by decide)
    have fits : off % bSize + bytes.length ≤ bSize := by
      rw [← isBytes, length_take]
      omega
    have patched := content_patch exactMapped isLeaf has fits
    rcases exactMapped.setData_leaf isLeaf
      ((mapped.data block).patch (off % bSize) bytes) with ⟨exactWrote, wrote⟩
    have grownWrote := grown.trans wrote
    have fst : ∀ i pos, i ≠ ip → s.refs (.leaf i (pos / bSize)) ≠ 0 →
        (mapped.setData block ((mapped.data block).patch (off % bSize) bytes)).content
          i pos = s.content i pos := by
      intro i pos o old
      rw [patched, if_neg (fun isIn => o isIn.1), same.content grown old]
    split
    · have liveWrote : ((mapped.setData block
          ((mapped.data block).patch (off % bSize) bytes)).inode ip).type ≠ .free := by
        rwa [grownWrote.type]
      apply (ih exactWrote liveWrote).mono
      intro out rest i pos o old
      rw [rest i pos o (by rw [grownWrote.refs _ old]; exact old)]
      exact fst i pos o old
    · exact fst

theorem writei_others {copyin : (tot m : Nat) → Copy} (small : sb.size ≤ 2 ^ 32)
    {off n : BitVec 32} {i : Nat} (exact : s.Exact sb) (live : (s.inode ip).type ≠ .free)
    (o : i ≠ ip) : Safe (fun out => KeepsFile i s out.2) (s.writei sb ip off n copyin) := by
  rw [writei]
  split
  · apply ((writeLoop_spec small exact live).and (writeLoop_others small exact live)).bind
    intro out h
    rcases out with ⟨got, tot, written⟩
    rcases h with ⟨⟨_, grown, _⟩, same⟩
    dsimp only at grown same ⊢
    have kept : KeepsFile i s written := .of_leaves grown fun pos old => same i pos o old
    split
    · exact kept.trans (.of_inode (inode_setInode_of_ne o) rfl)
    · exact kept
  · exact fun cover => ⟨cover, rfl⟩

theorem readLoop_others {copyout : (tot m : Nat) → Bool} {i : Nat} (small : sb.size ≤ 2 ^ 32)
    {fuel off left : Nat} {bytes : List UInt8} (exact : s.Exact sb)
    (live : (s.inode ip).type ≠ .free) : Safe (fun out => KeepsFile i s out.2)
    (readLoop sb ip copyout fuel off left bytes s) := by
  induction fuel generalizing off left bytes s with
  | zero => exact fun cover => ⟨cover, rfl⟩
  | succ fuel ih =>
    rw [readLoop]
    split
    · exact fun cover => ⟨cover, rfl⟩
    apply ((bmap_spec small exact live).and (bmap_leaves exact live)).bind
    intro out h
    rcases out with ⟨block, mapped⟩
    rcases h with ⟨⟨exactMapped, grown, _, _⟩, same⟩
    dsimp only at exactMapped grown same ⊢
    have kept : KeepsFile i s mapped := .of_leaves grown fun pos old => same.content grown old
    split
    · have liveMapped : (mapped.inode ip).type ≠ .free := by rwa [grown.type]
      apply (ih exactMapped liveMapped).mono
      intro out rest
      exact kept.trans rest
    · exact kept

theorem itrunc_others {i : Nat} (exact : s.Exact sb) (live : (s.inode ip).type ≠ .free)
    (o : i ≠ ip) : Safe (KeepsFile i s) (s.itrunc ip) := by
  apply (itrunc_spec exact live).mono
  intro after h
  exact .of_inode (h.2.2.1 i o) h.2.1

end BlockState

/-- The operation may change the bytes of a file. -/
def BlockOp.Changes (ip : Nat) : BlockOp → Prop
  | .writei i _ _ _ => i = ip
  | .itrunc i => i = ip
  | .ifree i => i = ip
  | .readi _ _ _ _ => False
  | .ialloc _ => False
  | .assign _ _ _ _ => False

section

open BlockState

variable {sb : Superblock} {s after : BlockState} {ip : Nat}

theorem BlockOp.run_others (small : sb.size ≤ 2 ^ 32) (exact : s.Exact sb) {op : BlockOp}
    (apart : ¬op.Changes ip) (cover : s.Covered ip) (ran : op.run sb s = .ok after) :
    after.Exact sb ∧ after.Covered ip ∧ after.file ip = s.file ip := by
  have safe : Safe (KeepsFile ip s) (op.run sb s) := by
    have onLk : ∀ {i : Nat} {run : Except BlockPanic BlockState},
        ((s.inode i).type ≠ .free → Safe (KeepsFile ip s) run) →
        Safe (KeepsFile ip s) (locked i s run) := by
      intro i run safe
      rw [locked]
      split
      · rintro ⟨⟩
      · next live => exact safe live
    cases op with
    | writei i off n copyin =>
      exact onLk fun live => Safe.map (writei_others small exact live (Ne.symm apart))
    | readi i off n copyout =>
      exact onLk fun live => Safe.map (readLoop_others small exact live)
    | itrunc i => exact onLk fun live => itrunc_others exact live (Ne.symm apart)
    | ifree i =>
      apply onLk
      intro live
      apply (itrunc_others exact live (Ne.symm apart)).bind
      intro emptied kept
      exact kept.trans (.of_inode (inode_setInode_of_ne (Ne.symm apart)) rfl)
    | ialloc type =>
      apply Safe.map
      rw [BlockState.ialloc]
      split
      · rintro ⟨⟩
      next i hit =>
      have isFree := find?_some hit
      have o : ip ≠ i := by
        rintro rfl
        exact cover.live (by simpa using isFree)
      exact .of_inode (inode_setInode_of_ne o) rfl
    | assign i major minor nlink =>
      apply onLk
      intro _
      rcases assign_spec s i major minor nlink with ⟨same, grown⟩
      apply KeepsFile.of_leaves grown
      intro pos _
      rw [content, content, same]
      rfl
  rw [ran] at safe
  have kept := op.run_spec small exact
  rw [ran] at kept
  exact ⟨kept.1, safe cover⟩

end

/-! ## Writers -/

/-- A call of `filewrite` that has written `i` of `n` bytes. Of its source `limit` bytes
can be copied. -/
structure Writer where
  n : Int
  i : Nat
  source : Nat → UInt8
  limit : Nat

/-- The chunk that a call writes next. -/
def Writer.n1 (writer : Writer) : Nat := min (writer.n - writer.i).toNat BlockState.maxWrite

def Writer.copyin (writer : Writer) : (tot m : Nat) → BlockState.Copy :=
  BlockState.copyin (fun k => writer.source (writer.i + k)) (writer.limit - writer.i)

/-- An open file that processes share, with the calls in progress. The chunks that have
been written are recorded with the place where they went. -/
structure SharedFile (Pid : Type) where
  blocks : BlockState
  off : BitVec 32
  writers : Pid → Option Writer
  chunks : List (Nat × List UInt8)

inductive SharedEvent (Pid : Type)
  | filewrite (p : Pid) (n : Int) (source : Nat → UInt8) (limit : Nat)
  | chunk (p : Pid)
  | other (op : BlockOp)

namespace SharedFile

variable {Pid : Type} [DecidableEq Pid]

def setWriter (s : SharedFile Pid) (p : Pid) (writer : Option Writer) :
    SharedFile Pid :=
  { s with writers := Function.update s.writers p writer }

/-- One turn of the loop of `filewrite`, under the lock of the inode. -/
def chunk (sb : Superblock) (ip : Nat) (p : Pid) (writer : Writer)
    (s : SharedFile Pid) : Except BlockPanic (SharedFile Pid) := do
  let (r, blocks) ← s.blocks.writei sb ip s.off (.ofNat 32 writer.n1) writer.copyin
  let s := { s with blocks := blocks }
  let s :=
    if 0 < r then
      { s with
        off := s.off + .ofNat 32 r.toNat
        chunks := s.chunks ++ [(s.off.toNat,
          (List.range r.toNat).map fun k => writer.source (writer.i + k))] }
    else s
  if r ≠ writer.n1 then .ok (s.setWriter p none)
  else .ok (s.setWriter p (some { writer with i := writer.i + writer.n1 }))

def exec (sb : Superblock) (ip : Nat) (event : SharedEvent Pid)
    (s : SharedFile Pid) : Except BlockPanic (SharedFile Pid) :=
  match event with
  | .filewrite p n source limit =>
    match s.writers p with
    | none => .ok (s.setWriter p (some ⟨n, 0, source, limit⟩))
    | some _ => .ok s
  | .chunk p =>
    match s.writers p with
    | none => .ok s
    | some writer =>
      if writer.i < writer.n then s.chunk sb ip p writer
      else .ok (s.setWriter p none)
  | .other op => do
      let blocks ← op.run sb s.blocks
      .ok { s with blocks := blocks }

/-- The states that events lead to. Others do not change the bytes of the inode. -/
inductive Reached (sb : Superblock) (ip : Nat) (start : SharedFile Pid) :
    SharedFile Pid → Prop
  | start : Reached sb ip start start
  | step {s after : SharedFile Pid} {event : SharedEvent Pid}
      (reached : Reached sb ip start s)
      (apart : ∀ op, event = .other op → ¬op.Changes ip)
      (ran : s.exec sb ip event = .ok after) : Reached sb ip start after

/-- Chunks lie one behind the other between two offsets. -/
def Consecutive : (first last : Nat) → List (Nat × List UInt8) → Prop
  | first, last, [] => first = last
  | first, last, (start, bytes) :: rest =>
    start = first ∧ Consecutive (first + bytes.length) last rest

omit [DecidableEq Pid] in
theorem Consecutive.concat {fst last : Nat} {chunks : List (Nat × List UInt8)}
    (consecutive : Consecutive fst last chunks) (bytes : List UInt8) :
    Consecutive fst (last + bytes.length) (chunks ++ [(last, bytes)]) := by
  induction chunks generalizing fst with
  | nil =>
    have same : fst = last := consecutive
    exact ⟨same.symm, by rw [same]; rfl⟩
  | cons head rest ih => exact ⟨consecutive.1, ih consecutive.2⟩

omit [DecidableEq Pid] in
theorem Consecutive.last_eq {fst last : Nat} {chunks : List (Nat × List UInt8)} (consecutive :
    Consecutive fst last chunks) : last = fst + (chunks.map fun chunk => chunk.2.length).sum := by
  induction chunks generalizing fst with
  | nil =>
    have same : fst = last := consecutive
    simp [same]
  | cons head rest ih =>
    rw [ih consecutive.2, map_cons, sum_cons, add_assoc]

theorem writei_chunk {sb : Superblock} {ip : Nat} {s : BlockState} {off n : BitVec 32}
    {source : Nat → UInt8} {limit : Nat} (small : sb.size ≤ 2 ^ 32) (exact : s.Exact sb)
    (cover : s.Covered ip) : Safe (fun out => out.2.Exact sb ∧ out.2.Covered ip ∧
      (out.2.file ip).take off.toNat = (s.file ip).take off.toNat ∧
      ((out.2.file ip).drop off.toNat).take out.1.toNat = (range out.1.toNat).map source ∧
      off.toNat + out.1.toNat < 2 ^ 32)
      (s.writei sb ip off n (BlockState.copyin source limit)) := by
  by_cases wrb : (s.inode ip).Writable off n
  · rcases BlockState.writable_iff.mp wrb with ⟨start, noWrap, _⟩
    apply (BlockState.writei_supplied (.copyin source n.toNat limit) small exact cover wrb).mono
    rintro out ⟨ret, exactAfter, becomes⟩
    rcases becomes ip cover with ⟨coverAfter, file⟩
    have fewer := BlockState.wholeBlocks_le true off.toNat n.toNat limit
    have most : BlockState.storedBytes true off.toNat n.toNat limit ≤ n.toNat := min_le_left _ _
    rw [Function.update_self] at file
    rw [ret, Int.toNat_natCast, file]
    generalize BlockState.wholeBlocks off.toNat n.toNat limit = whole at fewer ⊢
    generalize BlockState.storedBytes true off.toNat n.toNat limit = stored at fewer most ⊢
    refine ⟨exactAfter, coverAfter, ?_, ?_, by omega⟩
    · apply ext_getElem
      · rw [List.length_take, List.length_take, List.length_map, List.length_range,
          BlockState.length_file]
        omega
      intro pos below _
      rw [length_take] at below
      rw [getElem_take, getElem_map, getElem_range, overlay, if_neg (by omega), getElem_take]
      simp [BlockState.file]
    · apply ext_getElem
      · rw [List.length_take, length_drop, List.length_map, List.length_range,
          length_map, length_range]
        omega
      intro pos below _
      rw [length_take] at below
      rw [getElem_take, getElem_drop, getElem_map, getElem_range, overlay,
        if_pos (by omega), getElem_map, getElem_range, Nat.add_sub_cancel_left]
  · rw [BlockState.writei, if_neg wrb]
    exact ⟨exact, cover, rfl, rfl, off.isLt⟩

theorem take_drop_congr {list later : List UInt8} {stop start count : Nat}
    (same : later.take stop = list.take stop) (isIn : start + count ≤ stop) :
    (later.drop start).take count = (list.drop start).take count := by
  have cut : ∀ bytes : List UInt8,
      (bytes.drop start).take count = ((bytes.take stop).drop start).take count := by
    intro bytes
    rw [drop_take, take_take, min_eq_left (by omega)]
  rw [cut later, cut list, same]

/-- What holds at any time. -/
structure Inv (sb : Superblock) (ip : Nat) (start s : SharedFile Pid) : Prop where
  exact : s.blocks.Exact sb
  covered : s.blocks.Covered ip
  consecutive : Consecutive start.off.toNat s.off.toNat s.chunks
  below : ∀ chunk ∈ s.chunks, chunk.1 + chunk.2.length ≤ s.off.toNat
  held : ∀ chunk ∈ s.chunks,
    ((s.blocks.file ip).drop chunk.1).take chunk.2.length = chunk.2

variable {sb : Superblock} {ip : Nat} {start s after : SharedFile Pid} {p : Pid}

omit [DecidableEq Pid] in
theorem Inv.keep (inv : Inv sb ip start s) {blks : BlockState}
    (exact : blks.Exact sb) (cover : blks.Covered ip)
    (same : (blks.file ip).take s.off.toNat = (s.blocks.file ip).take s.off.toNat) :
    Inv sb ip start { s with blocks := blks } where
  exact := exact
  covered := cover
  consecutive := inv.consecutive
  below := inv.below
  held chunk mem := by
    rw [take_drop_congr same (inv.below chunk mem)]
    exact inv.held chunk mem

omit [DecidableEq Pid] in
theorem Inv.add (inv : Inv sb ip start s) (bytes : List UInt8)
    (noWrap : s.off.toNat + bytes.length < 2 ^ 32)
    (stored : ((s.blocks.file ip).drop s.off.toNat).take bytes.length = bytes) :
    Inv sb ip start { s with
      off := s.off + .ofNat 32 bytes.length
      chunks := s.chunks ++ [(s.off.toNat, bytes)] } := by
  have moved : (s.off + BitVec.ofNat 32 bytes.length).toNat = s.off.toNat + bytes.length := by
    rw [BitVec.toNat_add, BitVec.toNat_ofNat]
    omega
  refine ⟨inv.exact, inv.covered, ?_, ?_, ?_⟩
  · dsimp only
    rw [moved]
    exact inv.consecutive.concat bytes
  · intro chunk mem
    dsimp only
    rw [moved]
    rcases mem_append.mp mem with old | new
    · have pre := inv.below chunk old
      omega
    · rw [mem_singleton.mp new]
  · intro chunk mem
    rcases mem_append.mp mem with old | new
    · exact inv.held chunk old
    · rwa [mem_singleton.mp new]

theorem Inv.setWriter (inv : Inv sb ip start s) (writer : Option Writer) :
    Inv sb ip start (s.setWriter p writer) :=
  ⟨inv.exact, inv.covered, inv.consecutive, inv.below, inv.held⟩

theorem Inv.chunk (small : sb.size ≤ 2 ^ 32) (inv : Inv sb ip start s) {writer : Writer}
    (ran : s.chunk sb ip p writer = .ok after) : Inv sb ip start after := by
  have safe : Safe _ (s.blocks.writei sb ip s.off (.ofNat 32 writer.n1) writer.copyin) :=
    writei_chunk small inv.exact inv.covered
  rw [SharedFile.chunk] at ran
  cases wrote : s.blocks.writei sb ip s.off (.ofNat 32 writer.n1) writer.copyin with
  | error panic =>
    rw [wrote] at ran
    cases ran
  | ok out =>
    rcases out with ⟨r, blks⟩
    rw [wrote] at ran safe
    rcases safe with ⟨exact, cover, same, stored, noWrap⟩
    dsimp only [bind, Except.bind] at ran
    have kept := inv.keep exact cover same
    have advanced : Inv sb ip start (if 0 < r then
        { s with
          blocks := blks
          off := s.off + .ofNat 32 r.toNat
          chunks := s.chunks ++ [(s.off.toNat,
            (range r.toNat).map fun k => writer.source (writer.i + k))] }
        else { s with blocks := blks }) := by
      split
      · have length : ((range r.toNat).map fun k =>
            writer.source (writer.i + k)).length = r.toNat := by
          simp
        have added := kept.add ((range r.toNat).map fun k => writer.source (writer.i + k))
          (by rw [length]; exact noWrap) (by rw [length]; exact stored)
        rwa [length] at added
      · exact kept
    split at ran
    · cases ran
      exact advanced.setWriter none
    · cases ran
      exact advanced.setWriter _

theorem Inv.exec (small : sb.size ≤ 2 ^ 32) (inv : Inv sb ip start s)
    {event : SharedEvent Pid} (apart : ∀ op, event = .other op → ¬op.Changes ip)
    (ran : s.exec sb ip event = .ok after) : Inv sb ip start after := by
  cases event with
  | filewrite p n source limit =>
    rw [SharedFile.exec] at ran
    split at ran
    · cases ran
      exact inv.setWriter _
    · cases ran
      exact inv
  | chunk p =>
    rw [SharedFile.exec] at ran
    split at ran
    · cases ran
      exact inv
    split at ran
    · exact inv.chunk small ran
    · cases ran
      exact inv.setWriter none
  | other op =>
    rw [SharedFile.exec] at ran
    cases done : op.run sb s.blocks with
    | error panic =>
      rw [done] at ran
      cases ran
    | ok blks =>
      rw [done] at ran
      cases ran
      rcases op.run_others small inv.exact (apart op rfl) inv.covered done
        with ⟨exact, cover, same⟩
      exact inv.keep exact cover (by rw [same])

theorem Reached.inv (got : Reached sb ip start s) (small : sb.size ≤ 2 ^ 32)
    (exact : start.blocks.Exact sb) (cover : start.blocks.Covered ip)
    (fresh : start.chunks = []) : Inv sb ip start s := by
  induction got with
  | start =>
    refine ⟨exact, cover, ?_, ?_, ?_⟩
    · rw [fresh]
      rfl
    · intro chunk mem
      rw [fresh] at mem
      cases mem
    · intro chunk mem
      rw [fresh] at mem
      cases mem
  | step _ apart ran ih => exact ih.exec small apart ran

/-- Chunks that are written through a shared file lie one behind the other from where the
offset was at first, in the order in which they are written, and stay in the file. -/
theorem shared_offset_keeps_chunks (small : sb.size ≤ 2 ^ 32) (exact : start.blocks.Exact sb)
    (covered : start.blocks.Covered ip) (fresh : start.chunks = [])
    (reached : Reached sb ip start s) : Consecutive start.off.toNat s.off.toNat s.chunks ∧
    s.off.toNat = start.off.toNat + (s.chunks.map fun chunk => chunk.2.length).sum ∧
    ∀ chunk ∈ s.chunks, ((s.blocks.file ip).drop chunk.1).take chunk.2.length = chunk.2 := by
  have inv := reached.inv small exact covered fresh
  exact ⟨inv.consecutive, inv.consecutive.last_eq, inv.held⟩

theorem Reached.events (got : Reached sb ip start s) {events : List (SharedEvent Pid)}
    (own : ∀ event ∈ events, ∀ op, event ≠ .other op)
    (ran : events.foldlM (fun s event => exec sb ip event s) s = .ok after) :
    Reached sb ip start after := by
  induction events generalizing s with
  | nil =>
    cases ran
    exact got
  | cons event rest ih =>
    rw [foldlM_cons] at ran
    cases fst : s.exec sb ip event with
    | error panic =>
      rw [fst] at ran
      cases ran
    | ok mid =>
      rw [fst] at ran
      have apart : ∀ op, event = .other op → ¬op.Changes ip :=
        fun op isO => absurd isO (own event mem_cons_self op)
      exact ih (got.step apart fst) (fun later mem => own later (mem_cons_of_mem _ mem)) ran

/-! ## Two writers -/

/-- A file that two processes have opened at its start. -/
def opened (blocks : BlockState) : SharedFile Bool := ⟨blocks, 0, fun _ => none, []⟩

/-- Each of them writes two bytes. -/
def twoWrites : List (SharedEvent Bool) :=
  [.filewrite false 2 (fun _ => 8) 2, .filewrite true 2 (fun _ => 9) 2, .chunk false, .chunk true]

theorem shared_offset_keeps_chunks_two : ∃ (blocks : BlockState) (s : SharedFile Bool),
    Reached Mkfs.superblock 1 (opened blocks) s ∧ s.chunks = [(0, [8, 8]), (2, [9, 9])] ∧
    ((s.blocks.file 1).drop 2).take 2 = [9, 9] := by
  have evaluated : (match BlockOp.runAll Mkfs.superblock writesFile freshDisk with
      | .ok blocks =>
        match twoWrites.foldlM (fun s event => exec Mkfs.superblock 1 event s)
          (opened blocks) with
        | .ok s => (blocks.inode 1).type == .file && s.chunks == [(0, [8, 8]), (2, [9, 9])]
        | .error _ => false
      | .error _ => false) = true := by
    decide +kernel
  cases ran : BlockOp.runAll Mkfs.superblock writesFile freshDisk with
  | error panic =>
    rw [ran] at evaluated
    cases evaluated
  | ok blocks =>
    rw [ran] at evaluated
    have kept := BlockOp.runAll_keeps (by decide) (freshDisk_exact rfl) ran
    dsimp only at evaluated
    cases wrote : twoWrites.foldlM (fun s event => exec Mkfs.superblock 1 event s)
        (opened blocks) with
    | error panic =>
      rw [wrote] at evaluated
      cases evaluated
    | ok s =>
      rw [wrote] at evaluated
      simp only [Bool.and_eq_true, beq_iff_eq] at evaluated
      rcases evaluated with ⟨isFile, chunks⟩
      have live : (blocks.inode 1).type ≠ .free := by
        rw [isFile]
        exact file_ne_free
      have covered : blocks.Covered 1 := ⟨live, kept.2 (fun _ live => absurd rfl live) 1 live⟩
      have reached : Reached Mkfs.superblock 1 (opened blocks) s := by
        refine Reached.start.events ?_ wrote
        simp [twoWrites]
      have holds := shared_offset_keeps_chunks (by decide) kept.1 covered rfl reached
      refine ⟨blocks, s, reached, chunks, holds.2.2 (2, [9, 9]) ?_⟩
      rw [chunks]
      simp

end SharedFile

end Xv6
