import Xv6.Net.Mbuf

/-! # The window of an mbuf

The pointer arithmetic of `mbufpull`, `mbufpush`, `mbufput` and `mbuftrim` for any 32-bit
length. -/

namespace Xv6

/-- `PHYSTOP`. -/
def physTop : Nat := 0x88000000

/-- `struct mbuf` with its addresses. -/
structure MbufWindow where
  buf : BitVec 64
  head : BitVec 64
  len : BitVec 32

namespace MbufWindow

def mbufpull (m : MbufWindow) (len : BitVec 32) : BitVec 64 × MbufWindow :=
  if m.len < len then (0, m)
  else (m.head, { m with len := m.len - len, head := m.head + len.setWidth 64 })

/-- The check comes after the subtraction, which may wrap around. -/
def mbufpush (m : MbufWindow) (len : BitVec 32) : Except MbufPanic (BitVec 64 × MbufWindow) :=
  let head := m.head - len.setWidth 64
  if head < m.buf then .error .mbufpush
  else .ok (head, { m with head := head, len := m.len + len })

def mbufput (m : MbufWindow) (len : BitVec 32) : Except MbufPanic (BitVec 64 × MbufWindow) :=
  if (m.len + len).toNat > mbufSize then .error .mbufput
  else .ok (m.head + m.len.setWidth 64, { m with len := m.len + len })

def mbuftrim (m : MbufWindow) (len : BitVec 32) : BitVec 64 × MbufWindow :=
  if len > m.len then (0, m)
  else (m.head + (m.len - len).setWidth 64, { m with len := m.len - len })

/-- `mbufalloc` on a page of `kalloc` that has its `buf` at the address. -/
def mbufalloc (buf : BitVec 64) (headroom : BitVec 32) : Option MbufWindow :=
  if headroom.toNat > mbufSize then none else some ⟨buf, buf + headroom.setWidth 64, 0⟩

/-- The data lies in `buf`. -/
def Inside (m : MbufWindow) : Prop :=
  m.buf.toNat ≤ m.head.toNat ∧ m.head.toNat + m.len.toNat ≤ m.buf.toNat + mbufSize

/-- The bytes of `buf` behind the data. -/
def tailroom (m : MbufWindow) : Nat :=
  m.buf.toNat + mbufSize - (m.head.toNat + m.len.toNat)

end MbufWindow

inductive MbufOp
  | pull (len : BitVec 32)
  | push (len : BitVec 32)
  | put (len : BitVec 32)
  | trim (len : BitVec 32)

open MbufWindow

namespace MbufOp

def exec : MbufOp → MbufWindow → Except MbufPanic MbufWindow
  | pull len, m => .ok (m.mbufpull len).2
  | push len, m => (m.mbufpush len).map Prod.snd
  | put len, m => (m.mbufput len).map Prod.snd
  | trim len, m => .ok (m.mbuftrim len).2

/-- `mbufpush` is given no length above the address of `head`, and `mbufput` none above the room
behind the data, short of one that wraps `len` around. -/
def Heeds : MbufOp → MbufWindow → Prop
  | push len, m => len.toNat ≤ m.head.toNat
  | put len, m => len.toNat ≤ m.tailroom ∨ 2 ^ 32 ≤ m.len.toNat + len.toNat
  | _, _ => True

instance (op : MbufOp) (m : MbufWindow) : Decidable (op.Heeds m) := by
  cases op <;> unfold Heeds <;> infer_instance

/-- The window is inside at the start and after every operation, up to a panic. -/
def StaysInside : List MbufOp → MbufWindow → Prop
  | [], m => m.Inside
  | op :: ops, m => m.Inside ∧ ∀ m', op.exec m = .ok m' → StaysInside ops m'

/-- Every operation that does not panic heeds the bounds. -/
def Heed : List MbufOp → MbufWindow → Prop
  | [], _ => True
  | op :: ops, m => ∀ m', op.exec m = .ok m' → op.Heeds m ∧ Heed ops m'

variable {m m' : MbufWindow} {op : MbufOp}

theorem exec_inside_iff (ram : m.buf.toNat + mbufSize ≤ physTop) (inside : m.Inside)
    (did : op.exec m = .ok m') : m'.buf = m.buf ∧ (m'.Inside ↔ op.Heeds m) := by
  obtain ⟨low, high⟩ := inside
  rw [mbufSize] at *
  rw [physTop] at ram
  cases op with
  | pull len =>
    cases did
    rw [mbufpull]
    split
    · exact ⟨rfl, iff_of_true ⟨low, high⟩ trivial⟩
    refine ⟨rfl, iff_of_true ?_ trivial⟩
    rw [Inside, mbufSize]
    bv_omega
  | push len =>
    simp only [exec, mbufpush] at did
    split at did
    · cases did
    cases did
    refine ⟨rfl, ?_⟩
    rw [Inside, mbufSize, Heeds]
    bv_omega
  | put len =>
    simp only [exec, mbufput] at did
    split at did
    · cases did
    cases did
    refine ⟨rfl, ?_⟩
    rw [Inside, mbufSize, Heeds, tailroom, mbufSize]
    bv_omega
  | trim len =>
    cases did
    rw [mbuftrim]
    split
    · exact ⟨rfl, iff_of_true ⟨low, high⟩ trivial⟩
    refine ⟨rfl, iff_of_true ?_ trivial⟩
    rw [Inside, mbufSize]
    bv_omega

theorem staysInside_iff {ops : List MbufOp} (ram : m.buf.toNat + mbufSize ≤ physTop)
    (inside : m.Inside) : StaysInside ops m ↔ Heed ops m := by
  induction ops generalizing m with
  | nil => exact iff_of_true inside trivial
  | cons op ops ih =>
    rw [StaysInside, Heed, and_iff_right inside]
    refine forall₂_congr fun m' did => ?_
    obtain ⟨sameBuf, step⟩ := exec_inside_iff ram inside did
    rw [← sameBuf] at ram
    constructor
    · intro stays
      have inside' : m'.Inside := by
        cases ops with
        | nil => exact stays
        | cons => exact stays.1
      exact ⟨step.mp inside', (ih ram inside').mp stays⟩
    · rintro ⟨heeds, rest⟩
      exact (ih ram (step.mpr heeds)).mpr rest

variable {len : BitVec 32} {ret : BitVec 64}

theorem pull_push_iff (pushed : m.mbufpush len = .ok (ret, m')) :
    (m'.mbufpull len).2 = m ↔ m.len.toNat + len.toNat < 2 ^ 32 := by
  rw [mbufpush] at pushed
  split at pushed
  · cases pushed
  cases pushed
  rw [mbufpull]
  split
  · refine iff_of_false (fun same => ?_) (by bv_omega)
    have lens := congrArg MbufWindow.len same
    bv_omega
  · refine iff_of_true ?_ (by bv_omega)
    rw [BitVec.add_sub_cancel, BitVec.sub_add_cancel]

theorem trim_put_iff (done : m.mbufput len = .ok (ret, m')) :
    (m'.mbuftrim len).2 = m ↔ m.len.toNat + len.toNat < 2 ^ 32 := by
  rw [mbufput] at done
  split at done
  · cases done
  cases done
  rw [mbuftrim]
  split
  · refine iff_of_false (fun same => ?_) (by bv_omega)
    have lens := congrArg MbufWindow.len same
    bv_omega
  · refine iff_of_true ?_ (by bv_omega)
    rw [BitVec.add_sub_cancel]

/-- When the operations keep the window inside, and when they restore it. -/
theorem mbuf_window_iff {buf : BitVec 64} (ram : buf.toNat + mbufSize ≤ physTop)
    {headroom : BitVec 32} (made : mbufalloc buf headroom = some m) (ops : List MbufOp) :
    (StaysInside ops m ↔ Heed ops m) ∧ ∀ (mid : MbufWindow) len ret m',
      (mid.mbufpush len = .ok (ret, m') →
        ((m'.mbufpull len).2 = mid ↔ mid.len.toNat + len.toNat < 2 ^ 32)) ∧
      (mid.mbufput len = .ok (ret, m') →
        ((m'.mbuftrim len).2 = mid ↔ mid.len.toNat + len.toNat < 2 ^ 32)) := by
  refine ⟨?_, fun mid len ret m' => ⟨pull_push_iff, trim_put_iff⟩⟩
  rw [mbufalloc] at made
  split at made
  · cases made
  cases made
  refine staysInside_iff ram ?_
  rw [mbufSize] at *
  rw [physTop] at ram
  rw [Inside, mbufSize]
  bv_omega

theorem heed_cons {ops : List MbufOp} (did : op.exec m = .ok m') (heeds : op.Heeds m)
    (rest : Heed ops m') : Heed (op :: ops) m := by
  intro other ran
  rw [did] at ran
  cases ran
  exact ⟨heeds, rest⟩

/-- Data with a header in front, and a put that fills the buffer exactly, while one byte more
does not stay inside. -/
theorem mbuf_window_filled : ∃ m, mbufalloc 0x80001014 128 = some m ∧
    StaysInside [.put 64, .push 42, .pull 14, .trim 8, .put 1864] m ∧
    ¬StaysInside [.put 64, .push 42, .pull 14, .trim 8, .put 1865] m := by
  refine ⟨_, rfl, (@mbuf_window_iff _ 0x80001014 (by decide) 128 rfl _).1.mpr ?_,
    fun stays => ?_⟩
  · exact heed_cons rfl (by decide) <| heed_cons rfl (by decide) <| heed_cons rfl (by decide) <|
      heed_cons rfl (by decide) <| heed_cons rfl (by decide) trivial
  · have heed := (@mbuf_window_iff _ 0x80001014 (by decide) 128 rfl _).1.mp stays
    have last := ((((heed _ rfl).2 _ rfl).2 _ rfl).2 _ rfl).2 _ rfl
    exact absurd last.1 (by decide)

/-- The default headroom and data of the size of the whole buffer. -/
theorem put_past_end : ∃ m m', mbufalloc 0x80001014 128 = some m ∧
    (put 2048).exec m = .ok m' ∧ ¬m'.Inside := ⟨_, _, rfl, rfl, by unfold Inside; decide⟩

end MbufOp

end Xv6
