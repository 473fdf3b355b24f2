import Xv6.Net.RoundTrip
import Xv6.Vm.Copy

/-! # Lengths that the user gives

`sockwrite` and `sockread` use the length that the user passes to `write` or `read`, a signed
number that no layer above has checked. -/

namespace Xv6

open Foundation

/-! ## Writing -/

/-- No panic: -1 is returned and the mbuf freed, or `n` with an mbuf for the driver whose data
lies in its array. -/
def WritesSafely (n : BitVec 32) (outcome : Except MbufPanic (Int × Option Mbuf)) : Prop :=
  outcome = .ok (-1, none) ∨
    ∃ sent, outcome = .ok (n.toInt, some sent) ∧ sent.head + sent.len ≤ mbufSize

/-- `net_tx_udp` puts 42 bytes of headers in front of the data. -/
theorem netTxUdp_window {m : Mbuf} (localIp dip : UInt32)
    (sport dport : UInt16) (room : 42 ≤ m.head) (small : m.len ≤ mbufSize) : ∃ sent, netTxUdp
    localIp m dip sport dport = .ok sent ∧ sent.head = m.head - 42 ∧ sent.len = m.len + 42 := by
  change m.len ≤ 2048 at small
  have udpRoom : Udp.size ≤ m.head := by change 8 ≤ m.head; omega
  rw [netTxUdp_eq _ _ _ _ udpRoom (by change m.len + 8 < 2 ^ 32; omega),
    netTxIp_eq _ _ _ (by change 20 ≤ m.head - 8; omega) (by change m.len + 8 + 20 < 2 ^ 32; omega),
    netTxEth_eq _ (by change 14 ≤ m.head - 8 - 20; omega)
      (by change m.len + 8 + 20 + 14 < 2 ^ 32; omega)]
  refine ⟨_, rfl, ?_, ?_⟩
  · change m.head - 8 - 20 - 14 = m.head - 42
    omega
  · change m.len + 8 + 20 + 14 = m.len + 42
    omega

/-- `sockwrite` is safe if and only if it gets no page, or the data fits behind the headroom,
or it fits in the array and `copyin` fails. -/
theorem sockwrite_safe_iff (localIp : UInt32) (si : Connection) (kalloc : Bool)
    (copyin : Nat → Option (List UInt8)) (n : BitVec 32) :
    WritesSafely n (sockwrite localIp si kalloc copyin n.toInt) ↔
      kalloc = false ∨ n.toNat ≤ mbufSize - mbufDefaultHeadroom ∨
        n.toNat ≤ mbufSize ∧ copyin n.toNat = none := by
  cases kalloc with
  | false => exact ⟨fun _ => .inl rfl, fun _ => .inl rfl⟩
  | true =>
    have bound := n.isLt
    have sign := n.toInt_eq_toNat_cond
    have asUint : (n.toInt % 2 ^ 32).toNat = n.toNat := by split at sign <;> omega
    have total : (0 + n.toNat) % 2 ^ 32 = n.toNat := by omega
    rw [sockwrite, if_pos rfl, Mbuf.mbufalloc, if_neg (by decide), asUint]
    dsimp only
    rw [Mbuf.mbufput, total]
    by_cases small : mbufSize < n.toNat
    · rw [if_pos small]
      change 2048 < n.toNat at small
      constructor
      · rintro (failed | ⟨_, failed, _⟩)
        · cases failed
        · cases failed
      rintro (never | fits | ⟨fits, _⟩)
      · cases never
      · change n.toNat ≤ 2048 - 128 at fits
        omega
      · exact absurd small (not_lt.mpr fits)
    · rw [if_neg small]
      change ¬2048 < n.toNat at small
      have asUint64 : (n.toInt % 2 ^ 64).toNat = n.toNat := by
        rw [if_pos (by omega)] at sign
        omega
      dsimp only [bind, Except.bind]
      rw [asUint64]
      cases copied : copyin n.toNat with
      | none => exact ⟨fun _ => .inr (.inr ⟨not_lt.mp small, rfl⟩), fun _ => .inl rfl⟩
      | some bytes =>
        dsimp only
        obtain ⟨sent, sends, head, len⟩ := netTxUdp_window
          (m := ⟨none, mbufDefaultHeadroom, n.toNat, Buffer.patch _ mbufDefaultHeadroom bytes⟩)
          localIp si.raddr si.lport si.rport (show 42 ≤ mbufDefaultHeadroom by decide)
          (not_lt.mp small)
        rw [add_zero, sends]
        have inside : sent.head + sent.len ≤ mbufSize ↔
            n.toNat ≤ mbufSize - mbufDefaultHeadroom := by
          rw [head, len]
          change 128 - 42 + (n.toNat + 42) ≤ 2048 ↔ n.toNat ≤ 2048 - 128
          omega
        constructor
        · rintro (failed | ⟨_, done, fits⟩)
          · simp [pure, Except.pure] at failed
          · cases done
            exact .inr (.inl (inside.mp fits))
        · rintro (never | fits | ⟨_, never⟩)
          · cases never
          · exact .inr ⟨sent, rfl, inside.mpr fits⟩
          · cases never

/-- A length of -1 panics. -/
theorem negative_write_panics : ∃ panic,
    sockwrite 0x0a00020f ⟨0x0a000202, 2000, 25603⟩ true (fun _ => none) (-1) = .error panic :=
  ⟨.mbufput, rfl⟩

/-! ## Reading -/

open Vm Function

/-- `sockread` of an mbuf with `len` bytes of data at `head`. The length is an `int`, which
`copyout` takes as a `uint64`. -/
def sockread (table : UserTable) (killed : Bool) (head len : Nat) (addr : UInt64)
    (n : BitVec 32) (mem : Mem) : Int × Mem :=
  if killed then (-1, mem)
  else
    let len : Int := if (len : Int) > n.toInt then n.toInt else len
    match copyout table addr head (UInt64.ofNat (len % 2 ^ 64).toNat) mem with
    | (returned, mem) => (if returned = -1 then -1 else len, mem)

/-- The data of a queued mbuf lies in its array, in a page that is not the user's. -/
def Queued (table : UserTable) (head len : Nat) : Prop :=
  ∃ page, page + 20 ≤ head ∧ head + len ≤ page + 20 + mbufSize ∧ Apart table page pgSize

/-- The bytes moved are the first of the data, not more than `n`; their number or -1 is
returned; and memory other than the data makes no difference to the user. -/
def Reveals (table : UserTable) (killed : Bool) (head len : Nat) (addr : UInt64)
    (n : BitVec 32) : Prop :=
  ∀ mem, (∃ k, k ≤ n.toInt.toNat ∧ k ≤ len ∧
      (sockread table killed head len addr n mem).2 =
        (copyBytes table toUser k addr.toNat head mem).2 ∧
      ((sockread table killed head len addr n mem).1 = k ∨
        (sockread table killed head len addr n mem).1 = -1)) ∧
    ∀ mem', (∀ i < len, mem' (head + i) = mem (head + i)) →
      (∀ va pa, translate table va = some pa → mem' pa = mem pa) →
      ∀ va pa, translate table va = some pa →
        (sockread table killed head len addr n mem').2 pa =
          (sockread table killed head len addr n mem).2 pa

theorem copyBytes_congr {table : UserTable} {len va k : Nat}
    {mem mem' : Mem} (source : ∀ i < len, mem' (k + i) = mem (k + i)) (same : ∀ va pa,
    translate table va = some pa → mem' pa = mem pa) : ∀ va' pa, translate table va' = some pa →
    (copyBytes table toUser len va k mem').2 pa = (copyBytes table toUser len va k mem).2 pa := by
  induction len generalizing va k mem mem' with
  | zero => exact same
  | succ len ih =>
    rw [copyBytes, copyBytes]
    cases hit : translate table va with
    | none => exact same
    | some pa =>
      have fst : mem' k = mem k := source 0 (Nat.succ_pos len)
      have moved : ∀ a, mem' a = mem a → toUser pa k mem' a = toUser pa k mem a := by
        intro a eq
        by_cases here : a = pa
        · rw [here, toUser, toUser, update_self, update_self, fst]
        · rw [toUser, toUser, update_of_ne here, update_of_ne here, eq]
      refine ih (fun i below => moved _ ?_) (fun va' pa' hit' => moved _ (same va' pa' hit'))
      rw [add_right_comm]
      exact source (i + 1) (by omega)

theorem memmove_const (d s n : Nat) (value : UInt8) :
    memmove d s n (fun _ => value) = fun _ => value := by
  rw [memmove_eq]
  funext a
  rw [overlay, ite_self]

theorem copyLoop_const (table : UserTable) (rounds len va k : Nat) (value : UInt8) :
    (copyLoop table (fun pa k n => memmove pa k n) rounds len va k fun _ => value).2 =
      fun _ => value := by
  induction rounds generalizing len va k with
  | zero => rfl
  | succ rounds ih =>
    rw [copyLoop]
    split
    · dsimp only
      split
      · rfl
      · rw [memmove_const]
        exact ih _ _ _
    · rfl

/-- A move to another place loses some byte: the last of the destination if that comes behind the
source, and its first otherwise. -/
theorem memmove_loses {d s n : Nat} (some : 0 < n) (ne : s ≠ d) :
    ∃ a, memmove d s n (fun b => if b = a then 1 else 0) = fun _ => 0 := by
  refine ⟨if s < d then d + n - 1 else d, ?_⟩
  rw [memmove_eq]
  funext b
  rw [overlay]
  split <;> split <;> exact if_neg (by omega)

/-- As a `uint64` a negative length is large. -/
theorem copyout_rounds {n : BitVec 32} (negative : n.toInt < 0) :
    ∃ rounds, (UInt64.ofNat (n.toInt % 2 ^ 64).toNat).toNat = rounds + 1 := by
  have sign := n.toInt_eq_toNat_cond
  have bound := n.isLt
  refine ⟨(UInt64.ofNat (n.toInt % 2 ^ 64).toNat).toNat - 1, ?_⟩
  rw [UInt64.toNat_ofNat']
  split at sign <;> omega

/-- With a negative length some byte of the user's page is lost that only the datagram could
replace. -/
theorem not_reveals_of_negative {table : UserTable} {head len : Nat} {addr : UInt64}
    {n : BitVec 32} (queued : Queued table head len) (negative : n.toInt < 0)
    (mapped : walkaddr table (pgRoundDown addr.toNat) ≠ 0) :
    ¬Reveals table false head len addr n := by
  intro reveals
  obtain ⟨page, above, fits, apart⟩ := queued
  change head + len ≤ page + 20 + 2048 at fits
  have elsewhere : head ≠
      walkaddr table (pgRoundDown addr.toNat) + (addr.toNat - pgRoundDown addr.toNat) := by
    intro same
    refine apart addr.toNat head ?_ ⟨by omega, ?_⟩
    · rw [Vm.translate, if_neg mapped, ← same]
    · change head < page + 4096
      omega
  obtain ⟨rounds, large⟩ := copyout_rounds negative
  have chunk : 0 < min (pgSize - (addr.toNat - pgRoundDown addr.toNat)) (rounds + 1) :=
    lt_min (Nat.sub_pos_of_lt (offset_lt _)) (Nat.succ_pos _)
  obtain ⟨lost, zeros⟩ := memmove_loses chunk elsewhere
  obtain ⟨⟨k, none, _, memory, _⟩, _⟩ := reveals fun b => if b = lost then 1 else 0
  obtain rfl : k = 0 := by omega
  rw [sockread, if_neg (by decide), if_pos (by omega)] at memory
  dsimp only at memory
  rw [copyout, large, copyLoop, if_pos (Nat.succ_pos _)] at memory
  dsimp only at memory
  rw [if_neg mapped, zeros, copyLoop_const] at memory
  exact absurd (congrFun memory lost) (by simp [copyBytes])

/-- With a negative length and no page at the address, nothing is copied. -/
theorem reveals_of_unmapped {table : UserTable} {head len : Nat} {addr : UInt64} {n : BitVec 32}
    (negative : n.toInt < 0) (unmapped : walkaddr table (pgRoundDown addr.toNat) = 0) :
    Reveals table false head len addr n := by
  obtain ⟨rounds, large⟩ := copyout_rounds negative
  have fails : ∀ mem, sockread table false head len addr n mem = (-1, mem) := by
    intro mem
    rw [sockread, if_neg (by decide), if_pos (by omega)]
    dsimp only
    rw [copyout, large, copyLoop, if_pos (Nat.succ_pos _)]
    dsimp only
    rw [if_pos unmapped]
    rfl
  intro mem
  rw [fails]
  refine ⟨⟨0, Nat.zero_le _, Nat.zero_le _, rfl, .inr rfl⟩, ?_⟩
  intro mem' _ same
  rw [fails]
  exact same

theorem sockread_eq {table : UserTable} {head len : Nat} (addr : UInt64) {n : BitVec 32}
    (mem : Mem) (queued : Queued table head len) (large : 0 ≤ n.toInt) :
    sockread table false head len addr n mem =
      (if (copyBytes table toUser (min n.toInt.toNat len) addr.toNat head mem).1 = -1 then -1
        else ↑(min n.toInt.toNat len),
      (copyBytes table toUser (min n.toInt.toNat len) addr.toNat head mem).2) := by
  obtain ⟨page, above, fits, apart⟩ := queued
  change head + len ≤ page + 20 + 2048 at fits
  have taken : (if (len : Int) > n.toInt then n.toInt else (len : Int)) =
      ↑(min n.toInt.toNat len) := by
    split <;> omega
  have wide : (UInt64.ofNat ((↑(min n.toInt.toNat len) : Int) % 2 ^ 64).toNat).toNat =
      min n.toInt.toNat len := by
    rw [UInt64.toNat_ofNat']
    omega
  have far : Apart table head (min n.toInt.toNat len) := by
    intro va pa hit here
    refine apart va pa hit ⟨by omega, ?_⟩
    change pa < page + 4096
    omega
  rw [sockread, if_neg (by decide), taken]
  dsimp only
  rw [copyout_eq (by rwa [wide]), wide]

theorem reveals_of_nonneg {table : UserTable} {head len : Nat} {addr : UInt64} {n : BitVec 32}
    (queued : Queued table head len) (large : 0 ≤ n.toInt) :
    Reveals table false head len addr n := by
  intro mem
  rw [sockread_eq addr mem queued large]
  constructor
  · refine ⟨_, min_le_left _ _, min_le_right _ _, rfl, ?_⟩
    dsimp only
    split
    · exact .inr rfl
    · exact .inl rfl
  · intro mem' data user
    rw [sockread_eq addr mem' queued large]
    exact copyBytes_congr (fun i below => data i (by omega)) user

/-- `sockread` reveals no more than the data if and only if the process is killed, the length is
not negative, or there is no page at the address. -/
theorem sockread_reveals_iff {table : UserTable} {head len : Nat} (killed : Bool) (addr : UInt64)
    (n : BitVec 32) (queued : Queued table head len) :
    Reveals table killed head len addr n ↔
      killed = true ∨ 0 ≤ n.toInt ∨ walkaddr table (pgRoundDown addr.toNat) = 0 := by
  cases killed with
  | true =>
    refine ⟨fun _ => .inl rfl, fun _ mem => ?_⟩
    exact ⟨⟨0, Nat.zero_le _, Nat.zero_le _, rfl, .inr rfl⟩, fun mem' _ same => same⟩
  | false =>
    simp only [Bool.false_eq_true, false_or]
    by_cases large : 0 ≤ n.toInt
    · exact ⟨fun _ => .inl large, fun _ => reveals_of_nonneg queued large⟩
    have negative := not_le.mp large
    constructor
    · intro reveals
      by_contra exposed
      exact not_reveals_of_negative queued negative (not_or.mp exposed).2 reveals
    · rintro (large | unmapped)
      · omega
      · exact reveals_of_unmapped negative unmapped

theorem emptyDatagram_queued : Queued firstPage 20 0 :=
  ⟨0, le_rfl, by decide, apart_zero firstPage⟩

/-- Five bytes are asked for at the last address of the user's page. -/
theorem sockread_reveals_fifth : Reveals firstPage false 20 0 4095 5 ∧
    ¬Reveals firstPage false 20 0 4095 (-1) :=
  ⟨(sockread_reveals_iff false 4095 5 emptyDatagram_queued).mpr (.inr (.inl (by decide))),
    fun reveals => absurd ((sockread_reveals_iff false 4095 (-1) emptyDatagram_queued).mp reveals)
      (by decide)⟩

/-- A negative length takes the byte after an empty datagram to the end of the user's page. -/
theorem negative_read_reveals : ¬Reveals firstPage false 20 0 4095 (-1) :=
  not_reveals_of_negative emptyDatagram_queued (by decide) (by decide)

end Xv6
