import Aurora.Lib.Memory

/-! The transmit side of the PCnet controller as QEMU emulates it, with 32-bit
descriptors, its link up and no loopback. The controller walks the transmit ring
at the index `XMTRL - XMTRC` as long as it finds descriptors it owns, fetches
their buffers, and gives each descriptor back. Registers no modeled function
reads (the interrupt flags and enables) are left out. -/
namespace Aurora.Pcnet
open Lib

/-- `struct pcnet32_tx_desc`; `length` is minus the byte count. -/
structure TxDesc where
  base : Nat
  length : UInt16
  status : UInt16
  misc : Nat
deriving DecidableEq, Repr

namespace TxDesc

def own (tmd : TxDesc) : Bool := tmd.status.toNat.testBit 15
def stp (tmd : TxDesc) : Bool := tmd.status.toNat.testBit 9
def enp (tmd : TxDesc) : Bool := tmd.status.toNat.testBit 8

/-- `CHECK_TMD` accepts the descriptor. -/
def ones (tmd : TxDesc) : Bool := tmd.length.toNat / 2 ^ 12 == 15

def bcnt (tmd : TxDesc) : Nat := 4096 - tmd.length.toNat % 2 ^ 12

def release (tmd : TxDesc) : TxDesc := { tmd with status := tmd.status &&& 0x7fff }

/-- `BUFF` and `UFLO` in `misc`, `ERR` in `status`. -/
def fail (tmd : TxDesc) : TxDesc :=
  { tmd.release with status := tmd.release.status ||| 0x4000, misc := tmd.misc ||| 0xc0000000 }

end TxDesc

structure Nic where
  /-- `TDMD` and `TXON` of CSR0. -/
  tdmd : Bool
  txOn : Bool
  /-- `DXSUFLO` of CSR3 and `DPOLL` of CSR4. -/
  dxsuflo : Bool
  dpoll : Bool
  csr5 : UInt16
  /-- CSR78 and CSR74: the length of the ring, and what is left of it. -/
  xmtrl : Nat
  xmtrc : Nat
  ring : Nat → TxDesc

namespace Nic

/-- The descriptor at `tdra + (XMTRL - XMTRC) * 16`. -/
def index (nic : Nic) : Nat := nic.xmtrl - nic.xmtrc

def current (nic : Nic) : TxDesc := nic.ring nic.index

def setDesc (nic : Nic) (i : Nat) (tmd : TxDesc) : Nic :=
  { nic with ring := fun j => if j = i then tmd else nic.ring j }

/-- `pcnet_csr_writew` for CSR5: the interrupt flags are cleared by writing ones. -/
def writeCsr5 (nic : Nic) (val : UInt16) : Nic :=
  { nic with csr5 := (val &&& ~~~0x0a90) ||| (nic.csr5 &&& ~~~(val &&& 0x0a90) &&& 0x0a90) }

/-- `pcnet_tdte_poll` -/
def tdtePoll (nic : Nic) : Bool := nic.current.ones && nic.current.own

/-- `txdone`: the descriptor goes back to its owner, and the ring moves on. -/
def txdone (nic : Nic) : Nic :=
  { nic.setDesc nic.index nic.current.release with
    xmtrc := if nic.xmtrc ≤ 1 then nic.xmtrl else nic.xmtrc - 1 }

/-! `TDMD` of CSR0 is set by the driver, and cleared with the frame that is sent. -/
def setTdmd (nic : Nic) : Nic := { nic with tdmd := true }
def clearTdmd (nic : Nic) : Nic := { nic with tdmd := false }

/-- One owned descriptor of `pcnet_transmit`. A frame under construction is the
index of its first descriptor and what was fetched so far; `none` is a negative
`xmit_pos`. -/
def fetch (dma : Memory) (nic : Nic) (started : Option (Nat × List UInt8)) :
    List (List UInt8) × Option (Nat × List UInt8) × Nic :=
  let tmd := nic.current
  match if tmd.stp then some (nic.index, []) else started with
  | none => ([], none, nic)
  | some (first, buffer) =>
    if 4096 - 4 < buffer.length + tmd.bcnt then ([], none, nic)
    else if tmd.enp then ([buffer ++ dma.read tmd.base tmd.bcnt], none, nic.clearTdmd)
    else ([], some (first, buffer ++ dma.read tmd.base tmd.bcnt), nic)

/-- The loop of `pcnet_transmit`, at most this many descriptors: the frames
sent, and the controller afterwards. -/
def txagain (dma : Memory) : Nat → Option (Nat × List UInt8) → Nic → List (List UInt8) × Nic
  | 0, _, nic => ([], nic)
  | count + 1, started, nic =>
    if nic.tdtePoll then
      let fetched := nic.fetch dma started
      let rest := txagain dma count fetched.2.1 fetched.2.2.txdone
      (fetched.1 ++ rest.1, rest.2)
    else
      match started with
      | none => ([], nic)
      | some (first, _) =>
        let failed := nic.setDesc first (nic.ring first).fail
        if failed.dxsuflo then txagain dma count started failed else ([], { failed with txOn := false })

/-- `pcnet_transmit` -/
def transmit (dma : Memory) (nic : Nic) : List (List UInt8) × Nic :=
  if nic.txOn then txagain dma nic.xmtrl none nic else ([], nic.clearTdmd)

/-- `pcnet_csr_writew` for CSR0 with `IntEnable | TxDemand`. -/
def demand (dma : Memory) (nic : Nic) : List (List UInt8) × Nic :=
  nic.setTdmd.transmit dma

/-- The transmit part of `pcnet_poll`. -/
def poll (dma : Memory) (nic : Nic) : List (List UInt8) × Nic :=
  if nic.tdmd || (nic.txOn && !nic.dpoll && nic.tdtePoll) then transmit dma nic else ([], nic)

end Nic

/-- A descriptor that hands a complete frame to the controller. -/
structure TxDesc.Whole (tmd : TxDesc) : Prop where
  ones : tmd.ones = true
  own : tmd.own = true
  stp : tmd.stp = true
  enp : tmd.enp = true
  short : tmd.bcnt ≤ 4092

theorem TxDesc.release_own (tmd : TxDesc) : tmd.release.own = false := by
  have masked : (0x7fff : Nat).testBit 15 = false := by decide
  simp only [own, release, UInt16.toNat_and, Nat.testBit_and, UInt16.reduceToNat, masked, Bool.and_false]

namespace Nic
variable {nic : Nic} {dma : Memory}

/-- The controller owns nothing but, perhaps, the `i`-th descriptor. -/
def OwnsOnly (nic : Nic) (i : Nat) : Prop := ∀ j < nic.xmtrl, j ≠ i → (nic.ring j).own = false

def OwnsNothing (nic : Nic) : Prop := ∀ j < nic.xmtrl, (nic.ring j).own = false

theorem OwnsNothing.only (idle : nic.OwnsNothing) (i : Nat) : nic.OwnsOnly i :=
  fun j bound _ => idle j bound

theorem OwnsOnly.setDesc {i : Nat} (alone : nic.OwnsOnly i) (tmd : TxDesc) :
    (nic.setDesc i tmd).OwnsOnly i := by
  intro j bound different
  simp only [Nic.setDesc, if_neg different]
  exact alone j bound different

/-- The controller stops at a descriptor that is not its own. -/
theorem transmit_none (on : nic.txOn = true) (free : nic.current.own = false) :
    nic.transmit dma = ([], nic) := by
  have stop : nic.tdtePoll = false := by simp only [tdtePoll, free, Bool.and_false]
  rw [transmit, if_pos on]
  cases count : nic.xmtrl with
  | zero => rfl
  | succ count => rw [txagain, if_neg (by simp [stop])]

/-- What stays to be done after the controller's last own descriptor: nothing. -/
theorem OwnsOnly.txdone (alone : nic.OwnsOnly nic.index) : nic.txdone.OwnsNothing := by
  intro j bound
  simp only [Nic.txdone, Nic.setDesc]
  split
  · exact TxDesc.release_own _
  · exact alone j bound ‹_›

theorem txdone_index (nonempty : 0 < nic.xmtrl) : nic.txdone.index < nic.txdone.xmtrl := by
  simp only [index, txdone, setDesc]
  split <;> omega

/-- A frame in a single descriptor is sent at once, and nothing behind it. -/
theorem transmit_one (on : nic.txOn = true) (nonempty : 0 < nic.xmtrl)
    (alone : nic.OwnsOnly nic.index) (whole : nic.current.Whole) :
    nic.transmit dma = ([dma.read nic.current.base nic.current.bcnt], nic.clearTdmd.txdone) := by
  have owned : nic.tdtePoll = true := by rw [tdtePoll, whole.ones, whole.own, Bool.and_self]
  have fetched : nic.fetch dma none =
      ([dma.read nic.current.base nic.current.bcnt], none, nic.clearTdmd) := by
    have short := whole.short
    simp only [fetch, whole.stp, if_true, List.length_nil, Nat.zero_add, List.nil_append, whole.enp]
    rw [if_neg (by omega)]
  have idle : nic.clearTdmd.txdone.OwnsNothing := OwnsOnly.txdone alone
  have free : nic.clearTdmd.txdone.current.own = false := idle _ (txdone_index nonempty)
  obtain ⟨count, size⟩ := Nat.exists_eq_succ_of_ne_zero (Nat.ne_of_gt nonempty)
  have rest : txagain dma count none nic.clearTdmd.txdone = ([], nic.clearTdmd.txdone) := by
    cases count with
    | zero => rfl
    | succ count => rw [txagain, if_neg (by simp [tdtePoll, free])]
  have unrolled : nic.transmit dma = txagain dma (count + 1) none nic := by
    rw [transmit, if_pos on, size]
  rw [unrolled, txagain, if_pos owned]
  simp only [fetched, rest, List.append_nil]

/-- A frame offered where the controller looks goes out. -/
theorem demand_here {tmd : TxDesc} (on : nic.txOn = true) (nonempty : 0 < nic.xmtrl)
    (idle : nic.OwnsNothing) (whole : tmd.Whole) :
    (nic.setDesc nic.index tmd).demand dma =
      ([dma.read tmd.base tmd.bcnt], (nic.setDesc nic.index tmd).clearTdmd.txdone) := by
  have current : (nic.setDesc nic.index tmd).setTdmd.current = tmd := if_pos rfl
  have running : (nic.setDesc nic.index tmd).setTdmd.txOn = true := on
  have alone : (nic.setDesc nic.index tmd).setTdmd.OwnsOnly nic.index := (idle.only _).setDesc tmd
  rw [demand, transmit_one running nonempty alone (by rwa [current]), current]
  rfl

/-- A frame offered elsewhere stays there, and the demand with it. -/
theorem demand_elsewhere {tmd : TxDesc} {i : Nat} (on : nic.txOn = true) (other : nic.index ≠ i)
    (free : nic.current.own = false) :
    (nic.setDesc i tmd).demand dma = ([], (nic.setDesc i tmd).setTdmd) := by
  have current : (nic.setDesc i tmd).setTdmd.current = nic.current := if_neg other
  have running : (nic.setDesc i tmd).setTdmd.txOn = true := on
  rw [demand, transmit_none running (by rw [current, free])]

end Nic

end Aurora.Pcnet
