import Aurora.Ring.Steps
import Aurora.Smm.Keyboard

/-! The network supervisor and the receive side of its PCnet driver. Received
frames are found through the descriptor ring of the OS driver; a frame that
carries the marker of an enclave packet is put into the IN ring without its
Ethernet header, and its descriptor is cleared so that the OS never sees it. -/
namespace Aurora.Smm.Network
open Lib

def rxRingSize : Nat := 32
def rxInt : Nat := 10

/-! Fields of `struct pcnet32_rx_desc`, 16 bytes, and of `struct pcnet32_init_block`. -/

def rxDescSize : Nat := 16
def rxBase (m : Memory) (rxs : Nat) : Nat := (m.window 32 rxs).word 0 4
def rxStatus (m : Memory) (rxs : Nat) : Nat := (m.window 32 rxs).word 6 2
def rxMsgLength (m : Memory) (rxs : Nat) : Nat := (m.window 32 rxs).word 8 4
def rxRing (m : Memory) (initBlock : Nat) : Nat := (m.window 32 initBlock).word 20 4

/-- The received frame, from the Ethernet header on. -/
def frame (m : Memory) (rxs : Nat) : Memory := m.window 32 (rxBase m rxs)

def etherHeader : Nat := 14

/-- `70 == ip->ip_vhl`, and the first IP option is all zero. -/
def marked (m : Memory) (rxs : Nat) : Bool :=
  frame m rxs etherHeader == 70 && (frame m rxs).read 34 4 == [0, 0, 0, 0]

/-- `cp->ulen`, in 32-bit arithmetic. -/
def ulen (m : Memory) (rxs : Nat) : Nat := (rxMsgLength m rxs + 2 ^ 32 - etherHeader) % 2 ^ 32

/-- What SMM finds on its stack and draws from the random source, for the
`i`-th descriptor of a round. -/
structure Stack where
  smmTmpBuf : Nat
  residual : Nat → Memory
  random : Nat → Memory

def smmTmpBufSize : Nat := 1600

/-- `smm_tmp_buf` when it is handed to the put: the length prefix, the packet,
and whatever the stack held behind them. -/
def packet (m : Memory) (rxs : Nat) (residual : Memory) : Memory := fun k =>
  if k < 4 then (littleEndian 4 (ulen m rxs)).getD k 0
  else if k < 4 + ulen m rxs then frame m rxs (etherHeader + (k - 4))
  else residual k

/-- The constant length of the put passes its checks. -/
theorem accept_packet (raw : Buffer) (random : Memory) :
    accept true raw 4032 random = .ok (padded raw 4032 random) :=
  accept_within raw random (by decide)

/-- `put_in_buffer(smm_tmp_buf, 4032)` -/
def putPacket (aead : Aead 16) (shmemBase : Nat) (stack : Stack) (i : Nat) (m : Memory) (rxs : Nat) :
    PutOutcome × List Store :=
  Aurora.Network.putInBuffer aead ⟨stack.smmTmpBuf, packet m rxs (stack.residual i)⟩ 4032
    (stack.random i) (region m shmemBase)

/-- Clearing a descriptor that is not part of the region leaves the region alone. -/
theorem region_clear {m : Memory} {base rxs a : Nat} {stores : List Store}
    (apart : ∀ j < rxDescSize, (rxs + j) % 2 ^ 32 ≠ (base + a) % 2 ^ 32) :
    region (m.apply (stores ++ rebase 32 rxs (fill 0 rxDescSize 0))) base a =
      region (m.apply stores) base a := by
  rw [Memory.apply_append]
  refine Memory.apply_frame _ fun s member same => ?_
  obtain ⟨t, cleared, rfl⟩ := mem_rebase member
  have small := (mem_fill cleared).2
  exact apart t.addr (by omega) same

/-- `pcnet32_dispatch_rx_packets`. `none`: the packet does not fit `smm_tmp_buf`. -/
def dispatchRxPackets (aead : Aead 16) (shmemBase : Nat) (stack : Stack) (i : Nat) (m : Memory)
    (rxs : Nat) : Option (List Store) :=
  if marked m rxs = false then some []
  else if smmTmpBufSize < 4 + ulen m rxs then none
  else
    some (rebase 32 shmemBase (putPacket aead shmemBase stack i m rxs).2 ++
      rebase 32 rxs (fill 0 rxDescSize 0))

/-- The body of the loop over the ring. -/
def processRxPacket (aead : Aead 16) (shmemBase : Nat) (stack : Stack) (i : Nat) (m : Memory)
    (rxs : Nat) : Option (List Store) :=
  if rxStatus m rxs = 0x340 then dispatchRxPackets aead shmemBase stack i m rxs else some []

/-- The remaining descriptors from the `i`-th on, each on the memory the ones
before it have left. -/
def processFrom (aead : Aead 16) (shmemBase : Nat) (stack : Stack) (ring : Nat) :
    Nat → Nat → Memory → Option (List Store)
  | 0, _, _ => some []
  | remaining + 1, i, m =>
    match processRxPacket aead shmemBase stack i m ((ring + i * rxDescSize) % 2 ^ 32) with
    | none => none
    | some stores =>
      (processFrom aead shmemBase stack ring remaining (i + 1) (m.apply stores)).map (stores ++ ·)

/-- `pcnet32_process_rx_packets` -/
def processRxPackets (aead : Aead 16) (shmemBase : Nat) (stack : Stack) (m : Memory) (initBlock : Nat) :
    Option (List Store) :=
  processFrom aead shmemBase stack (rxRing m initBlock) rxRingSize 0 m

/-- `pcnet32_handler`, as far as memory goes: the transmit and output branches
only exchange registers with the NIC. -/
def pcnet32Handler (aead : Aead 16) (shmemBase : Nat) (stack : Stack) (m : Memory) (initBlock : Nat)
    (csr0 : Nat) : Option (List Store) :=
  if csr0.testBit rxInt then processRxPackets aead shmemBase stack m initBlock else some []

/-- The static variables of the supervisor, its driver and the ring code. -/
structure State where
  isFirstPhrase : Bool
  shmemBase : Nat
  nicVec : Nat
  initBlock : Nat

def State.boot : State := ⟨true, 0, 0, 0⟩

structure Smi where
  memory : Memory
  ioApic : IoApic
  /-- The control and status registers of the NIC, 16 bits each. -/
  csr : Nat → UInt16
  /-- `pcnet32_ioaddr` is set. -/
  hasIoaddr : Bool
  stack : Stack

/-- `pcnet32_probe` latches the init block the OS driver gave the NIC. -/
def pcnet32Probe (smi : Smi) (s : State) : State :=
  if smi.hasIoaddr then
    { s with initBlock := ((smi.csr 2).toNat * 2 ^ 16 + (smi.csr 1).toNat) % 2 ^ 32 }
  else s

/-- `none`: the receive path overran its stack buffer. -/
def supervisor (aead : Aead 16) (smi : Smi) (s : State) : Option (State × List Store) :=
  if s.isFirstPhrase then
    let s := { s with shmemBase := publishedBase smi.memory }
    let s := { s with nicVec := smi.ioApic (ioredtbl nicIrq) % 256 }
    let s := if s.nicVec = 0x3b then pcnet32Probe smi s else s
    some ({ s with isFirstPhrase := false }, rebase 32 s.shmemBase initRingBuffer)
  else (pcnet32Handler aead s.shmemBase smi.stack smi.memory s.initBlock (smi.csr 0).toNat).map
    fun stores => (s, stores)

/-- Everything an SMI can do: take the region, or serve the NIC. -/
theorem supervisor_cases {aead : Aead 16} {smi : Smi} {s : State} {r : State × List Store}
    (entered : supervisor aead smi s = some r) :
    (s.isFirstPhrase = true ∧ r.1.isFirstPhrase = false ∧ r.1.shmemBase = publishedBase smi.memory ∧
      r.2 = rebase 32 (publishedBase smi.memory) initRingBuffer) ∨
    (s.isFirstPhrase = false ∧ r.1 = s ∧ pcnet32Handler aead s.shmemBase smi.stack smi.memory
      s.initBlock (smi.csr 0).toNat = some r.2) := by
  cases first : s.isFirstPhrase with
  | true =>
    rw [supervisor, if_pos first] at entered
    have base : (if smi.ioApic (ioredtbl nicIrq) % 256 = 0x3b
        then pcnet32Probe smi ⟨s.isFirstPhrase, publishedBase smi.memory,
          smi.ioApic (ioredtbl nicIrq) % 256, s.initBlock⟩
        else ⟨s.isFirstPhrase, publishedBase smi.memory, smi.ioApic (ioredtbl nicIrq) % 256,
          s.initBlock⟩).shmemBase = publishedBase smi.memory := by
      unfold pcnet32Probe
      split
      · split <;> rfl
      · rfl
    cases entered
    refine Or.inl ⟨rfl, rfl, base, ?_⟩
    dsimp only
    rw [base]
  | false =>
    rw [supervisor, if_neg (by simp [first])] at entered
    obtain ⟨stores, handled, same⟩ := Option.map_eq_some_iff.mp entered
    cases same
    exact Or.inr ⟨rfl, rfl, handled⟩

end Aurora.Smm.Network
