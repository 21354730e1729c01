import Aurora.Lib.Transition
import Aurora.Pcnet
import Aurora.Ring.Calls
import Aurora.Smm.MacText

/-! The transmit side of the PCnet driver in SMM: `pcnet32_tx_enclave_packet`
takes the messages of the OUT ring one after the other, completes the Ethernet
header, and hands each frame to the NIC in the descriptor that was the next one
when the NIC was looked at first. -/
namespace Aurora.Smm.Transmit
open Lib Pcnet

/-- The literal that `str2mac` is given for the next hop, with its terminator. -/
def nextHopText : Memory := fun k => (MacText.ascii "f4:8e:38:f2:fa:a0".toList).getD k 0

/-- The octets of the literal. -/
def nextHop : List UInt8 := MacText.parse (MacText.ascii "f4:8e:38:f2:fa:a0".toList) 0

theorem nextHop_eq : nextHop = [0xf4, 0x8e, 0x38, 0xf2, 0xfa, 0xa0] := by decide

theorem str2mac_nextHop (mac : Nat) :
    Ends (fun fuel => MacText.str2mac nextHopText fuel 0 0 mac) 17 (blit mac nextHop) := by
  have terminated : MacText.Terminated nextHopText (MacText.ascii "f4:8e:38:f2:fa:a0".toList) := by
    rw [MacText.Terminated]
    decide
  have nonzero : (MacText.ascii "f4:8e:38:f2:fa:a0".toList).all (· != 0) = true := by decide
  refine MacText.str2mac_terminated terminated (fun c member => ?_) (by decide) mac
  exact bne_iff_ne.mp (List.all_eq_true.mp nonzero c member)

def txRingSize : Nat := 16
def txFrameSize : Nat := 1600

/-- What the driver finds in place: the address of the NIC, where its buffers
are, and the rest of the memory. -/
structure Platform where
  hwAddr : List UInt8
  six : hwAddr.length = 6
  txFrame : Nat
  smmTmp : Buffer
  ram : Memory

/-- The static variables of the driver, the NIC, and what went out on the wire. -/
structure Driver where
  nic : Nic
  csr5 : UInt16
  xmtrc : Nat
  txFrame : Memory
  sent : List (List UInt8)

namespace Driver

/-- `pcnet32_backdoor_step1` -/
def backdoorStep1 (d : Driver) : Driver :=
  let csr5 := d.nic.csr5
  let nic := d.nic.writeCsr5 1
  { d with csr5 := csr5, xmtrc := nic.xmtrc, nic := nic.writeCsr5 csr5 }

/-- `pcnet32_backdoor_step2` -/
def backdoorStep2 (d : Driver) : Driver :=
  { d with csr5 := d.nic.csr5, nic := { d.nic with xmtrc := d.xmtrc }.writeCsr5 d.nic.csr5 }

/-- Memory as the NIC reads it. -/
def dma (p : Platform) (d : Driver) : Memory := fun a =>
  if p.txFrame ≤ a ∧ a < p.txFrame + txFrameSize then d.txFrame (a - p.txFrame) else p.ram a

/-- The descriptor `do_pcnet32_transmit` fills in. -/
def txDesc (p : Platform) (len : Nat) : TxDesc where
  base := p.txFrame
  length := UInt16.ofNat (2 ^ 16 - (if len < 64 then 64 else len) % 2 ^ 16)
  status := 0x8000 ||| 0x200 ||| 0x100
  misc := 0

/-- `do_pcnet32_transmit` up to the point where it rings the NIC. -/
def offer (p : Platform) (len : Nat) (d : Driver) : Driver :=
  { d with nic := d.nic.setDesc (txRingSize - d.xmtrc) (txDesc p len) }

def demand (p : Platform) (d : Driver) : Driver :=
  let transmitted := d.nic.demand (d.dma p)
  { d with nic := transmitted.2, sent := d.sent ++ transmitted.1 }

def setFrame (d : Driver) (bytes : Memory) : Driver := { d with txFrame := bytes }

/-- `memset(tx_frame, 0, sizeof(tx_frame))` -/
def clearFrame (d : Driver) : Driver :=
  d.setFrame fun k => if k < txFrameSize then 0 else d.txFrame k

/-- `do_pcnet32_transmit` of `tx_frame`. -/
def doPcnet32Transmit (p : Platform) (len : Nat) (d : Driver) : Driver :=
  ((d.offer p len).demand p).clearFrame

def poll (p : Platform) (d : Driver) : Driver :=
  let polled := d.nic.poll (d.dma p)
  { d with nic := polled.2, sent := d.sent ++ polled.1 }

end Driver

/-- `smm_tmp` once the two hardware addresses are written over the message. The loop of
`str2mac` has a round for each of the 17 characters and one for the terminator. -/
def smmTmp (p : Platform) (message : List UInt8) : Memory :=
  Memory.apply (fun k => message.getD k 0)
    ((MacText.str2mac nextHopText 18 0 0 4).getD [] ++ blit 10 p.hwAddr)

/-- `kp->ulen` -/
def ulen (p : Platform) (message : List UInt8) : Nat := (smmTmp p message).word 0 4

/-- `memcpy(tx_frame, frame, kp->ulen)` -/
def load (p : Platform) (message : List UInt8) (d : Driver) : Driver :=
  d.setFrame fun k => if k < ulen p message then smmTmp p message (4 + k) else d.txFrame k

/-- The body of the loop, for a message that was taken. `none`: the frame does
not fit `tx_frame`. -/
def sendMessage (p : Platform) (d : Driver) (message : List UInt8) : Option Driver :=
  if txFrameSize < ulen p message then none
  else some ((load p message d).doPcnet32Transmit p (ulen p message))

/-- `pcnet32_tx_enclave_packet`, which takes at most this many messages. -/
def txEnclavePacket (p : Platform) (decrypt : Decryption) :
    Nat → Reply → Memory → Driver → Option (Driver × Memory)
  | 0, _, _, _ => none
  | rounds + 1, reply, shm, d =>
    match Network.getOutBuffer decrypt p.smmTmp.addr reply shm with
    | (.received _ _, reply, stores) =>
      (sendMessage p d reply.message).bind (txEnclavePacket p decrypt rounds reply (shm.apply stores))
    | _ => some (d, shm)

/-- The output branch of `pcnet32_handler`. Each round frees a slot, so a drained
ring is seen within one round more than there are slots. -/
def output (p : Platform) (decrypt : Decryption) (shm : Memory) (d : Driver) :
    Option (Driver × Memory) :=
  (txEnclavePacket p decrypt (maxEntry + 1) ⟨p.smmTmp.byte.read 0 msgSize, 0⟩ shm d.backdoorStep1).map
    fun (d, shm) => (d.backdoorStep2, shm)

section Frame
variable (p : Platform) (message : List UInt8)

theorem smmTmp_eq : smmTmp p message =
    Memory.apply (fun k => message.getD k 0) (blit 4 nextHop ++ blit 10 p.hwAddr) := by
  rw [smmTmp, (str2mac_nextHop 4).enough 18 (by decide), Option.getD_some]

theorem smmTmp_outside {k : Nat} (outside : k < 4 ∨ 16 ≤ k) :
    smmTmp p message k = message.getD k 0 := by
  have six := p.six
  have hop : nextHop.length = 6 := by rw [nextHop_eq]; rfl
  rw [smmTmp_eq]
  refine Memory.apply_frame _ fun s member => ?_
  rcases List.mem_append.mp member with written | written
  all_goals
    have inside := mem_blit written
    omega

theorem smmTmp_nextHop : (smmTmp p message).read 4 6 = nextHop := by
  have hop : nextHop.length = 6 := by rw [nextHop_eq]; rfl
  rw [smmTmp_eq, Memory.apply_append, Memory.read_apply_frame, ← hop]
  · exact Memory.read_apply_blit _ 4 nextHop
  · intro s member k bound
    have inside := (mem_blit member).1
    omega

theorem smmTmp_hwAddr : (smmTmp p message).read 10 6 = p.hwAddr := by
  rw [smmTmp_eq, Memory.apply_append, ← p.six]
  exact Memory.read_apply_blit _ 10 p.hwAddr

theorem ulen_eq : ulen p message = Memory.word (fun k => message.getD k 0) 0 4 :=
  Memory.word_congr fun k bound => smmTmp_outside p message (Or.inl (by omega))

/-- A frame starts with the two hardware addresses, and goes on as the message. -/
theorem smmTmp_frame {n : Nat} (header : 12 ≤ n) :
    (smmTmp p message).read 4 n =
      nextHop ++ p.hwAddr ++ Memory.read (fun k => message.getD k 0) 16 (n - 12) := by
  obtain ⟨rest, rfl⟩ := Nat.exists_eq_add_of_le header
  have body : (smmTmp p message).read 16 rest = Memory.read (fun k => message.getD k 0) 16 rest :=
    Memory.read_congr fun k _ => smmTmp_outside p message (Or.inr (by omega))
  rw [Memory.read_append, show 12 = 6 + 6 from rfl, Memory.read_append, smmTmp_nextHop, smmTmp_hwAddr,
    Nat.add_sub_cancel_left, body]

/-- The frame on the wire, padded to the minimum the driver sends. -/
def wireFrame : List UInt8 :=
  (smmTmp p message).read 4 (ulen p message) ++ List.replicate (64 - ulen p message) 0

end Frame

namespace Driver
variable {p : Platform} {message : List UInt8} {d : Driver}

/-- `tx_frame` holds nothing, as at boot and after every frame. -/
def Clear (d : Driver) : Prop := ∀ k < txFrameSize, d.txFrame k = 0

@[simp] theorem setFrame_nic (bytes : Memory) : (d.setFrame bytes).nic = d.nic := rfl
@[simp] theorem setFrame_xmtrc (bytes : Memory) : (d.setFrame bytes).xmtrc = d.xmtrc := rfl
@[simp] theorem setFrame_txFrame (bytes : Memory) : (d.setFrame bytes).txFrame = bytes := rfl
@[simp] theorem setFrame_sent (bytes : Memory) : (d.setFrame bytes).sent = d.sent := rfl

@[simp] theorem offer_nic (len : Nat) :
    (d.offer p len).nic = d.nic.setDesc (txRingSize - d.xmtrc) (txDesc p len) := rfl
@[simp] theorem offer_xmtrc (len : Nat) : (d.offer p len).xmtrc = d.xmtrc := rfl
@[simp] theorem offer_txFrame (len : Nat) : (d.offer p len).txFrame = d.txFrame := rfl
@[simp] theorem offer_sent (len : Nat) : (d.offer p len).sent = d.sent := rfl

@[simp] theorem demand_nic : (d.demand p).nic = (d.nic.demand (d.dma p)).2 := rfl
@[simp] theorem demand_xmtrc : (d.demand p).xmtrc = d.xmtrc := rfl
@[simp] theorem demand_txFrame : (d.demand p).txFrame = d.txFrame := rfl
@[simp] theorem demand_sent : (d.demand p).sent = d.sent ++ (d.nic.demand (d.dma p)).1 := rfl

theorem offer_ring (len : Nat) :
    ((Transmit.load p message d).offer p len).nic.ring (txRingSize - d.xmtrc) = txDesc p len := by
  simp [Transmit.load, Nic.setDesc]

theorem load_txFrame (k : Nat) : (Transmit.load p message d).txFrame k =
    if k < ulen p message then smmTmp p message (4 + k) else d.txFrame k := by
  rw [Transmit.load, setFrame_txFrame]

theorem clearFrame_clear : d.clearFrame.Clear := by
  intro k bound
  exact if_pos bound

/-- From a clear buffer on, no byte of an earlier frame reaches the NIC. -/
theorem Clear.load (clear : d.Clear) :
    (load p message d).txFrame.read 0 (max (ulen p message) 64) = wireFrame p message := by
  have split : max (ulen p message) 64 = ulen p message + (64 - ulen p message) := by omega
  have copied : (Transmit.load p message d).txFrame.read 0 (ulen p message) =
      (smmTmp p message).read 4 (ulen p message) := by
    refine Memory.read_congr fun k bound => ?_
    rw [Nat.zero_add, load_txFrame, if_pos bound]
  have zeroed : (Transmit.load p message d).txFrame.read (ulen p message) (64 - ulen p message) =
      List.replicate (64 - ulen p message) 0 := by
    refine Memory.read_const fun k bound => ?_
    rw [load_txFrame, if_neg (by omega)]
    apply clear
    simp only [txFrameSize]
    omega
  rw [split, Memory.read_append, Nat.zero_add, copied, zeroed, wireFrame]

/-- The NIC reads `tx_frame` through the descriptor it is given. -/
theorem dma_txFrame {count : Nat} (small : count ≤ txFrameSize) :
    (d.dma p).read p.txFrame count = d.txFrame.read 0 count := by
  refine Memory.read_congr fun k bound => ?_
  rw [dma, if_pos (by omega), Nat.add_sub_cancel_left, Nat.zero_add]

theorem txDesc_bcnt (p : Platform) {len : Nat} (short : len ≤ txFrameSize) :
    (txDesc p len).bcnt = max len 64 := by
  simp only [TxDesc.bcnt, txDesc, UInt16.toNat_ofNat', txFrameSize] at *
  split <;> omega

theorem txDesc_whole (p : Platform) {len : Nat} (short : len ≤ txFrameSize) :
    (txDesc p len).Whole := by
  have status : (txDesc p len).status.toNat = 0x8300 := by simp only [txDesc]; decide
  constructor
  · simp only [TxDesc.ones, txDesc, UInt16.toNat_ofNat', txFrameSize, beq_iff_eq] at *
    split <;> omega
  · rw [TxDesc.own, status]; decide
  · rw [TxDesc.stp, status]; decide
  · rw [TxDesc.enp, status]; decide
  · rw [txDesc_bcnt p short]
    simp only [txFrameSize] at short
    omega

/-- What the NIC is shown for a message: one descriptor for a whole frame. -/
theorem Clear.presents (clear : d.Clear) (fits : ulen p message ≤ txFrameSize) :
    (((Transmit.load p message d).offer p (ulen p message)).dma p).read
      (txDesc p (ulen p message)).base (max (ulen p message) 64) = wireFrame p message := by
  have small : max (ulen p message) 64 ≤ txFrameSize := by
    simp only [txFrameSize] at *
    omega
  rw [← clear.load, ← offer_txFrame]
  exact dma_txFrame small

end Driver

/-- What happens to the driver over time: it sends messages, and everything else
(the NIC, the OS, the backdoor steps) leaves `tx_frame` alone. -/
inductive Activity (p : Platform) : Driver → List (List UInt8) → Driver → Prop where
  | send : sendMessage p d message = some after → Activity p d [message] after
  | other : after.txFrame = d.txFrame → Activity p d [] after

theorem Activity.clear {p : Platform} {start d : Driver} {messages : List (List UInt8)}
    (boot : start.Clear) (run : Run (Activity p) start messages d) : d.Clear := by
  refine run.invariant (P := fun _ d => d.Clear) boot ?_
  intro _ s _ t clear step
  cases step with
  | send sent =>
    simp only [sendMessage] at sent
    split at sent
    · cases sent
    · cases sent
      exact Driver.clearFrame_clear
  | other same =>
    intro k bound
    rw [same]
    exact clear k bound

/-- Buffers in SMRAM, and the hardware address QEMU gives its NIC. -/
def qemuPlatform : Platform :=
  ⟨[0x52, 0x54, 0x00, 0x12, 0x34, 0x56], rfl, smramStart + 0x4000, ⟨smramStart, fun _ => 0⟩,
    fun _ => 0⟩

theorem qemuPlatform_secure : ∀ k < msgSize, InSmram (qemuPlatform.smmTmp.addr + k) := by
  intro k bound
  simp only [InSmram, qemuPlatform, smramStart, smramEnd, smramSize, msgSize, pktSize] at *
  omega

/-- A region without messages. -/
def freshRing : Memory := fun a => if a < maxEntry then inSmm else outSgx

theorem freshRing_owner (e : Direction) {i : Nat} (bound : i < maxEntry) :
    freshRing (e.owner i) = e.sender := by
  cases e with
  | inbound => exact if_pos bound
  | outbound => exact if_neg (by simp only [Direction.owner]; omega)

/-- A driver that has sent nothing, and a NIC at the start of an empty ring. -/
def started : Driver where
  nic := ⟨false, true, false, false, 0, txRingSize, txRingSize, fun _ => ⟨0, 0, 0, 0⟩⟩
  csr5 := 0
  xmtrc := txRingSize
  txFrame := fun _ => 0
  sent := []

end Aurora.Smm.Transmit
