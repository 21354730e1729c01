import Aurora.Lwip.Receive
import Aurora.Smm.Transmit

/-! The two consumers of a `struct MAC_Prot`: the enclave, which hands the
payload of an IN message to lwIP, and the driver in SMM, which puts the payload
of an OUT message on the wire. Both trust the length field inside the message.
Here each is given the offsets it touches, in the order of the source, and the
bounds of its buffers are compared with them. -/
namespace Aurora.MacProt
open Lib Lwip Smm.Transmit

/-- The `ulen` of a message. -/
def length (message : List UInt8) : Nat := Memory.word (fun k => message.getD k 0) 0 4

/-- The offsets of `rx_packet` that `send_pkt` reads, pbuf by pbuf. -/
def sendPktReads : Nat → List Nat → List Nat
  | _, [] => []
  | offset, len :: chain => List.range' offset len ++ sendPktReads (offset + len) chain

/-- The offsets of `rx_packet` that `sgx_arch_waiting_fn` reads once a message
has arrived: `cp->ulen`, then what `send_pkt` copies. -/
def waitingFnReads (pbufs : PbufAlloc) (data : Memory) : List Nat :=
  List.range' 0 4 ++ sendPktReads 4 ((pbufs.alloc (data.word 0 4 % 2 ^ 16)).getD [])

/-- The offsets of `smm_tmp` that one round of `pcnet32_tx_enclave_packet`
reads: `kp->ulen`, then the frame. -/
def txReads (p : Platform) (message : List UInt8) : List Nat :=
  List.range' 0 4 ++ List.range' 4 (ulen p message)

/-- The offsets of `tx_frame` the round writes: the frame, then the `memset`. -/
def txWrites (p : Platform) (message : List UInt8) : List Nat :=
  List.range' 0 (ulen p message) ++ List.range' 0 txFrameSize

theorem range'_below {count bound : Nat} : (∀ k ∈ List.range' 0 count, k < bound) ↔ count ≤ bound := by
  simp only [List.mem_range'_1, Nat.zero_le, Nat.zero_add, true_and]
  constructor
  · intro below
    by_contra beyond
    exact absurd (below bound (by omega)) (Nat.lt_irrefl bound)
  · intro fits k inside
    omega

section Enclave
variable (pbufs : PbufAlloc)

theorem sendPktReads_eq (offset : Nat) (chain : List Nat) :
    sendPktReads offset chain = List.range' offset chain.sum := by
  induction chain generalizing offset with
  | nil => rfl
  | cons len chain ih => rw [sendPktReads, ih, List.sum_cons, List.range'_append_1]

/-- The listed offsets are what lwIP gets to see, byte for byte. -/
theorem sendPkt_reads (data : Memory) (offset : Nat) (chain : List Nat) :
    (sendPkt data offset chain).flatten = (sendPktReads offset chain).map data := by
  rw [sendPkt_flatten, sendPktReads_eq, Memory.read, List.range'_eq_map_range, List.map_map]
  rfl

/-- What the waiting function passes on after a successful get is what stands
at the offsets after the length field. -/
theorem waitingFn_footprint {decrypt : Decryption} {shm : Memory} (residual : Memory)
    (received : getMessage decrypt .inbound shm = (.received i message, stores)) :
    ∃ payloads, sgxArchWaitingFn decrypt pbufs true residual shm = (0, some payloads, stores) ∧
      payloads.flatten = ((waitingFnReads pbufs (rxPacket message residual)).drop 4).map
        (rxPacket message residual) := by
  refine ⟨_, waitingFn_received pbufs residual received, ?_⟩
  rw [sendPkt_reads, waitingFnReads, List.drop_left' (List.length_range' ..)]

theorem rxPacket_length (message : List UInt8) (residual : Memory) :
    (rxPacket message residual).word 0 4 = length message := by
  refine Memory.word_congr fun k bound => ?_
  rw [rxPacket, if_pos]
  simp only [msgSize, pktSize]
  omega

theorem waitingFnReads_bounded (received : List UInt8) (residual : Memory) :
    (∀ k ∈ waitingFnReads pbufs (rxPacket received residual), k < msgSize) ↔
      pbufs.alloc (length received % 2 ^ 16) = none ∨ 4 + length received % 2 ^ 16 ≤ msgSize := by
  rw [waitingFnReads, rxPacket_length, sendPktReads_eq, List.range'_append_1, range'_below]
  cases allocated : pbufs.alloc (length received % 2 ^ 16) with
  | none => simp [msgSize, pktSize]
  | some chain => simp [pbufs.covers allocated]

end Enclave

section Supervisor
variable (p : Platform) (message : List UInt8)

theorem ulen_length : ulen p message = length message := by
  rw [length]
  exact Smm.Transmit.ulen_eq p message

theorem txReads_bounded :
    (∀ k ∈ txReads p message, k < msgSize) ↔ 4 + length message ≤ msgSize := by
  rw [txReads, List.range'_append_1, range'_below, ulen_length]

theorem txWrites_bounded :
    (∀ k ∈ txWrites p message, k < txFrameSize) ↔ length message ≤ txFrameSize := by
  rw [txWrites, List.forall_mem_append, range'_below, range'_below, ulen_length]
  exact and_iff_left (Nat.le_refl _)

/-- The frame is what stands at the listed offsets after the length field, and a round
reads no others: any message that gives `smm_tmp` the same bytes there is sent alike. -/
theorem sendMessage_reads (d : Driver) :
    (Smm.Transmit.load p message d).txFrame.read 0 (ulen p message) =
      ((txReads p message).drop 4).map (smmTmp p message) ∧
    ∀ other, (∀ k ∈ txReads p message, smmTmp p other k = smmTmp p message k) →
      sendMessage p d other = sendMessage p d message := by
  constructor
  · rw [txReads, List.drop_left' (List.length_range' ..), List.range'_eq_map_range, List.map_map]
    refine List.map_congr_left fun k inside => ?_
    rw [Nat.zero_add, Driver.load_txFrame, if_pos (List.mem_range.mp inside)]
    rfl
  · intro other same
    have bytes (k : Nat) (bound : k < 4 + ulen p message) : smmTmp p other k = smmTmp p message k := by
      apply same
      rw [txReads, List.range'_append_1, List.mem_range'_1]
      omega
    have field : ulen p other = ulen p message := Memory.word_congr fun k bound => bytes (0 + k) (by omega)
    have frame : Smm.Transmit.load p other d = Smm.Transmit.load p message d := by
      unfold Smm.Transmit.load
      congr 1
      funext k
      rw [field]
      split
      · exact bytes (4 + k) (by omega)
      · rfl
    rw [sendMessage, sendMessage, field, frame]

/-- A round goes through exactly if its writes stay in `tx_frame`, and then it
leaves every byte alone that it is not listed to write. -/
theorem sendMessage_footprint (d : Driver) :
    ((sendMessage p d message).isSome ↔ ∀ k ∈ txWrites p message, k < txFrameSize) ∧
    ∀ after, sendMessage p d message = some after →
      ∀ k, k ∉ txWrites p message → after.txFrame k = d.txFrame k := by
  rw [txWrites_bounded, ← ulen_length p]
  unfold sendMessage
  split
  · rename_i large
    refine ⟨⟨fun some => absurd some (by simp), fun fits => absurd fits (by omega)⟩, ?_⟩
    rintro after ⟨⟩
  · rename_i fits
    refine ⟨⟨fun _ => by omega, fun _ => rfl⟩, ?_⟩
    rintro after ⟨⟩ k outside
    obtain ⟨apart, beyond⟩ := not_or.mp (mt List.mem_append.mpr outside)
    simp only [List.mem_range'_1, Nat.zero_le, Nat.zero_add, true_and] at apart beyond
    rw [Driver.doPcnet32Transmit, Driver.clearFrame, Driver.setFrame_txFrame, if_neg beyond,
      Driver.demand_txFrame, Driver.offer_txFrame, Driver.load_txFrame, if_neg apart]

end Supervisor

/-- For a message received in the enclave and one sent through SMM: neither
consumer leaves its buffers exactly if the length field of the first, cut to 16
bits, fits the message (or no pbuf is left), and that of the second fits
`tx_frame`. -/
theorem consumers_bounded_iff (pbufs : PbufAlloc) (p : Platform) (residual : Memory)
    (received sent : List UInt8) :
    ((∀ k ∈ waitingFnReads pbufs (rxPacket received residual), k < msgSize) ↔
      pbufs.alloc (length received % 2 ^ 16) = none ∨ length received % 2 ^ 16 ≤ 4076) ∧
    ((∀ k ∈ txReads p sent, k < msgSize) ∧ (∀ k ∈ txWrites p sent, k < txFrameSize) ↔
      length sent ≤ 1600) := by
  rw [waitingFnReads_bounded, txReads_bounded, txWrites_bounded]
  simp only [msgSize, pktSize, txFrameSize]
  constructor
  · refine or_congr_right ?_
    omega
  · omega

/-- One byte more than a message holds, in the pool the enclave configures: all
three bounds are left. -/
theorem long_length_overruns :
    ∃ message : List UInt8, message.length = msgSize ∧ length message = 4077 ∧
      ¬ (∀ k ∈ waitingFnReads (pbufAlloc 590 400) (rxPacket message fun _ => 0), k < msgSize) ∧
      ¬ (∀ k ∈ txReads qemuPlatform message, k < msgSize) ∧
      ¬ ∀ k ∈ txWrites qemuPlatform message, k < txFrameSize := by
  have whole : ([0xed, 0x0f, 0, 0] ++ List.replicate 4076 0 : List UInt8).length = msgSize := by
    simp only [List.length_append, List.length_replicate]
    decide
  have field : length ([0xed, 0x0f, 0, 0] ++ List.replicate 4076 0) = 4077 := rfl
  have allocated : (pbufAlloc 590 400).alloc (4077 % 2 ^ 16) ≠ none := by decide
  refine ⟨_, whole, field, ?_, ?_, ?_⟩
  · rw [waitingFnReads_bounded, field]
    exact not_or.mpr ⟨allocated, by decide⟩
  · rw [txReads_bounded, field]
    decide
  · rw [txWrites_bounded, field]
    decide

end Aurora.MacProt
