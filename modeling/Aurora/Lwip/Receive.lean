import Aurora.Ring.Order
import Aurora.Smm.Network

/-! The receive path of the network stack in the enclave: `sgx_arch_waiting_fn`
takes one packet from the IN ring, and `send_pkt` scatters it over a chain of
pbufs for lwIP. Together with the driver in SMM this carries a frame, without
its Ethernet header, from the NIC to the enclave. -/
namespace Aurora.Lwip
open Lib Smm

/-- An allocator of pbuf chains: the `q->len` of each pbuf of the chain it
returns for a length, which the chain covers exactly. `none` is `NULL`. -/
structure PbufAlloc where
  alloc : Nat → Option (List Nat)
  covers : alloc length = some chain → chain.sum = length

/-- The `PBUF_POOL` loop of `pbuf_alloc` at layer `PBUF_RAW`, with this many
pbufs free and `PBUF_POOL_BUFSIZE_ALIGNED` bytes in each. -/
def poolChain (bufsize : Nat) : Nat → Nat → Option (List Nat)
  | 0, _ => none
  | free + 1, remLen =>
    let qlen := min remLen bufsize
    if 0 < remLen - qlen then (poolChain bufsize free (remLen - qlen)).map (qlen :: ·)
    else some [qlen]

theorem poolChain_sum {bufsize free length : Nat} {chain : List Nat}
    (allocated : poolChain bufsize free length = some chain) : chain.sum = length := by
  induction free generalizing length chain with
  | zero => cases allocated
  | succ free ih =>
    simp only [poolChain] at allocated
    split at allocated
    · obtain ⟨rest, others, rfl⟩ := Option.map_eq_some_iff.mp allocated
      rw [List.sum_cons, ih others]
      omega
    · cases allocated
      rw [List.sum_singleton]
      omega

def pbufAlloc (bufsize free : Nat) : PbufAlloc := ⟨poolChain bufsize free, poolChain_sum⟩

/-- The loop of `send_pkt`: the payload of each pbuf, filled from where the
one before it ended. -/
def sendPkt (data : Memory) : Nat → List Nat → List (List UInt8)
  | _, [] => []
  | offset, len :: chain => data.read offset len :: sendPkt data (offset + len) chain

/-- `rx_packet`, after a get wrote its first `MSG_SIZE` bytes. -/
def rxPacket (message : List UInt8) (residual : Memory) : Memory := fun k =>
  if k < msgSize then message.getD k 0 else residual k

/-- One call of the waiting function: its result, the payloads of the chain
handed to `netif->input` if it is called, and the stores in shared memory. A
`NULL` chain is passed on as the empty one, since `fail_unless` does nothing. -/
def sgxArchWaitingFn (decrypt : Decryption) (pbufs : PbufAlloc) (uioRam : Bool) (residual shm : Memory) :
    Int × Option (List (List UInt8)) × List Store :=
  if uioRam = false then (1, none, [])
  else
    match getInBuffer decrypt ⟨residual.read 0 msgSize, 0⟩ shm with
    | (.received _ _, reply, stores) =>
      let data := rxPacket reply.message residual
      let ulen := data.word 0 4
      (0, some (sendPkt data 4 ((pbufs.alloc (ulen % 2 ^ 16)).getD [])), stores)
    | (_, _, stores) => (0, none, stores)

/-- However the chain is cut, it holds the data in order and without gaps. -/
theorem sendPkt_flatten (data : Memory) (offset : Nat) (chain : List Nat) :
    (sendPkt data offset chain).flatten = data.read offset chain.sum := by
  induction chain generalizing offset with
  | nil => rfl
  | cons len chain ih => rw [sendPkt, List.flatten_cons, ih, List.sum_cons, Memory.read_append]

theorem sendPkt_lengths (data : Memory) (offset : Nat) (chain : List Nat) :
    (sendPkt data offset chain).map List.length = chain := by
  induction chain generalizing offset with
  | nil => rfl
  | cons len chain ih => rw [sendPkt, List.map_cons, ih, Memory.read_length]

section Packet
variable {m : Memory} {rxs : Nat} {residual : Memory}

theorem ulen_eq (long : 14 ≤ Network.rxMsgLength m rxs) (short : Network.rxMsgLength m rxs ≤ 1610) :
    Network.ulen m rxs = Network.rxMsgLength m rxs - 14 := by
  simp only [Network.ulen, Network.etherHeader]
  omega

/-- The length prefix the driver wrote is the length the enclave reads. -/
theorem packet_length : (Network.packet m rxs residual).word 0 4 = Network.ulen m rxs := by
  have fits : Network.ulen m rxs < 256 ^ 4 := Nat.mod_lt _ (by decide)
  refine Memory.word_littleEndian fits fun k bound => ?_
  rw [Nat.zero_add, Network.packet, if_pos bound]

theorem packet_payload :
    (Network.packet m rxs residual).read 4 (Network.ulen m rxs) =
      (Network.frame m rxs).read 14 (Network.ulen m rxs) := by
  refine Memory.read_congr fun k bound => ?_
  rw [Network.packet, if_neg (by omega), if_pos (by omega), Nat.add_sub_cancel_left]
  rfl

/-- What the enclave decrypts agrees with `smm_tmp_buf` on the bytes that were put. -/
theorem rxPacket_padded (raw : Buffer) {msgLen : Nat} (random : Memory) (small : msgLen ≤ msgSize)
    {k : Nat} (bound : k < msgLen) : rxPacket (padded raw msgLen random) residual k = raw.byte k := by
  rw [rxPacket, if_pos (by omega), padded_getD raw random bound]

end Packet

section RoundTrip
variable (aead : Aead 16) {m : Memory} {base rxs : Nat}

/-- The driver's part: a marked frame is put into the empty ring, and its
descriptor is cleared. -/
theorem processRxPacket_queue (stack : Network.Stack) (i : Nat)
    (status : Network.rxStatus m rxs = 0x340) (long : 14 ≤ Network.rxMsgLength m rxs)
    (short : Network.rxMsgLength m rxs ≤ 1610) (marked : Network.marked m rxs = true)
    (secure : ∀ k < 4032, InSmram (stack.smmTmpBuf + k))
    (empty : ∀ j < maxEntry, region m base (Direction.inbound.owner j) = inSmm) :
    ∃ put, Network.processRxPacket aead base stack i m rxs =
        some (rebase 32 base put ++ rebase 32 rxs (fill 0 Network.rxDescSize 0)) ∧
      Order.Queue aead .inbound (region (m.apply (rebase 32 base put)) base) 0
        [padded ⟨stack.smmTmpBuf, Network.packet m rxs (stack.residual i)⟩ 4032 (stack.random i)] := by
  have length := ulen_eq long short
  have fits : ¬ Network.smmTmpBufSize < 4 + Network.ulen m rxs := by
    rw [length, Network.smmTmpBufSize]
    omega
  have within : isWithinSmram stack.smmTmpBuf 4032 = true :=
    isWithinSmram_of_inside secure (by decide) (by decide)
  rw [Network.processRxPacket, if_pos status, Network.dispatchRxPackets, if_neg (by simp [marked]),
    if_neg fits]
  refine ⟨_, rfl, ?_⟩
  simp only [Network.putPacket, Aurora.Network.putInBuffer, put, within, Network.accept_packet]
  exact .put_window aead m base (padded_length (by decide)) empty

/-- The waiting function, for a get that succeeds. -/
theorem waitingFn_received {decrypt : Decryption} {shm : Memory} (pbufs : PbufAlloc) (residual : Memory)
    (received : getMessage decrypt .inbound shm = (.received j message, stores)) :
    sgxArchWaitingFn decrypt pbufs true residual shm =
      (0, some (sendPkt (rxPacket message residual) 4
        ((pbufs.alloc ((rxPacket message residual).word 0 4 % 2 ^ 16)).getD [])), stores) := by
  have taken : get decrypt .inbound true shm = _ := received
  simp only [sgxArchWaitingFn, Bool.true_eq_false, if_false, getInBuffer, taken, Reply.after]

/-- A marked frame arrives in the enclave as a chain that holds exactly what
followed its Ethernet header, as long as the enclave finds the region as the
put has left it. -/
theorem receive_round_trip (stack : Network.Stack) (i : Nat) (pbufs : PbufAlloc) (residual : Memory)
    (status : Network.rxStatus m rxs = 0x340) (long : 14 ≤ Network.rxMsgLength m rxs)
    (short : Network.rxMsgLength m rxs ≤ 1610) (version : Network.frame m rxs 14 = 0x46)
    (options : (Network.frame m rxs).read 34 4 = [0, 0, 0, 0])
    (secure : ∀ k < 4032, InSmram (stack.smmTmpBuf + k))
    (empty : ∀ j < maxEntry, region m base (Direction.inbound.owner j) = inSmm)
    (allocated : pbufs.alloc (Network.rxMsgLength m rxs - 14) = some chain) :
    ∃ put, Network.processRxPacket aead base stack i m rxs =
        some (rebase 32 base put ++ rebase 32 rxs (fill 0 Network.rxDescSize 0)) ∧
      ∀ shm : Memory, (∀ a < shmSize, shm a = region (m.apply (rebase 32 base put)) base a) →
        ∃ payloads taken,
          sgxArchWaitingFn aead.decrypt pbufs true residual shm = (0, some payloads, taken) ∧
          payloads.map List.length = chain ∧
          payloads.flatten = (Network.frame m rxs).read 14 (Network.rxMsgLength m rxs - 14) := by
  have marked : Network.marked m rxs = true := by
    simp only [Network.marked, Network.etherHeader, version, options]
    decide
  obtain ⟨put, processed, queue⟩ :=
    processRxPacket_queue aead stack i status long short marked secure empty
  have length := ulen_eq long short
  obtain ⟨message, queue, same⟩ : ∃ message,
      Order.Queue aead .inbound (region (m.apply (rebase 32 base put)) base) 0 [message] ∧
      ∀ k < 4032, rxPacket message residual k = Network.packet m rxs (stack.residual i) k :=
    ⟨_, queue, fun k bound => rxPacket_padded _ _ (by decide) bound⟩
  have parsed : (rxPacket message residual).word 0 4 = Network.ulen m rxs :=
    (Memory.word_congr fun k bound => same _ (by omega)).trans packet_length
  have field : (rxPacket message residual).word 0 4 % 2 ^ 16 = Network.rxMsgLength m rxs - 14 := by
    rw [parsed, length]
    omega
  refine ⟨put, processed, fun shm quiet => ?_⟩
  have delivered := waitingFn_received pbufs residual (queue.congr quiet).get.1
  rw [field, allocated, Option.getD_some] at delivered
  refine ⟨_, _, delivered, ?_, ?_⟩
  · exact sendPkt_lengths _ _ _
  · rw [sendPkt_flatten, pbufs.covers allocated, ← length, ← packet_payload]
    exact Memory.read_congr fun k bound => same _ (by omega)

end RoundTrip

/-- A frame of 60 bytes at 0x3000, its descriptor at 0x2000, and an empty ring at 16 MiB. -/
def received : Memory := fun a =>
  if a = 0x2001 then 0x30 else if a = 0x2006 then 0x40 else if a = 0x2007 then 0x03
  else if a = 0x2008 then 60 else if a = 0x300e then 0x46 else 0

theorem receive_round_trip_three_pbufs :
    ∃ stores payloads taken,
      Network.processRxPacket (transparent 16) 0x1000000 ⟨smramStart, fun _ _ => 0, fun _ _ => 0⟩ 0
        received 0x2000 = some stores ∧
      sgxArchWaitingFn (transparent 16).decrypt (pbufAlloc 20 400) true (fun _ => 0)
        (region (received.apply stores) 0x1000000) = (0, some payloads, taken) ∧
      payloads.map List.length = [20, 20, 6] ∧
      payloads.flatten = (Network.frame received 0x2000).read 14 46 := by
  have secure : ∀ k < 4032, InSmram (smramStart + k) := by
    intro k bound
    simp only [InSmram, smramStart, smramEnd, smramSize]
    omega
  have empty : ∀ j < maxEntry, region received 0x1000000 (Direction.inbound.owner j) = inSmm := by
    decide
  have apart : ∀ a < shmSize, ∀ j < Network.rxDescSize,
      (0x2000 + j) % 2 ^ 32 ≠ (0x1000000 + a) % 2 ^ 32 := by
    intro a small j bound
    simp only [Network.rxDescSize, shmSize] at bound small
    omega
  have split : (pbufAlloc 20 400).alloc (Network.rxMsgLength received 0x2000 - 14) = some [20, 20, 6] := by
    decide
  obtain ⟨put, processed, delivered⟩ := receive_round_trip (transparent 16)
    ⟨smramStart, fun _ _ => 0, fun _ _ => 0⟩ 0 (pbufAlloc 20 400) (fun _ => 0)
    (by decide) (by decide) (by decide) (by decide) (by decide) secure empty split
  obtain ⟨payloads, taken, delivery⟩ := delivered _ fun a small => Network.region_clear (apart a small)
  exact ⟨_, payloads, taken, processed, delivery⟩

end Aurora.Lwip
