import Aurora.Ring.Order
import Aurora.Smm.Transmit

/-! The transmit path of the network stack in the enclave: `low_level_output`
gathers a chain of pbufs behind a length field and puts it into the OUT ring.
Together with the driver in SMM this carries a frame from lwIP to the NIC. -/
namespace Aurora.Lwip
open Lib Smm

/-- `__packet[2000]` -/
def packetSize : Nat := 2000

/-- The loop over the chain: the payloads are copied one behind the other. -/
def gather : Memory → Nat → List (List UInt8) → Memory × Nat
  | packet, offset, [] => (packet, offset)
  | packet, offset, payload :: chain =>
    gather (packet.apply (blit offset payload)) (offset + payload.length) chain

/-- `low_level_output`, which ignores the result of the put. `none`: the chain
does not fit the static buffer. -/
def lowLevelOutput (aead : Aead 16) (packet : Buffer) (totLen : Nat) (chain : List (List UInt8))
    (random shm : Memory) : Option (PutOutcome × List Store) :=
  let gathered := gather (packet.byte.apply (blit 0 (littleEndian 4 totLen))) 4 chain
  if packetSize < gathered.2 then none
  else putOutBuffer aead ⟨packet.addr, gathered.1⟩ gathered.2 random shm

theorem gather_eq (packet : Memory) (offset : Nat) (chain : List (List UInt8)) :
    gather packet offset chain =
      (packet.apply (blit offset chain.flatten), offset + chain.flatten.length) := by
  induction chain generalizing packet offset with
  | nil => rfl
  | cons payload chain ih =>
    rw [gather, ih, List.flatten_cons, blit_append, Memory.apply_append, List.length_append,
      Nat.add_assoc]

section Packet
variable (packet : Memory) (totLen : Nat) (data : List UInt8)

/-- The static buffer when it is handed to the put. -/
def gathered : Memory := (packet.apply (blit 0 (littleEndian 4 totLen))).apply (blit 4 data)

theorem gathered_length (fits : totLen < 256 ^ 4) :
    (gathered packet totLen data).word 0 4 = totLen := by
  refine Eq.trans (Memory.word_congr fun k bound => ?_) (packet.word_apply_littleEndian 0 totLen fits)
  refine Memory.apply_frame _ fun s member => ?_
  have behind := (mem_blit member).1
  omega

theorem gathered_data : (gathered packet totLen data).read 4 data.length = data :=
  Memory.read_apply_blit _ 4 data

end Packet

/-- The plaintext of a chain. -/
def outMessage (packet : Buffer) (totLen : Nat) (chain : List (List UInt8)) (random : Memory) :
    List UInt8 :=
  padded ⟨packet.addr, gathered packet.byte totLen chain.flatten⟩ (4 + chain.flatten.length) random

theorem outMessage_getD (packet : Buffer) (totLen : Nat) (random : Memory) {k : Nat}
    (bound : k < 4 + chain.flatten.length) :
    (outMessage packet totLen chain random).getD k 0 =
      gathered packet.byte totLen chain.flatten k :=
  padded_getD _ random bound

/-- The frame the driver makes of a chain: its first twelve bytes are replaced,
and a short one is padded with zeros. -/
theorem wireFrame_outMessage (p : Transmit.Platform) (packet : Buffer) (random : Memory)
    {chain : List (List UInt8)} {n : Nat} (total : chain.flatten.length = n) (long : 12 ≤ n)
    (short : n < 256 ^ 4) :
    Transmit.ulen p (outMessage packet n chain random) = n ∧
    Transmit.wireFrame p (outMessage packet n chain random) =
      Transmit.nextHop ++ p.hwAddr ++ chain.flatten.drop 12 ++ List.replicate (64 - n) 0 := by
  have length : Transmit.ulen p (outMessage packet n chain random) = n := by
    rw [Transmit.ulen_eq]
    refine Eq.trans (Memory.word_congr fun k bound => ?_)
      (gathered_length packet.byte n chain.flatten short)
    have inside : 0 + k < 4 + chain.flatten.length := by omega
    exact outMessage_getD packet n random inside
  have body : Memory.read (fun k => (outMessage packet n chain random).getD k 0) 16 (n - 12) =
      chain.flatten.drop 12 := by
    obtain ⟨rest, rfl⟩ := Nat.exists_eq_add_of_le long
    have whole := gathered_data packet.byte (12 + rest) chain.flatten
    rw [total, Memory.read_append] at whole
    rw [← whole, List.drop_left' (Memory.read_length _ _ _), Nat.add_sub_cancel_left]
    refine Memory.read_congr fun k bound => ?_
    have inside : 16 + k < 4 + chain.flatten.length := by omega
    exact outMessage_getD packet _ random inside
  refine ⟨length, ?_⟩
  rw [Transmit.wireFrame, length, Transmit.smmTmp_frame p _ long, body]

/-- A chain put into an empty ring is the only message that waits there. -/
theorem lowLevelOutput_queue (aead : Aead 16) (packet : Buffer) (random : Memory) (totLen : Nat)
    {chain : List (List UInt8)} {shm : Memory} (fits : 4 + chain.flatten.length ≤ packetSize)
    (empty : ∀ j < maxEntry, shm (Direction.outbound.owner j) = outSgx) :
    ∃ stores, lowLevelOutput aead packet totLen chain random shm =
        some (.stored 0 (outMessage packet totLen chain random), stores) ∧
      Order.Queue aead .outbound (shm.apply stores) 0 [outMessage packet totLen chain random] := by
  have small : 4 + chain.flatten.length ≤ msgSize := fits.trans (by decide)
  have whole : (outMessage packet totLen chain random).length = msgSize := padded_length small
  have idle : Order.Queue aead .outbound shm 0 [] := .empty empty
  obtain full | ⟨stores, stored, queue⟩ := idle.put whole
  · exact absurd full (by decide)
  refine ⟨stores, ?_, queue⟩
  rw [lowLevelOutput, gather_eq]
  dsimp only
  rw [if_neg (by omega), putOutBuffer, if_neg (by omega), if_neg (by omega), Int.toNat_natCast]
  exact congrArg some stored

/-- The driver's part, for one waiting message: one frame, and the ring is empty. -/
theorem txEnclavePacket_single {aead : Aead 16} {shm : Memory} {message : List UInt8}
    (queue : Order.Queue aead .outbound shm 0 [message]) (p : Transmit.Platform) (rounds : Nat)
    (reply : Reply) (d : Transmit.Driver) (within : isWithinSmram p.smmTmp.addr msgSize = true)
    (fits : Transmit.ulen p message ≤ Transmit.txFrameSize) :
    ∃ taken, Transmit.txEnclavePacket p aead.decrypt (rounds + 2) reply shm d =
      some ((Transmit.load p message d).doPcnet32Transmit p (Transmit.ulen p message), taken) := by
  obtain ⟨first, drained⟩ := queue.get
  have second := drained.get_empty
  refine ⟨shm.apply [flip .outbound 0 Direction.outbound.sender], ?_⟩
  simp only [Transmit.txEnclavePacket, Network.getOutBuffer, get, within, if_true, first, second,
    Reply.after, Transmit.sendMessage, if_neg (Nat.not_lt.mpr fits), Option.bind_some]

/-- A chain of lwIP is presented to the NIC as one frame with the addresses of
the next hop and of the NIC, as long as SMM finds the region as the put has left
it. What was sent earlier leaves no trace in the padding. -/
theorem transmit_round_trip (aead : Aead 16) (p : Transmit.Platform) (packet : Buffer) (random : Memory)
    (rounds : Nat) (reply : Reply) {chain : List (List UInt8)} {n : Nat} {shm : Memory}
    (total : (chain.map List.length).sum = n) (long : 12 ≤ n) (short : n ≤ 1514)
    (empty : ∀ j < maxEntry, shm (Direction.outbound.owner j) = outSgx)
    (secure : ∀ k < msgSize, InSmram (p.smmTmp.addr + k))
    {start d : Transmit.Driver} (boot : start.Clear)
    (earlier : Run (Transmit.Activity p) start messages d) :
    ∃ outcome stores, lowLevelOutput aead packet n chain random shm = some (outcome, stores) ∧
      ∀ seen : Memory, (∀ a < shmSize, seen a = shm.apply stores a) →
        ∃ (presented : Transmit.Driver) (taken : Memory),
          Transmit.txEnclavePacket p aead.decrypt (rounds + 2) reply seen d =
            some ((presented.demand p).clearFrame, taken) ∧
          ∃ tmd : Pcnet.TxDesc, presented.nic.ring (Transmit.txRingSize - d.xmtrc) = tmd ∧
            tmd.own = true ∧ tmd.stp = true ∧ tmd.enp = true ∧ tmd.bcnt = max n 64 ∧
            (presented.dma p).read tmd.base tmd.bcnt =
              Transmit.nextHop ++ p.hwAddr ++ chain.flatten.drop 12 ++ List.replicate (64 - n) 0 := by
  rw [← List.length_flatten] at total
  obtain ⟨stores, queued, queue⟩ := lowLevelOutput_queue aead packet random n
    (by rw [total, packetSize]; omega) empty
  obtain ⟨length, frame⟩ := wireFrame_outMessage p packet random total long (by omega)
  have fits : Transmit.ulen p (outMessage packet n chain random) ≤ Transmit.txFrameSize := by
    rw [length, Transmit.txFrameSize]
    omega
  have within : isWithinSmram p.smmTmp.addr msgSize = true :=
    isWithinSmram_of_inside secure (by decide) (by decide)
  refine ⟨_, stores, queued, fun seen quiet => ?_⟩
  obtain ⟨taken, drained⟩ :=
    txEnclavePacket_single (queue.congr quiet) p rounds reply d within fits
  have shown := (Transmit.Activity.clear boot earlier).presents fits
  rw [length] at drained shown
  rw [Transmit.Driver.doPcnet32Transmit] at drained
  rw [length] at fits
  have whole := Transmit.Driver.txDesc_whole p fits
  have count := Transmit.Driver.txDesc_bcnt p fits
  refine ⟨_, taken, drained, Transmit.Driver.txDesc p n,
    Transmit.Driver.offer_ring n, whole.own, whole.stp, whole.enp, count, ?_⟩
  rw [count, ← frame]
  exact shown

/-- A chain of two pbufs, 15 bytes in all, sent by a driver that was just started. -/
theorem transmit_round_trip_two_pbufs :
    ∃ outcome stores,
      lowLevelOutput (transparent 16) ⟨0, fun _ => 0⟩ 15
        [[1, 2, 3, 4, 5, 6, 7, 8], [9, 10, 11, 12, 8, 0, 69]]
        (fun _ => 0) Transmit.freshRing = some (outcome, stores) ∧
      ∃ (presented : Transmit.Driver) (taken : Memory),
        Transmit.txEnclavePacket Transmit.qemuPlatform (transparent 16).decrypt 2 ⟨[], 0⟩
          (Transmit.freshRing.apply stores) Transmit.started =
            some ((presented.demand Transmit.qemuPlatform).clearFrame, taken) ∧
        ∃ tmd : Pcnet.TxDesc, presented.nic.ring 0 = tmd ∧ tmd.bcnt = 64 ∧
          (presented.dma Transmit.qemuPlatform).read tmd.base tmd.bcnt =
            [0xf4, 0x8e, 0x38, 0xf2, 0xfa, 0xa0, 0x52, 0x54, 0x00, 0x12, 0x34, 0x56, 8, 0, 69] ++
              List.replicate 49 0 := by
  have total : (([[1, 2, 3, 4, 5, 6, 7, 8], [9, 10, 11, 12, 8, 0, 69]] : List (List UInt8)).map
      List.length).sum = 15 := rfl
  obtain ⟨outcome, stores, queued, delivered⟩ := transmit_round_trip (transparent 16)
    Transmit.qemuPlatform ⟨0, fun _ => 0⟩ (fun _ => 0) 0 ⟨[], 0⟩ total (by decide) (by decide)
    (fun _ bound => Transmit.freshRing_owner .outbound bound) Transmit.qemuPlatform_secure
    (fun _ _ => rfl) (.start : Run _ Transmit.started [] Transmit.started)
  obtain ⟨presented, taken, drained, tmd, ring, _, _, _, count, shown⟩ := delivered _ fun _ _ => rfl
  exact ⟨outcome, stores, queued, presented, taken, drained, tmd, ring, count, shown⟩

/-! What `low_level_output` tells its caller. -/

/-- `ERR_OK` -/
def errOk : Int := 0

/-- `low_level_output` with its `err_t`: there is one return statement, and what
the put returned is not looked at. -/
def lowLevelOutputErr (aead : Aead 16) (packet : Buffer) (totLen : Nat) (chain : List (List UInt8))
    (random shm : Memory) : Option (Int × List Store) :=
  (lowLevelOutput aead packet totLen chain random shm).map fun r => (errOk, r.2)

/-- A slot of the enclave has become one of SMM, with the encrypted frame behind
its length in it. -/
def Queued (aead : Aead 16) (chain : List (List UInt8)) (before after : Memory) : Prop :=
  ∃ i < maxEntry, before (Direction.outbound.owner i) = outSgx ∧
    after (Direction.outbound.owner i) = outSmm ∧
    ∃ message, after.read (Direction.outbound.slot i) pktSize = aead.encrypt key nonce ad message ∧
      message.take (4 + chain.flatten.length) =
        littleEndian 4 chain.flatten.length ++ chain.flatten

theorem outMessage_frame (packet : Buffer) (chain : List (List UInt8)) (random : Memory) :
    (outMessage packet chain.flatten.length chain random).take (4 + chain.flatten.length) =
      littleEndian 4 chain.flatten.length ++ chain.flatten := by
  have header : (gathered packet.byte chain.flatten.length chain.flatten).read 0 4 =
      littleEndian 4 chain.flatten.length := by
    have written := packet.byte.read_apply_blit 0 (littleEndian 4 chain.flatten.length)
    rw [littleEndian_length] at written
    rw [gathered, Memory.read_apply_frame, written]
    intro s member k bound
    have behind := (mem_blit member).1
    omega
  rw [outMessage, padded, List.take_left' (Memory.read_length _ _ _), Memory.read_append, Nat.zero_add,
    header, gathered_data]

/-- The frame is queued if the enclave owns a slot; the return value does not say. -/
theorem lowLevelOutputErr_cases (aead : Aead 16) (packet : Buffer) (chain : List (List UInt8))
    (random shm : Memory) (fits : 4 + chain.flatten.length ≤ packetSize) :
    ∃ stores, lowLevelOutputErr aead packet chain.flatten.length chain random shm = some (errOk, stores) ∧
      (Queued aead chain shm (shm.apply stores) ↔
        ∃ i < maxEntry, shm (Direction.outbound.owner i) = outSgx) := by
  have small : 4 + chain.flatten.length ≤ msgSize := fits.trans (by decide)
  have whole : (outMessage packet chain.flatten.length chain random).length = msgSize :=
    padded_length small
  have called : lowLevelOutput aead packet chain.flatten.length chain random shm =
      some (putMessage aead .outbound (outMessage packet chain.flatten.length chain random) shm) := by
    rw [lowLevelOutput, gather_eq]
    dsimp only
    rw [if_neg (by omega), putOutBuffer, if_neg (by omega), if_neg (by omega), Int.toNat_natCast]
    rfl
  rw [lowLevelOutputErr, called]
  refine ⟨_, rfl, fun ⟨i, bound, free, _⟩ => ⟨i, bound, free⟩, fun ⟨i, bound, free⟩ => ?_⟩
  obtain ⟨occupied, _⟩ | ⟨k, range, owned, _, stored⟩ := putMessage_cases aead .outbound
    (outMessage packet chain.flatten.length chain random) shm
  · exact absurd free (occupied i bound)
  · rw [stored]
    exact ⟨k, range, owned, stored_owner aead, _, stored_slot aead range whole,
      outMessage_frame packet chain random⟩

/-- `low_level_output` reports the truth, for chains up to the largest Ethernet
frame, just when a slot of the OUT ring belongs to the enclave. -/
theorem low_level_output_truthful_iff (aead : Aead 16) (packet : Buffer) {chain : List (List UInt8)}
    {n : Nat} (random shm : Memory) (total : (chain.map List.length).sum = n) (short : n ≤ 1514) :
    (∃ err stores, lowLevelOutputErr aead packet n chain random shm = some (err, stores) ∧
      (err = errOk → Queued aead chain shm (shm.apply stores)) ∧
      (¬ Queued aead chain shm (shm.apply stores) → err ≠ errOk)) ↔
    ∃ i < 64, shm (Direction.outbound.owner i) = outSgx := by
  rw [← List.length_flatten] at total
  subst total
  obtain ⟨stores, returned, queued⟩ := lowLevelOutputErr_cases aead packet chain random shm
    (by rw [packetSize]; omega)
  rw [returned]
  constructor
  · rintro ⟨err, others, same, truthful, _⟩
    obtain ⟨rfl, rfl⟩ := Prod.mk.inj (Option.some.inj same)
    exact queued.mp (truthful rfl)
  · intro free
    exact ⟨errOk, stores, rfl, fun _ => queued.mpr free, fun lost => absurd (queued.mpr free) lost⟩

theorem low_level_output_truthful_iff_fresh :
    ∃ err stores, lowLevelOutputErr (transparent 16) ⟨0, fun _ => 0⟩ 3 [[1, 2], [3]] (fun _ => 0)
        Transmit.freshRing = some (err, stores) ∧
      (err = errOk → Queued (transparent 16) [[1, 2], [3]] Transmit.freshRing
        (Transmit.freshRing.apply stores)) ∧
      (¬ Queued (transparent 16) [[1, 2], [3]] Transmit.freshRing
        (Transmit.freshRing.apply stores) → err ≠ errOk) := by
  have total : (([[1, 2], [3]] : List (List UInt8)).map List.length).sum = 3 := rfl
  have free := Transmit.freshRing_owner .outbound (show 0 < maxEntry by decide)
  exact (low_level_output_truthful_iff (transparent 16) ⟨0, fun _ => 0⟩ (fun _ => 0) Transmit.freshRing
    total (by decide)).mpr ⟨0, by decide, free⟩

/-- 64 frames wait for SMM; the next one is lost, and reported as sent. -/
theorem full_ring_reports_success :
    ∃ stores, lowLevelOutputErr (transparent 16) ⟨0, fun _ => 0⟩ 3 [[1, 2], [3]] (fun _ => 0)
        (fun _ => outSmm) = some (errOk, stores) ∧
      ¬ Queued (transparent 16) [[1, 2], [3]] (fun _ => outSmm)
        (Memory.apply (fun _ => outSmm) stores) := by
  have waiting : outSmm ≠ outSgx := by decide
  obtain ⟨stores, returned, queued⟩ := lowLevelOutputErr_cases (transparent 16) ⟨0, fun _ => 0⟩
    [[1, 2], [3]] (fun _ => 0) (fun _ => outSmm) (by decide)
  refine ⟨stores, returned, fun sent => ?_⟩
  obtain ⟨_, _, free⟩ := queued.mp sent
  exact waiting free

end Aurora.Lwip
