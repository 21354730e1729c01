import Aurora.Ring.Drain

/-! Consecutive gets on a ring that nobody else touches. A packet that fails
authentication is not skipped: its slot keeps the receiver's mark, and the
packets behind it wait for as long as it stays. -/
namespace Aurora.Drain
open Lib

/-- This many calls in a row, with nobody else at the region. -/
def attempts (call : Reply → Memory → GetOutcome × Reply × List Store) :
    Nat → Reply → Memory → List (GetOutcome × Reply)
  | 0, _, _ => []
  | n + 1, reply, shm =>
    let (outcome, reply, stores) := call reply shm
    (outcome, reply) :: attempts call n reply (shm.apply stores)

/-- The call returned 0 with the plaintext of this slot. -/
def Delivers (i : Nat) (message : List UInt8) (result : GetOutcome × Reply) : Prop :=
  result.1 = .received i message ∧ result.1.code = 0 ∧ result.2.message = message

section Attempts
variable {decrypt : Decryption} {d : Direction} {shm : Memory} {i : Nat} {message : List UInt8}
  {call : Reply → Memory → GetOutcome × Reply × List Store}

/-- The calls that succeed take deliverable slots. -/
theorem attempts_sound (receives : Receives decrypt d call) {n : Nat} {reply : Reply}
    {result : GetOutcome × Reply} (member : result ∈ attempts call n reply shm)
    (success : result.1.code = 0) :
    ∃ i message, Deliverable decrypt d shm i ∧ opened decrypt d shm i = some message ∧
      Delivers i message result := by
  induction n generalizing reply shm with
  | zero => cases member
  | succ n ih =>
    obtain ⟨messageLen, called⟩ := receives reply shm
    rw [attempts, called] at member
    obtain ⟨_, stopped⟩ | ⟨i, message, rest, list, authentic, same, next⟩ :=
      getMessage_deliverable decrypt d shm
    · obtain ⟨_, same⟩ | ⟨_, _, _, _, same⟩ := stopped
      all_goals
        rw [same] at member
        obtain rfl | later := List.mem_cons.mp member
        · cases success
        · exact ih later
    · have slot := mem_deliverable.mp (list ▸ List.mem_cons_self)
      rw [same] at member
      obtain rfl | later := List.mem_cons.mp member
      · exact ⟨i, message, slot, authentic, rfl, rfl, rfl⟩
      · obtain ⟨j, other, taken, opens, delivered⟩ := ih later
        have tail : j ∈ rest := next ▸ mem_deliverable.mpr taken
        refine ⟨j, other, mem_deliverable.mp (list ▸ List.mem_cons_of_mem _ tail), ?_, delivered⟩
        exact (opened_flip _ slot.1).symm.trans opens

/-- As many calls as there are deliverable slots take them all. -/
theorem attempts_complete (receives : Receives decrypt d call) {n : Nat} (reply : Reply)
    (member : i ∈ (deliverable decrypt d shm).take n) (authentic : opened decrypt d shm i = some message) :
    ∃ result ∈ attempts call n reply shm, Delivers i message result := by
  induction n generalizing reply shm with
  | zero => cases member
  | succ n ih =>
    obtain ⟨messageLen, called⟩ := receives reply shm
    obtain ⟨empty, _⟩ | ⟨first, plain, rest, list, opens, same, next⟩ :=
      getMessage_deliverable decrypt d shm
    · rw [empty] at member
      cases member
    have bound := (mem_deliverable.mp (list ▸ List.mem_cons_self)).1
    rw [attempts, called, same]
    rw [list, List.take_succ_cons] at member
    obtain rfl | later := List.mem_cons.mp member
    · obtain rfl : plain = message := Option.some.inj (opens.symm.trans authentic)
      exact ⟨_, List.mem_cons_self, rfl, rfl, rfl⟩
    · obtain ⟨result, later_call, delivered⟩ := ih ⟨plain, messageLen⟩ (next ▸ later)
        ((opened_flip _ bound).trans authentic)
      exact ⟨result, List.mem_cons_of_mem _ later_call, delivered⟩

/-- Among as many calls as there are slots one takes an authentic slot just when
none of the slots in front of it that were handed over fails. -/
theorem attempts_deliver_iff (receives : Receives decrypt d call) (reply : Reply) (range : i < maxEntry)
    (owned : shm (d.owner i) = d.receiver) (authentic : opened decrypt d shm i = some message) :
    (∃ result ∈ attempts call maxEntry reply shm, Delivers i message result) ↔
      ∀ j < i, shm (d.owner j) = d.receiver → (opened decrypt d shm j).isSome := by
  constructor
  · rintro ⟨result, member, taken, success, _⟩ j below handed
    obtain ⟨k, other, slot, _, delivered⟩ := attempts_sound receives member success
    obtain ⟨rfl, _⟩ := GetOutcome.received.inj (taken.symm.trans delivered.1)
    exact slot.2.2 j below.le handed
  · intro clear
    refine attempts_complete receives reply ?_ authentic
    rw [List.take_of_length_le (deliverable_length decrypt d shm)]
    exact mem_deliverable.mpr (deliverable_of_front range owned authentic clear)

end Attempts

/-- `get_out_buffer` and `get_in_buffer` with a valid receive buffer, 64 times in
a row: an authentic packet comes through unless a slot in front of it was handed
over and fails authentication. -/
theorem authentic_slot_delivered_iff (decrypt : Decryption) (shm : Memory) (reply : Reply) {i : Nat}
    (message : List UInt8) (range : i < 64) {smm : Nat} (secure : isWithinSmram smm msgSize = true)
    {enclave : Enclave} {buffer : Nat} (inside : enclave.sgxIsWithinEnclave buffer msgSize = true) :
    (shm (Direction.outbound.owner i) = outSmm → opened decrypt .outbound shm i = some message →
      ((∃ result ∈ attempts (Network.getOutBuffer decrypt smm) 64 reply shm, Delivers i message result) ↔
        ∀ j < i, shm (Direction.outbound.owner j) = outSmm → (opened decrypt .outbound shm j).isSome)) ∧
    (shm (Direction.inbound.owner i) = inSgx → opened decrypt .inbound shm i = some message →
      ((∃ result ∈ attempts (Openssh.getInBuffer decrypt enclave buffer) 64 reply shm,
          Delivers i message result) ↔
        ∀ j < i, shm (Direction.inbound.owner j) = inSgx → (opened decrypt .inbound shm j).isSome)) :=
  ⟨attempts_deliver_iff (network_receives decrypt secure) reply range,
    attempts_deliver_iff (openssh_receives decrypt inside) reply range⟩

/-- A packet of one repeated byte is authentic for the transparent cipher if that
byte is zero. -/
theorem transparent_opened {d : Direction} {shm : Memory} {i : Nat} {byte : UInt8}
    (constant : ∀ k < pktSize, shm (d.slot i + k) = byte) :
    opened (transparent 16).decrypt d shm i =
      if byte = 0 then some (List.replicate msgSize 0) else none := by
  have tag : (List.replicate pktSize byte).drop (pktSize - 16) = List.replicate 16 byte := by
    rw [List.drop_replicate]
    rfl
  have text : (List.replicate pktSize byte).take (pktSize - 16) = List.replicate msgSize byte := by
    rw [List.take_replicate]
    rfl
  rw [opened, Memory.read_const constant]
  simp only [transparent, List.length_replicate, tag, text]
  by_cases zero : byte = 0
  · rw [if_pos zero, zero, if_pos ⟨by decide, rfl⟩]
  · rw [if_neg zero, if_neg]
    rintro ⟨_, same⟩
    exact zero (List.replicate_right_injective (by decide) same)

/-- In both rings slots 0, 2, 3 and 5 were handed over. The packet in slot 3 is one of
ones and fails, the others are authentic. -/
def mixed : Memory := fun a =>
  if a < 64 then if a ∈ [0, 2, 3, 5] then inSgx else inSmm
  else if a < 128 then if a - 64 ∈ [0, 2, 3, 5] then outSmm else outSgx
  else if a / pktSize = 4 ∨ a / pktSize = 68 then 1 else 0

theorem mixed_owner (d : Direction) {i : Nat} (bound : i < maxEntry) :
    mixed (d.owner i) = if i ∈ [0, 2, 3, 5] then d.receiver else d.sender := by
  simp only [maxEntry] at bound
  cases d with
  | inbound => exact if_pos bound
  | outbound =>
    have value : mixed (64 + i) = if 64 + i - 64 ∈ [0, 2, 3, 5] then outSmm else outSgx :=
      (if_neg (by omega)).trans (if_pos (by omega))
    rwa [Nat.add_sub_cancel_left] at value

theorem mixed_slot (d : Direction) {i : Nat} (bound : i < maxEntry) :
    ∀ k < pktSize, mixed (d.slot i + k) = if i = 3 then 1 else 0 := by
  intro k inside
  have page : ((d.slot i + k) / pktSize = 4 ∨ (d.slot i + k) / pktSize = 68) ↔ i = 3 := by
    cases d <;> simp only [Direction.slot, maxEntry, pktSize] at * <;> omega
  have above : 128 ≤ d.slot i + k := by
    cases d <;> simp only [Direction.slot, maxEntry, pktSize] at * <;> omega
  rw [mixed, if_neg (by omega), if_neg (by omega)]
  exact if_congr page rfl rfl

theorem mixed_opened (d : Direction) {i : Nat} (bound : i < maxEntry) :
    opened (transparent 16).decrypt d mixed i = if i = 3 then none else some (List.replicate msgSize 0) := by
  rw [transparent_opened (mixed_slot d bound)]
  by_cases bad : i = 3
  · simp [bad]
  · simp [bad]

/-- Slot 5 waits behind slot 3. -/
theorem mixed_deliverable (d : Direction) (i : Nat) :
    Deliverable (transparent 16).decrypt d mixed i ↔ i = 0 ∨ i = 2 := by
  have owned {j : Nat} (bound : j < maxEntry) : mixed (d.owner j) = d.receiver ↔ j ∈ [0, 2, 3, 5] := by
    rw [mixed_owner d bound]
    split <;> simp_all [d.sender_ne_receiver]
  constructor
  · rintro ⟨bound, handed, front⟩
    have few := (owned bound).mp handed
    simp only [List.mem_cons, List.not_mem_nil, or_false] at few
    by_contra other
    have third := front 3 (by omega) ((owned (by decide)).mpr (by decide))
    rw [mixed_opened d (by decide)] at third
    cases third
  · intro early
    have bound : i < maxEntry := by
      simp only [maxEntry]
      omega
    refine ⟨bound, (owned bound).mpr (by simp; omega), fun j most _ => ?_⟩
    rw [mixed_opened d (by omega), if_neg (by omega)]
    rfl

/-- The packet in slot 2 comes through in both rings, behind that in slot 0 and in spite
of the bad one in slot 3. -/
theorem authentic_slot_delivered_iff_mixed :
    (∃ result ∈ attempts (Network.getOutBuffer (transparent 16).decrypt smramStart) 64 ⟨[], 0⟩ mixed,
      Delivers 2 (List.replicate msgSize 0) result) ∧
    (∃ result ∈ attempts (Openssh.getInBuffer (transparent 16).decrypt
        .sample 0x10000) 64 ⟨[], 0⟩ mixed,
      Delivers 2 (List.replicate msgSize 0) result) := by
  obtain ⟨outbound, inbound⟩ := authentic_slot_delivered_iff (transparent 16).decrypt mixed ⟨[], 0⟩
    (List.replicate msgSize 0) (show 2 < 64 by decide) (show isWithinSmram smramStart msgSize = true by decide)
    (show Enclave.sample.sgxIsWithinEnclave 0x10000 msgSize = true by decide)
  have front (d : Direction) (j : Nat) (below : j < 2) : (opened (transparent 16).decrypt d mixed j).isSome := by
    rw [mixed_opened d (below.trans (by decide)), if_neg (by omega)]
    rfl
  exact ⟨(outbound (mixed_owner .outbound (by decide)) (mixed_opened .outbound (by decide))).mpr
      fun j below _ => front .outbound j below,
    (inbound (mixed_owner .inbound (by decide)) (mixed_opened .inbound (by decide))).mpr
      fun j below _ => front .inbound j below⟩

/-- The first two OUT slots were handed over, the first with a packet of ones and
the second with an authentic one. -/
def blocked : Memory := fun a => if a = 64 ∨ a = 65 then outSmm else if a < 8192 then 1 else 0

/-- Every call stops at the first slot, and the second packet never comes. -/
theorem bad_packet_blocks_channel :
    blocked (Direction.outbound.owner 1) = outSmm ∧
    opened (transparent 16).decrypt .outbound blocked 1 = some (List.replicate msgSize 0) ∧
    isWithinSmram smramStart msgSize = true ∧
    ∀ result ∈ attempts (Network.getOutBuffer (transparent 16).decrypt smramStart) 64 ⟨[], 0⟩ blocked,
      result.1.code ≠ 0 := by
  have ones : ∀ k < pktSize, blocked (Direction.outbound.slot 0 + k) = 1 := by
    intro k bound
    simp only [Direction.slot, pktSize] at bound ⊢
    exact (if_neg (by omega)).trans (if_pos (by omega))
  have zeros : ∀ k < pktSize, blocked (Direction.outbound.slot 1 + k) = 0 := by
    intro k _
    simp only [Direction.slot, pktSize]
    exact (if_neg (by omega)).trans (if_neg (by omega))
  have within : isWithinSmram smramStart msgSize = true := by decide
  refine ⟨rfl, transparent_opened zeros, within, fun result member success => ?_⟩
  obtain ⟨i, _, slot, _⟩ := attempts_sound (network_receives _ within) member success
  exact not_deliverable rfl (transparent_opened ones) (Nat.zero_le i) slot

end Aurora.Drain
