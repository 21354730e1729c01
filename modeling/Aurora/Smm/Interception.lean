import Aurora.Lib.Transition
import Aurora.Smm.Network

/-! What `pcnet32_process_rx_packets` does to the receive ring and to the IN slots:
which packets it takes from the OS, what becomes of their descriptors, and in
which slots they end. The dispatcher ignores the result of `put_in_buffer` and
clears the descriptor in any case. -/
namespace Aurora.Smm.Network
open Lib

/-- The address of the `i`-th descriptor. -/
def rxDesc (ring i : Nat) : Nat := (ring + i * rxDescSize) % 2 ^ 32

def descriptor (m : Memory) (rxs : Nat) : List UInt8 := (m.window 32 rxs).read 0 rxDescSize

/-- The packet passes the tests of status, version and options. -/
def intercepted (m : Memory) (rxs : Nat) : Bool := rxStatus m rxs == 0x340 && marked m rxs

/-- Everything the loop can do with one descriptor. -/
theorem processRxPacket_cases (aead : Aead 16) (base : Nat) (stack : Stack) (i : Nat) (m : Memory)
    (rxs : Nat) :
    (intercepted m rxs = false ∧ processRxPacket aead base stack i m rxs = some []) ∨
    (intercepted m rxs = true ∧ smmTmpBufSize < 4 + ulen m rxs ∧
      processRxPacket aead base stack i m rxs = none) ∨
    (intercepted m rxs = true ∧ 4 + ulen m rxs ≤ smmTmpBufSize ∧
      processRxPacket aead base stack i m rxs =
        some (rebase 32 base (putPacket aead base stack i m rxs).2 ++
          rebase 32 rxs (fill 0 rxDescSize 0))) := by
  unfold processRxPacket dispatchRxPackets intercepted
  by_cases status : rxStatus m rxs = 0x340
  · rw [if_pos status]
    cases passes : marked m rxs with
    | false => exact Or.inl ⟨by simp, rfl⟩
    | true =>
      rw [if_neg (by decide)]
      by_cases long : smmTmpBufSize < 4 + ulen m rxs
      · exact Or.inr (Or.inl ⟨by simp [status], long, if_pos long⟩)
      · exact Or.inr (Or.inr ⟨by simp [status], Nat.not_lt.mp long, if_neg long⟩)
  · exact Or.inl ⟨by simp [status], if_neg status⟩

/-- What the packet of a descriptor needs to reach the enclave: it fits
`smm_tmp_buf`, which lies in SMRAM, and an IN slot is free. -/
structure Deliverable (base : Nat) (stack : Stack) (m : Memory) (rxs : Nat) : Prop where
  long : 14 ≤ rxMsgLength m rxs
  short : rxMsgLength m rxs ≤ 1610
  within : isWithinSmram stack.smmTmpBuf 4032 = true
  free : ∃ k < maxEntry, region m base (Direction.inbound.owner k) = inSmm

theorem copy_fits_iff {m : Memory} {rxs : Nat} : 4 + ulen m rxs ≤ smmTmpBufSize ↔
    14 ≤ rxMsgLength m rxs ∧ rxMsgLength m rxs ≤ 1610 := by
  have small : rxMsgLength m rxs < 256 ^ 4 := Memory.word_lt _ _ _
  simp only [ulen, etherHeader, smmTmpBufSize]
  omega

theorem processRxPacket_isSome (aead : Aead 16) (base : Nat) (stack : Stack) (i : Nat) {m : Memory} {rxs : Nat}
    (fits : intercepted m rxs = true → 14 ≤ rxMsgLength m rxs ∧ rxMsgLength m rxs ≤ 1610) :
    (processRxPacket aead base stack i m rxs).isSome = true := by
  obtain ⟨_, visit⟩ | ⟨passes, long, _⟩ | ⟨_, _, visit⟩ := processRxPacket_cases aead base stack i m rxs
  · rw [visit]
    rfl
  · have short := copy_fits_iff.mpr (fits passes)
    omega
  · rw [visit]
    rfl

/-- The message that the put makes of the packet of a descriptor. -/
def plaintext (stack : Stack) (i : Nat) (m : Memory) (rxs : Nat) : List UInt8 :=
  padded ⟨stack.smmTmpBuf, packet m rxs (stack.residual i)⟩ 4032 (stack.random i)

theorem putPacket_cases (aead : Aead 16) (base : Nat) (stack : Stack) (i : Nat) (m : Memory) (rxs : Nat) :
    ¬ Deliverable base stack m rxs ∧ (putPacket aead base stack i m rxs).2 = [] ∨
    isWithinSmram stack.smmTmpBuf 4032 = true ∧ ∃ k < maxEntry,
      region m base (Direction.inbound.owner k) = inSmm ∧
      (∀ l < k, region m base (Direction.inbound.owner l) ≠ inSmm) ∧
      (putPacket aead base stack i m rxs).2 =
        slotCopy .inbound k (aead.encrypt key nonce ad (plaintext stack i m rxs)) ++
          [flip .inbound k Direction.inbound.receiver] := by
  simp only [putPacket, Aurora.Network.putInBuffer, put]
  cases within : isWithinSmram stack.smmTmpBuf 4032 with
  | false =>
    refine Or.inl ⟨fun can => ?_, by simp [accept]⟩
    exact absurd (within.symm.trans can.within) (by decide)
  | true =>
    simp only [accept_packet]
    obtain ⟨taken, same⟩ | ⟨k, bound, free, least, same⟩ := putMessage_cases aead .inbound
      (padded ⟨stack.smmTmpBuf, packet m rxs (stack.residual i)⟩ 4032 (stack.random i)) (region m base)
    · refine Or.inl ⟨fun can => ?_, by rw [same]⟩
      obtain ⟨k, bound, free⟩ := can.free
      exact taken k bound free
    · exact Or.inr ⟨trivial, k, bound, free, least, by rw [same]; rfl⟩

/-- The bytes of the region that a put searches and writes. -/
def InPart (a : Nat) : Prop :=
  a < maxEntry ∨ Direction.inbound.slot 0 ≤ a ∧ a < Direction.inbound.slot maxEntry

/-- The receive ring, as wrapped by its pointer, shares no byte with them. -/
def RingApart (base ring : Nat) : Prop :=
  ∀ o < rxRingSize * rxDescSize, ∀ a, InPart a → (ring + o) % 2 ^ 32 ≠ (base + a) % 2 ^ 32

theorem InPart.owner {k : Nat} (bound : k < maxEntry) : InPart (Direction.inbound.owner k) := Or.inl bound

theorem InPart.slot {k o : Nat} (bound : k < maxEntry) (inside : o < pktSize) :
    InPart (Direction.inbound.slot k + o) := by
  simp only [InPart, Direction.slot, maxEntry, pktSize] at *
  omega

theorem InPart.small {a : Nat} (part : InPart a) : a < shmSize := by
  simp only [InPart, Direction.slot, maxEntry, pktSize, shmSize] at *
  omega

theorem InPart.of_put (aead : Aead 16) {k : Nat} {message : List UInt8} (bound : k < maxEntry)
    (whole : message.length = msgSize) : ∀ s ∈ slotCopy .inbound k (aead.encrypt key nonce ad message) ++
      [flip .inbound k Direction.inbound.receiver], InPart s.addr := by
  intro s member
  rcases List.mem_append.mp member with copied | flipped
  · have range := mem_blit copied
    rw [packet_length aead whole] at range
    obtain ⟨o, same⟩ := Nat.exists_eq_add_of_le range.1
    rw [same] at range ⊢
    exact .slot bound (by omega)
  · cases List.mem_singleton.mp flipped
    exact .owner bound

/-- An IN slot of the region, the owner and the packet. -/
def inSlot (m : Memory) (base k : Nat) : UInt8 × List UInt8 :=
  (region m base (Direction.inbound.owner k), (region m base).read (Direction.inbound.slot k) pktSize)

/-- From the one memory to the other a free IN slot was handed over with the packet
of a descriptor. -/
def Stored (aead : Aead 16) (base : Nat) (stack : Stack) (i rxs : Nat) (seen after : Memory) (k : Nat) :
    Prop :=
  (inSlot seen base k).1 = inSmm ∧
    inSlot after base k = (inSgx, aead.encrypt key nonce ad (plaintext stack i seen rxs))

instance (aead : Aead 16) (base : Nat) (stack : Stack) (i rxs : Nat) (seen after : Memory) (k : Nat) :
    Decidable (Stored aead base stack i rxs seen after k) :=
  inferInstanceAs (Decidable (_ ∧ _))

section Descriptors
variable {aead : Aead 16} {base : Nat} {stack : Stack} {ring i j k : Nat} {m after : Memory}

theorem Stored.changed {rxs : Nat} (stored : Stored aead base stack i rxs m after k) :
    inSlot after base k ≠ inSlot m base k := by
  intro same
  have owner : inSmm = inSgx := stored.1.symm.trans (congrArg Prod.fst (same.symm.trans stored.2))
  exact absurd owner (by decide)

theorem inSlot_congr {shm : Memory} (same : ∀ a, InPart a → region after base a = shm a)
    (bound : k < maxEntry) :
    inSlot after base k = (shm (Direction.inbound.owner k), shm.read (Direction.inbound.slot k) pktSize) := by
  have packet : (region after base).read (Direction.inbound.slot k) pktSize =
      shm.read (Direction.inbound.slot k) pktSize :=
    Memory.read_congr fun o inside => same _ (.slot bound inside)
  rw [inSlot, packet, same _ (.owner bound)]

theorem rxDesc_byte (ring i k : Nat) :
    (rxDesc ring i + k) % 2 ^ 32 = (ring + (i * rxDescSize + k)) % 2 ^ 32 := by
  rw [rxDesc, Nat.mod_add_mod, Nat.add_assoc]

theorem rxDesc_small (bound : i < rxRingSize) (inside : k < rxDescSize) :
    i * rxDescSize + k < rxRingSize * rxDescSize := by
  simp only [rxRingSize, rxDescSize] at *
  omega

/-- Clearing a descriptor clears all of it, whatever was stored before. -/
theorem descriptor_clear (m : Memory) (stores : List Store) (rxs : Nat) :
    descriptor (m.apply (stores ++ rebase 32 rxs (fill 0 rxDescSize 0))) rxs =
      List.replicate rxDescSize 0 := by
  rw [Memory.apply_append]
  refine Memory.read_const fun k bound => ?_
  have inside : ∀ s ∈ fill 0 rxDescSize 0, s.addr < rxDescSize := by
    intro s member
    simpa using (mem_fill member).2
  rw [Nat.zero_add, Memory.window_apply _ (by decide) inside bound, ← Nat.zero_add k]
  exact Memory.apply_fill_get _ 0 0 bound

/-- Clearing one descriptor leaves the bytes of the others alone. -/
theorem clear_other (stores : List Store) {o : Nat} (bound : i < rxRingSize)
    (small : o < rxRingSize * rxDescSize) (other : o / rxDescSize ≠ i) :
    m.apply (stores ++ rebase 32 (rxDesc ring i) (fill 0 rxDescSize 0)) ((ring + o) % 2 ^ 32) =
      m.apply stores ((ring + o) % 2 ^ 32) := by
  rw [Memory.apply_append]
  refine Memory.apply_frame _ fun s member same => ?_
  obtain ⟨t, inside, rfl⟩ := mem_rebase member
  have range := (mem_fill inside).2
  dsimp only at same
  rw [rxDesc_byte] at same
  have equal := wrap_injective (by decide) (rxDesc_small bound (by omega)) small same
  simp only [rxDescSize] at *
  omega

/-- A put and the clearing of one descriptor leave the other descriptors alone. -/
theorem descriptor_other (apart : RingApart base ring) {put : List Store}
    (targets : ∀ s ∈ put, InPart s.addr) (left : i < rxRingSize) (right : j < rxRingSize)
    (different : j ≠ i) :
    descriptor (m.apply (rebase 32 base put ++ rebase 32 (rxDesc ring i) (fill 0 rxDescSize 0)))
      (rxDesc ring j) = descriptor m (rxDesc ring j) := by
  refine Memory.read_congr fun k bound => ?_
  have small := rxDesc_small right bound
  have other : (j * rxDescSize + k) / rxDescSize ≠ i := by
    simp only [rxDescSize] at *
    omega
  simp only [Memory.window, Nat.zero_add, rxDesc_byte]
  rw [clear_other _ left small other]
  refine Memory.apply_frame _ fun s member same => ?_
  obtain ⟨t, inside, rfl⟩ := mem_rebase member
  exact apart _ small t.addr (targets t inside) same.symm

/-- Clearing a descriptor leaves the IN part of the region as the put has left it. -/
theorem region_put (apart : RingApart base ring) {put : List Store} (targets : ∀ s ∈ put, InPart s.addr)
    (bound : i < rxRingSize) {a : Nat} (part : InPart a) :
    region (m.apply (rebase 32 base put ++ rebase 32 (rxDesc ring i) (fill 0 rxDescSize 0))) base a =
      (region m base).apply put a := by
  rw [region_clear fun k inside => rxDesc_byte ring i k ▸ apart _ (rxDesc_small bound inside) a part]
  exact Memory.window_apply m (by decide) (fun s member => (targets s member).small) part.small

theorem rxStatus_congr {rxs : Nat} (same : descriptor after rxs = descriptor m rxs) :
    rxStatus after rxs = rxStatus m rxs := by
  refine Memory.word_congr fun k bound => ?_
  have byte := Memory.read_inj same (k := 6 + k) (by simp only [rxDescSize]; omega)
  rwa [Nat.zero_add] at byte

theorem rxStatus_cleared {rxs : Nat} (cleared : descriptor m rxs = List.replicate rxDescSize 0) :
    rxStatus m rxs = 0 :=
  rxStatus_congr (m := fun _ => 0) cleared

theorem intercepted_status {rxs : Nat} (taken : intercepted m rxs = true) : rxStatus m rxs = 0x340 := by
  simp only [intercepted, Bool.and_eq_true, beq_iff_eq] at taken
  exact taken.1

end Descriptors

/-- The packet of a descriptor was taken: it is cleared, and no other is touched. -/
structure Taken (ring i : Nat) (m after : Memory) : Prop where
  passes : intercepted m (rxDesc ring i) = true
  fits : 4 + ulen m (rxDesc ring i) ≤ smmTmpBufSize
  cleared : descriptor after (rxDesc ring i) = List.replicate rxDescSize 0
  others : ∀ j < rxRingSize, j ≠ i → descriptor after (rxDesc ring j) = descriptor m (rxDesc ring j)

/-- What the turn of a descriptor leaves behind. -/
inductive Visit (aead : Aead 16) (base : Nat) (stack : Stack) (ring i : Nat) (m after : Memory) : Prop where
  | passed : intercepted m (rxDesc ring i) = false → after = m → Visit aead base stack ring i m after
  | lost : Taken ring i m after → ¬ Deliverable base stack m (rxDesc ring i) →
      (∀ k < maxEntry, inSlot after base k = inSlot m base k) → Visit aead base stack ring i m after
  | stored (k : Nat) : Taken ring i m after → Deliverable base stack m (rxDesc ring i) → k < maxEntry →
      Stored aead base stack i (rxDesc ring i) m after k → (∀ l < k, (inSlot m base l).1 ≠ inSmm) →
      (∀ l < maxEntry, l ≠ k → inSlot after base l = inSlot m base l) → Visit aead base stack ring i m after

section Turns
variable {aead : Aead 16} {base : Nat} {stack : Stack} {ring : Nat} {m : Memory}

theorem plaintext_length (stack : Stack) (i : Nat) (m : Memory) (rxs : Nat) :
    (plaintext stack i m rxs).length = msgSize :=
  padded_length (by decide)

theorem processRxPacket_visit (apart : RingApart base ring) {i : Nat} (bound : i < rxRingSize)
    {stores : List Store} (visit : processRxPacket aead base stack i m (rxDesc ring i) = some stores) :
    Visit aead base stack ring i m (m.apply stores) := by
  obtain ⟨skipped, same⟩ | ⟨_, _, same⟩ | ⟨passes, fits, same⟩ :=
    processRxPacket_cases aead base stack i m (rxDesc ring i)
  · cases same.symm.trans visit
    exact .passed skipped rfl
  · cases same.symm.trans visit
  cases same.symm.trans visit
  have taken {put : List Store} (targets : ∀ s ∈ put, InPart s.addr) :
      Taken ring i m (m.apply (rebase 32 base put ++ rebase 32 (rxDesc ring i) (fill 0 rxDescSize 0))) :=
    ⟨passes, fits, descriptor_clear m _ _, fun j right different =>
      descriptor_other apart targets bound right different⟩
  obtain ⟨cannot, put⟩ | ⟨within, k, room, free, least, put⟩ :=
    putPacket_cases aead base stack i m (rxDesc ring i)
  · rw [put]
    have targets : ∀ s ∈ ([] : List Store), InPart s.addr := by simp
    exact .lost (taken targets) cannot fun k small =>
      inSlot_congr (fun a part => region_put apart targets bound part) small
  · rw [put]
    have whole := plaintext_length stack i m (rxDesc ring i)
    have targets := InPart.of_put aead room whole
    have part := fun a inside => region_put (m := m) (i := i) apart targets bound (a := a) inside
    have length := copy_fits_iff.mp fits
    refine .stored k (taken targets) ⟨length.1, length.2, within, k, room, free⟩ room ⟨free, ?_⟩ least ?_
    · rw [inSlot_congr part room, stored_owner, stored_slot aead room whole]
      rfl
    · intro l small different
      have apart : Apart .inbound k (region m base) _ := stored_apart aead room whole
      obtain ⟨owner, slot⟩ := apart .inbound l small fun same => different same.2.symm
      rw [inSlot_congr part small, owner, slot]
      rfl

theorem Visit.descriptor_kept {i j : Nat} {after : Memory} (visit : Visit aead base stack ring i m after)
    (bound : j < rxRingSize) (different : j ≠ i) :
    descriptor after (rxDesc ring j) = descriptor m (rxDesc ring j) := by
  cases visit with
  | passed _ same => rw [same]
  | lost taken | stored _ taken => exact taken.others j bound different

/-- A slot that is not free is not touched. -/
theorem Visit.inSlot_kept {i k : Nat} {after : Memory} (visit : Visit aead base stack ring i m after)
    (bound : k < maxEntry) (handed : (inSlot m base k).1 ≠ inSmm) :
    inSlot after base k = inSlot m base k := by
  cases visit with
  | passed _ same => rw [same]
  | lost _ _ same => exact same k bound
  | stored _ _ _ _ stored _ same =>
    refine same k bound fun here => ?_
    rw [here] at handed
    exact handed stored.1

/-- The memory when the loop comes to the `j`-th descriptor. -/
def turn (aead : Aead 16) (base : Nat) (stack : Stack) (ring : Nat) (m : Memory) (j : Nat) : Memory :=
  m.apply ((processFrom aead base stack ring j 0 m).getD [])

theorem processFrom_concat {n i : Nat} : processFrom aead base stack ring (n + 1) i m =
    (processFrom aead base stack ring n i m).bind fun first =>
      (processRxPacket aead base stack (i + n) (m.apply first) (rxDesc ring (i + n))).map (first ++ ·) := by
  induction n generalizing i m with
  | zero =>
    have here : processRxPacket aead base stack (i + 0) m (rxDesc ring (i + 0)) =
        processRxPacket aead base stack i m ((ring + i * rxDescSize) % 2 ^ 32) := rfl
    rw [processFrom, processFrom, Option.bind_some, Memory.apply_nil, here]
    cases processRxPacket aead base stack i m ((ring + i * rxDescSize) % 2 ^ 32) with
    | none => rfl
    | some first => exact congrArg some (List.append_nil first)
  | succ n ih =>
    rw [processFrom, processFrom]
    cases processRxPacket aead base stack i m ((ring + i * rxDescSize) % 2 ^ 32) with
    | none => rfl
    | some first =>
      simp only [ih, Nat.add_assoc, Nat.add_comm 1 n]
      cases processFrom aead base stack ring n (i + 1) (m.apply first) with
      | none => rfl
      | some later =>
        simp only [Option.bind_some, Option.map_some, Memory.apply_append, Option.map_map]
        refine congrArg (Option.map · _) (funext fun last => ?_)
        exact (List.append_assoc _ _ _).symm

theorem turn_next {n : Nat} (ran : (processFrom aead base stack ring (n + 1) 0 m).isSome = true) :
    (processFrom aead base stack ring n 0 m).isSome = true ∧
      ∃ visit, processRxPacket aead base stack n (turn aead base stack ring m n) (rxDesc ring n) = some visit ∧
        turn aead base stack ring m (n + 1) = (turn aead base stack ring m n).apply visit := by
  unfold turn
  rw [processFrom_concat, Nat.zero_add] at ran ⊢
  cases before : processFrom aead base stack ring n 0 m with
  | none =>
    rw [before] at ran
    cases ran
  | some first =>
    rw [before, Option.bind_some, Option.isSome_map] at ran
    obtain ⟨visit, here⟩ := Option.isSome_iff_exists.mp ran
    refine ⟨rfl, visit, here, ?_⟩
    rw [Option.bind_some, here]
    exact Memory.apply_append m first visit

theorem processFrom_next_isSome {n : Nat} (ran : (processFrom aead base stack ring n 0 m).isSome = true) :
    (processFrom aead base stack ring (n + 1) 0 m).isSome =
      (processRxPacket aead base stack n (turn aead base stack ring m n) (rxDesc ring n)).isSome := by
  obtain ⟨first, before⟩ := Option.isSome_iff_exists.mp ran
  rw [processFrom_concat, turn, before, Option.bind_some, Option.isSome_map, Nat.zero_add, Option.getD_some]

theorem processFrom_earlier {n total : Nat} (most : n ≤ total)
    (ran : (processFrom aead base stack ring total 0 m).isSome = true) :
    (processFrom aead base stack ring n 0 m).isSome = true := by
  induction total, most using Nat.le_induction with
  | base => exact ran
  | succ total _ ih => exact ih (turn_next ran).1

end Turns

section Round
variable {aead : Aead 16} {base : Nat} {stack : Stack} {ring : Nat} {m : Memory} {j n : Nat}

theorem turn_visit (apart : RingApart base ring) (bound : j < rxRingSize)
    (ran : (processFrom aead base stack ring (j + 1) 0 m).isSome = true) :
    Visit aead base stack ring j (turn aead base stack ring m j) (turn aead base stack ring m (j + 1)) := by
  obtain ⟨_, visit, here, next⟩ := turn_next ran
  rw [next]
  exact processRxPacket_visit apart bound here

/-- Before its turn a descriptor is as it was. -/
theorem descriptor_before (apart : RingApart base ring) (early : n ≤ j) (bound : j < rxRingSize)
    (ran : (processFrom aead base stack ring n 0 m).isSome = true) :
    descriptor (turn aead base stack ring m n) (rxDesc ring j) = descriptor m (rxDesc ring j) := by
  induction n with
  | zero => rfl
  | succ n ih =>
    have visit := turn_visit apart (by omega) ran
    exact (visit.descriptor_kept bound (by omega)).trans (ih (by omega) (turn_next ran).1)

/-- After its turn a descriptor stays as it is. -/
theorem descriptor_after (apart : RingApart base ring) (late : j + 1 ≤ n) (most : n ≤ rxRingSize)
    (ran : (processFrom aead base stack ring n 0 m).isSome = true) :
    descriptor (turn aead base stack ring m n) (rxDesc ring j) =
      descriptor (turn aead base stack ring m (j + 1)) (rxDesc ring j) := by
  induction n, late using Nat.le_induction with
  | base => rfl
  | succ n past ih =>
    have visit := turn_visit apart (by omega) ran
    exact (visit.descriptor_kept (by omega) (by omega)).trans (ih (by omega) (turn_next ran).1)

/-- What was stored in a turn is there at the end. -/
theorem stored_after (apart : RingApart base ring) (late : j + 1 ≤ n) (most : n ≤ rxRingSize)
    (ran : (processFrom aead base stack ring n 0 m).isSome = true) {i rxs k : Nat} {seen : Memory}
    (room : k < maxEntry) (stored : Stored aead base stack i rxs seen (turn aead base stack ring m (j + 1)) k) :
    Stored aead base stack i rxs seen (turn aead base stack ring m n) k := by
  induction n, late using Nat.le_induction with
  | base => exact stored
  | succ n past ih =>
    have held := ih (by omega) (turn_next ran).1
    have visit := turn_visit apart (by omega) ran
    have handed : (inSlot (turn aead base stack ring m n) base k).1 ≠ inSmm := by
      rw [held.2]
      exact (by decide : inSgx ≠ inSmm)
    exact ⟨held.1, (visit.inSlot_kept room handed).trans held.2⟩

end Round

/-- What interception should make of a descriptor: clear it or leave it, clear only
a marked packet, and clear it exactly if the packet was put into an IN slot in its turn
and is there at the end. -/
structure Exact (aead : Aead 16) (base : Nat) (stack : Stack) (ring : Nat) (m after : Memory) (j : Nat) :
    Prop where
  changes : descriptor after (rxDesc ring j) = descriptor m (rxDesc ring j) ∨
    descriptor after (rxDesc ring j) = List.replicate rxDescSize 0 ∧
      descriptor (turn aead base stack ring m j) (rxDesc ring j) = descriptor m (rxDesc ring j) ∧
      intercepted (turn aead base stack ring m j) (rxDesc ring j) = true
  stored : descriptor after (rxDesc ring j) ≠ descriptor m (rxDesc ring j) ↔
    ∃ k < maxEntry, Stored aead base stack j (rxDesc ring j) (turn aead base stack ring m j)
        (turn aead base stack ring m (j + 1)) k ∧
      Stored aead base stack j (rxDesc ring j) (turn aead base stack ring m j) after k

/-- Every packet that the round comes to can be delivered when it is its turn. -/
def Admissible (aead : Aead 16) (base : Nat) (stack : Stack) (ring : Nat) (m : Memory) : Prop :=
  ∀ j < rxRingSize, intercepted (turn aead base stack ring m j) (rxDesc ring j) = true →
    Deliverable base stack (turn aead base stack ring m j) (rxDesc ring j)

section Exactness
variable {aead : Aead 16} {base : Nat} {stack : Stack} {ring : Nat} {m : Memory} {j : Nat}

theorem exact_turn_iff (apart : RingApart base ring) (bound : j < rxRingSize)
    (ran : (processFrom aead base stack ring rxRingSize 0 m).isSome = true) :
    Exact aead base stack ring m (turn aead base stack ring m rxRingSize) j ↔
      (intercepted (turn aead base stack ring m j) (rxDesc ring j) = true →
        Deliverable base stack (turn aead base stack ring m j) (rxDesc ring j)) := by
  have here := processFrom_earlier (n := j + 1) bound ran
  have visit := turn_visit apart bound here
  have before := descriptor_before apart (Nat.le_refl j) bound (turn_next here).1
  have after := descriptor_after apart bound (Nat.le_refl _) ran
  have changed (taken : Taken ring j (turn aead base stack ring m j) (turn aead base stack ring m (j + 1))) :
      descriptor (turn aead base stack ring m rxRingSize) (rxDesc ring j) ≠ descriptor m (rxDesc ring j) := by
    intro same
    have blank := rxStatus_cleared (m := turn aead base stack ring m j)
      (before.trans (same.symm.trans (after.trans taken.cleared)))
    rw [intercepted_status taken.passes] at blank
    exact absurd blank (by decide)
  cases visit with
  | passed skipped same =>
    have kept := after.trans ((congrArg (descriptor · (rxDesc ring j)) same).trans before)
    refine iff_of_true ⟨Or.inl kept, iff_of_false (not_not.mpr kept) ?_⟩ (by simp [skipped])
    rintro ⟨k, _, stored, _⟩
    exact stored.changed (congrArg (inSlot · base k) same)
  | lost taken cannot same =>
    refine iff_of_false (fun exactly => ?_) fun can => cannot (can taken.passes)
    obtain ⟨k, room, stored, _⟩ := exactly.stored.mp (changed taken)
    exact stored.changed (same k room)
  | stored k taken can room stored =>
    refine iff_of_true ⟨Or.inr ⟨after.trans taken.cleared, before, taken.passes⟩,
      iff_of_true (changed taken) ⟨k, room, stored, ?_⟩⟩ fun _ => can
    exact stored_after apart bound (Nat.le_refl _) ran room stored

/-- A round in which every packet can be delivered comes to its end. -/
theorem Admissible.ran (admissible : Admissible aead base stack ring m) :
    ∀ n ≤ rxRingSize, (processFrom aead base stack ring n 0 m).isSome = true := by
  intro n most
  induction n with
  | zero => rfl
  | succ n ih =>
    rw [processFrom_next_isSome (ih (by omega))]
    refine processRxPacket_isSome aead base stack n fun passes => ?_
    have can := admissible n most passes
    exact ⟨can.long, can.short⟩

/-- A round that comes to one marked packet only. -/
theorem lone_round {visit : List Store}
    (here : processRxPacket aead base stack j m (rxDesc ring j) = some visit)
    (before : ∀ t < j, intercepted m (rxDesc ring t) = false)
    (later : ∀ t, j < t → t < rxRingSize → intercepted (m.apply visit) (rxDesc ring t) = false) :
    ∀ n ≤ rxRingSize, processFrom aead base stack ring n 0 m = some (if n ≤ j then [] else visit) := by
  intro n most
  induction n with
  | zero => rw [processFrom, if_pos (Nat.zero_le j)]
  | succ n ih =>
    have pass {t : Nat} {seen : Memory} (skipped : intercepted seen (rxDesc ring t) = false) :
        processRxPacket aead base stack t seen (rxDesc ring t) = some [] := by
      obtain ⟨_, same⟩ | ⟨passes, _⟩ | ⟨passes, _⟩ :=
        processRxPacket_cases aead base stack t seen (rxDesc ring t)
      · exact same
      · exact absurd (skipped.symm.trans passes) (by decide)
      · exact absurd (skipped.symm.trans passes) (by decide)
    rw [processFrom_concat, ih (by omega), Option.bind_some, Nat.zero_add]
    obtain early | rfl | late := Nat.lt_trichotomy n j
    · rw [if_pos (by omega), if_pos (by omega), Memory.apply_nil, pass (before n early)]
      rfl
    · rw [if_pos (Nat.le_refl n), if_neg (by omega), Memory.apply_nil, here]
      rfl
    · rw [if_neg (by omega), if_neg (by omega), pass (later n late most)]
      exact congrArg some (List.append_nil visit)

theorem turn_last {stores : List Store} (ran : processFrom aead base stack ring rxRingSize 0 m = some stores) :
    turn aead base stack ring m rxRingSize = m.apply stores := by
  rw [turn, ran, Option.getD_some]

/-- A marked packet that can be delivered is cleared, and is in a slot at the end. -/
theorem delivered_at_end (apart : RingApart base ring) (bound : j < rxRingSize) {stores : List Store}
    (ran : processFrom aead base stack ring rxRingSize 0 m = some stores)
    (passes : intercepted (turn aead base stack ring m j) (rxDesc ring j) = true)
    (can : Deliverable base stack (turn aead base stack ring m j) (rxDesc ring j)) :
    descriptor (m.apply stores) (rxDesc ring j) = List.replicate rxDescSize 0 ∧
      ∃ k < maxEntry, Stored aead base stack j (rxDesc ring j) (turn aead base stack ring m j)
        (m.apply stores) k := by
  have whole := Option.isSome_iff_exists.mpr ⟨stores, ran⟩
  rw [← turn_last ran]
  cases turn_visit apart bound (processFrom_earlier bound whole) with
  | passed skipped => exact absurd (skipped.symm.trans passes) (by decide)
  | lost _ cannot => exact absurd can cannot
  | stored k taken _ room stored =>
    exact ⟨(descriptor_after apart bound (Nat.le_refl _) whole).trans taken.cleared, k, room,
      stored_after apart bound (Nat.le_refl _) whole room stored⟩

theorem exact_iff_admissible (apart : RingApart base ring) :
    (∃ stores, processFrom aead base stack ring rxRingSize 0 m = some stores ∧
      ∀ j < rxRingSize, Exact aead base stack ring m (m.apply stores) j) ↔
      Admissible aead base stack ring m := by
  constructor
  · rintro ⟨stores, ran, exactly⟩ j bound
    rw [← exact_turn_iff apart bound (Option.isSome_iff_exists.mpr ⟨stores, ran⟩), turn_last ran]
    exact exactly j bound
  · intro admissible
    obtain ⟨stores, ran⟩ := Option.isSome_iff_exists.mp (admissible.ran rxRingSize (Nat.le_refl _))
    refine ⟨stores, ran, fun j bound => ?_⟩
    rw [← turn_last ran, exact_turn_iff apart bound (Option.isSome_iff_exists.mpr ⟨stores, ran⟩)]
    exact admissible j bound

end Exactness

section Empty
variable {aead : Aead 16} {base : Nat} {stack : Stack} {ring : Nat} {m : Memory}

theorem rxMsgLength_congr {after : Memory} {rxs : Nat} (same : descriptor after rxs = descriptor m rxs) :
    rxMsgLength after rxs = rxMsgLength m rxs := by
  refine Memory.word_congr fun k bound => ?_
  have byte := Memory.read_inj same (k := 8 + k) (by simp only [rxDescSize]; omega)
  rwa [Nat.zero_add] at byte

/-- Puts take the free slots in order, one at most in each turn. -/
theorem room_left (apart : RingApart base ring)
    (lengths : ∀ j < rxRingSize, rxStatus m (rxDesc ring j) = 0x340 →
      14 ≤ rxMsgLength m (rxDesc ring j) ∧ rxMsgLength m (rxDesc ring j) ≤ 1610)
    (empty : ∀ k < maxEntry, (inSlot m base k).1 = inSmm) : ∀ n ≤ rxRingSize,
      (processFrom aead base stack ring n 0 m).isSome = true ∧
        ∀ k, n ≤ k → k < maxEntry → (inSlot (turn aead base stack ring m n) base k).1 = inSmm := by
  intro n most
  induction n with
  | zero => exact ⟨rfl, fun k _ bound => empty k bound⟩
  | succ n ih =>
    obtain ⟨ran, free⟩ := ih (by omega)
    have kept := descriptor_before apart (Nat.le_refl n) most ran
    have next : (processFrom aead base stack ring (n + 1) 0 m).isSome = true := by
      rw [processFrom_next_isSome ran]
      refine processRxPacket_isSome aead base stack n fun passes => ?_
      rw [rxMsgLength_congr kept]
      exact lengths n most ((rxStatus_congr kept).symm.trans (intercepted_status passes))
    refine ⟨next, fun k late bound => ?_⟩
    have before := free k (by omega) bound
    cases turn_visit apart most next with
    | passed _ same => rwa [same]
    | lost _ _ same => rwa [same k bound]
    | stored first _ _ _ _ least same =>
      have early : first ≤ n := by
        by_contra past
        exact least n (by omega) (free n (Nat.le_refl n) (by simp only [rxRingSize, maxEntry] at *; omega))
      rwa [same k bound (by omega)]

/-- With an empty IN ring and frames of sane lengths nothing is lost. -/
theorem admissible_of_empty (apart : RingApart base ring)
    (within : isWithinSmram stack.smmTmpBuf 4032 = true)
    (lengths : ∀ j < rxRingSize, rxStatus m (rxDesc ring j) = 0x340 →
      14 ≤ rxMsgLength m (rxDesc ring j) ∧ rxMsgLength m (rxDesc ring j) ≤ 1610)
    (empty : ∀ k < maxEntry, (inSlot m base k).1 = inSmm) : Admissible aead base stack ring m := by
  intro j bound passes
  obtain ⟨ran, free⟩ : (processFrom aead base stack ring j 0 m).isSome = true ∧ _ :=
    room_left apart lengths empty j bound.le
  have kept := descriptor_before apart (Nat.le_refl j) bound ran
  have length := lengths j bound ((rxStatus_congr kept).symm.trans (intercepted_status passes))
  rw [← rxMsgLength_congr kept] at length
  have room : j < maxEntry := bound.trans (by decide)
  exact ⟨length.1, length.2, within, j, room, free j (Nat.le_refl j) room⟩

end Empty

/-! Successive rounds, with the NIC and the OS at work between them. -/

/-- The IN slots that took the packet of a descriptor in its turn. -/
def slotsTaken (aead : Aead 16) (base : Nat) (stack : Stack) (ring : Nat) (m : Memory) (j : Nat) : List Nat :=
  (List.range maxEntry).filter fun k => decide (Stored aead base stack j (rxDesc ring j)
    (turn aead base stack ring m j) (turn aead base stack ring m (j + 1)) k)

/-- A descriptor was written from outside, which is how a packet arrives; or a round
was made, in which the packets of the descriptors went into these slots. -/
inductive Label where
  | arrived (i : Nat)
  | round (slots : Nat → List Nat)

def arrivals (j : Nat) (labels : List Label) : Nat :=
  labels.countP fun | .arrived i => i == j | .round _ => false

/-- How many IN slots took the packet of a descriptor. -/
def deliveries (j : Nat) (labels : List Label) : Nat :=
  (labels.flatMap fun | .arrived _ => [] | .round slots => slots j).length

inductive Step (aead : Aead 16) (base ring : Nat) : Memory → List Label → Memory → Prop where
  | round (stack : Stack) (initBlock : Nat) : rxRing m initBlock = ring →
      processRxPackets aead base stack m initBlock = some stores →
      Step aead base ring m [.round (slotsTaken aead base stack ring m)] (m.apply stores)
  | other (changed : List Nat) :
      (∀ i < rxRingSize, i ∉ changed →
        descriptor after (rxDesc ring i) = descriptor m (rxDesc ring i)) →
      Step aead base ring m (changed.map .arrived) after

/-- Whether a descriptor offers a packet. -/
def fresh (m : Memory) (rxs : Nat) : Nat := if rxStatus m rxs = 0x340 then 1 else 0

section Rounds
variable {aead : Aead 16} {base ring : Nat} {m after : Memory} {j : Nat}

theorem fresh_le (m : Memory) (rxs : Nat) : fresh m rxs ≤ 1 := by
  unfold fresh
  split <;> decide

theorem fresh_congr {rxs : Nat} (same : descriptor after rxs = descriptor m rxs) :
    fresh after rxs = fresh m rxs := by
  rw [fresh, rxStatus_congr same, fresh]

/-- A packet goes into no slot, or it is used up and goes into one at most. -/
theorem slotsTaken_le {stack : Stack} (apart : RingApart base ring) (bound : j < rxRingSize)
    (ran : (processFrom aead base stack ring rxRingSize 0 m).isSome = true) :
    (slotsTaken aead base stack ring m j).length +
      fresh (turn aead base stack ring m rxRingSize) (rxDesc ring j) ≤ fresh m (rxDesc ring j) := by
  have here := processFrom_earlier (n := j + 1) bound ran
  have visit := turn_visit apart bound here
  have before := descriptor_before apart (Nat.le_refl j) bound (turn_next here).1
  have after := descriptor_after apart bound (Nat.le_refl _) ran
  have empty (same : ∀ k < maxEntry, inSlot (turn aead base stack ring m (j + 1)) base k =
      inSlot (turn aead base stack ring m j) base k) : slotsTaken aead base stack ring m j = [] := by
    refine List.filter_eq_nil_iff.mpr fun k member stored => ?_
    exact (of_decide_eq_true stored).changed (same k (List.mem_range.mp member))
  have used (taken : Taken ring j (turn aead base stack ring m j) (turn aead base stack ring m (j + 1))) :
      fresh (turn aead base stack ring m rxRingSize) (rxDesc ring j) = 0 ∧ fresh m (rxDesc ring j) = 1 := by
    constructor
    · rw [fresh, rxStatus_cleared (after.trans taken.cleared), if_neg (by decide)]
    · rw [← fresh_congr before, fresh, if_pos (intercepted_status taken.passes)]
  cases visit with
  | passed _ same =>
    rw [empty fun k _ => congrArg (inSlot · base k) same, fresh_congr after,
      fresh_congr (congrArg (descriptor · (rxDesc ring j)) same), fresh_congr before]
    exact (Nat.zero_add _).le
  | lost taken _ same =>
    rw [empty same, (used taken).1]
    exact Nat.zero_le _
  | stored k taken _ _ _ _ same =>
    rw [(used taken).1, (used taken).2, slotsTaken, ← List.countP_eq_length_filter]
    have one : (List.range maxEntry).countP (· == k) ≤ 1 := List.nodup_iff_count_le_one.mp List.nodup_range k
    refine le_trans (List.countP_mono_left fun l member stored => ?_) one
    by_contra other
    exact (of_decide_eq_true stored).changed
      (same l (List.mem_range.mp member) (by simpa using other))

/-- A delivery uses up the packet it delivers. -/
theorem Step.balance (apart : RingApart base ring) (bound : j < rxRingSize)
    (step : Step aead base ring m labels after) :
    deliveries j labels + fresh after (rxDesc ring j) ≤
      arrivals j labels + fresh m (rxDesc ring j) := by
  cases step with
  | round stack initBlock here ran =>
    subst here
    rw [processRxPackets] at ran
    have most := slotsTaken_le apart bound (Option.isSome_iff_exists.mpr ⟨_, ran⟩)
    rw [turn, ran, Option.getD_some] at most
    have taken : deliveries j [.round (slotsTaken aead base stack (rxRing m initBlock) m)] =
        (slotsTaken aead base stack (rxRing m initBlock) m j).length := by
      rw [deliveries, List.flatMap_singleton]
    rw [taken]
    exact most.trans (Nat.le_add_left _ _)
  | other changed same =>
    have silent : deliveries j (changed.map .arrived) = 0 := by
      rw [deliveries, List.length_eq_zero_iff, List.flatMap_eq_nil_iff]
      intro label member
      obtain ⟨i, _, rfl⟩ := List.mem_map.mp member
      rfl
    rw [silent, Nat.zero_add]
    by_cases touched : j ∈ changed
    · have arrived : 0 < arrivals j (changed.map .arrived) := by
        rw [arrivals, List.countP_pos_iff]
        exact ⟨.arrived j, List.mem_map_of_mem touched, beq_self_eq_true j⟩
      have one := fresh_le after (rxDesc ring j)
      omega
    · rw [fresh_congr (same j bound touched)]
      exact Nat.le_add_left _ _

theorem run_balance (apart : RingApart base ring) (bound : j < rxRingSize)
    (run : Run (Step aead base ring) m labels after) :
    deliveries j labels + fresh after (rxDesc ring j) ≤
      arrivals j labels + fresh m (rxDesc ring j) := by
  refine run.invariant (P := fun labels after => deliveries j labels + fresh after (rxDesc ring j) ≤
    arrivals j labels + fresh m (rxDesc ring j)) (Nat.le_refl _) ?_
  intro before s emitted t balance step
  have next := step.balance apart bound
  simp only [deliveries, arrivals, List.countP_append, List.flatMap_append, List.length_append] at *
  omega

end Rounds

/-- The bytes that a packet which passes the tests has copied to `smm_tmp_buf`
stay inside it exactly for these lengths; for others the round does not go on. -/
theorem receive_copy_bounded_iff (aead : Aead 16) (base : Nat) (stack : Stack) (i : Nat) {m : Memory}
    {rxs : Nat} (passes : intercepted m rxs = true) :
    (4 + ulen m rxs ≤ smmTmpBufSize ↔ 14 ≤ rxMsgLength m rxs ∧ rxMsgLength m rxs ≤ 1610) ∧
    ((processRxPacket aead base stack i m rxs).isSome = true ↔
      14 ≤ rxMsgLength m rxs ∧ rxMsgLength m rxs ≤ 1610) := by
  refine ⟨copy_fits_iff, ?_⟩
  rw [← copy_fits_iff]
  obtain ⟨passed, _⟩ | ⟨_, long, visit⟩ | ⟨_, fits, visit⟩ :=
    processRxPacket_cases aead base stack i m rxs
  · rw [passes] at passed
    contradiction
  · rw [visit]
    exact iff_of_false (by decide) (by omega)
  · rw [visit]
    exact iff_of_true rfl fits

/-- One marked frame of this length in a ring at 0x2000, and a region at 16 MiB
whose IN slots all have this owner. -/
def oneFrame (length owner : UInt8) : Memory := fun a =>
  if a = 0x1015 then 0x20 else if a = 0x2001 then 0x30 else if a = 0x2006 then 0x40
  else if a = 0x2007 then 0x03 else if a = 0x2008 then length else if a = 0x300e then 0x46
  else if 0x1000000 ≤ a ∧ a < 0x1000040 then owner else 0

def smmStack : Stack := ⟨smramStart, fun _ _ => 0, fun _ _ => 0⟩

theorem far_ring_apart : RingApart 0x1000000 0x2000 := by
  intro o small a part
  have inside := part.small
  simp only [rxRingSize, rxDescSize, shmSize] at *
  omega

theorem short_packet_overruns :
    intercepted (oneFrame 13 inSmm) 0x2000 = true ∧ ulen (oneFrame 13 inSmm) 0x2000 = 2 ^ 32 - 1 ∧
      ¬ 4 + ulen (oneFrame 13 inSmm) 0x2000 ≤ smmTmpBufSize ∧
      processRxPacket (transparent 16) 0x1000000 smmStack 0 (oneFrame 13 inSmm) 0x2000 = none := by
  refine ⟨by decide, by decide, by decide, ?_⟩
  rw [processRxPacket, if_pos (by decide), dispatchRxPackets, if_neg (by decide),
    if_pos (by decide)]

theorem receive_copy_bounded_iff_sixty_bytes :
    intercepted (oneFrame 60 inSmm) 0x2000 = true ∧
      4 + ulen (oneFrame 60 inSmm) 0x2000 ≤ smmTmpBufSize ∧
      (processRxPacket (transparent 16) 0x1000000 smmStack 0 (oneFrame 60 inSmm) 0x2000).isSome =
        true := by
  have passes : intercepted (oneFrame 60 inSmm) 0x2000 = true := by decide
  have bounded := receive_copy_bounded_iff (transparent 16) 0x1000000 smmStack 0 passes
  have length : 14 ≤ rxMsgLength (oneFrame 60 inSmm) 0x2000 ∧
      rxMsgLength (oneFrame 60 inSmm) 0x2000 ≤ 1610 := by
    decide
  exact ⟨passes, bounded.1.mpr length, bounded.2.mpr length⟩

end Aurora.Smm.Network
