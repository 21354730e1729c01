import Aurora.Smm.Interception

/-! When interception is exact. The receive ring and the IN slots have to be apart:
wherever they share a byte there is a round with a single marked packet, which can
be delivered, that changes another descriptor all the same. -/
namespace Aurora.Smm.Network
open Lib

/-- The offset of an address from a wrapping pointer. -/
def offset (pointer x : Nat) : Nat := (x % 2 ^ 32 + 2 ^ 32 - pointer % 2 ^ 32) % 2 ^ 32

theorem offset_add {pointer k : Nat} (small : k < 2 ^ 32) : offset pointer ((pointer + k) % 2 ^ 32) = k := by
  unfold offset
  omega

/-- Two pointers into the same bytes. -/
theorem offset_shift {pointer other i j k : Nat} (small : j ≤ 2 ^ 32)
    (same : (pointer + i) % 2 ^ 32 = (other + j) % 2 ^ 32) :
    offset pointer ((other + k) % 2 ^ 32) = (i + k + 2 ^ 32 - j) % 2 ^ 32 := by
  unfold offset
  omega

/-- A marked frame of 14 bytes, two megabytes above the region. -/
def frameDesc (base c : Nat) : UInt8 :=
  if c < 4 then (littleEndian 4 ((base + 0x200000) % 2 ^ 32)).getD c 0
  else if c = 6 then 0x40 else if c = 7 then 0x03 else if c = 8 then 14 else 0

/-- The `j`-th descriptor offers the frame, the IN slot `f` is the only free one, and
the byte at `a` of the region, if it is not an owner, is 5. -/
def collision (base ring a f j : Nat) : Memory := fun x =>
  if offset ring x / rxDescSize = j then frameDesc base (offset ring x % rxDescSize)
  else if offset base x < maxEntry then (if offset base x = f then inSmm else inSgx)
  else if offset base x = a then 5
  else if offset base x = 0x20000e then 70
  else if 0x201014 ≤ offset base x ∧ offset base x < 0x201018 then
    (littleEndian 4 ring).getD (offset base x - 0x201014) 0
  else 0

theorem transparent_zeros : (transparent 16).encrypt key nonce ad (List.replicate msgSize 0) =
    List.replicate pktSize 0 :=
  List.replicate_append_replicate

/-- The stores of a put of zeros into an IN slot. -/
def stored (base f : Nat) : List Store :=
  rebase 32 base (slotCopy .inbound f ((transparent 16).encrypt key nonce ad (List.replicate msgSize 0)) ++
    [flip .inbound f Direction.inbound.receiver])

theorem put_zero (shm : Memory) {f a : Nat} (room : f < maxEntry) (first : Direction.inbound.slot f ≤ a)
    (last : a < Direction.inbound.slot f + pktSize) :
    shm.apply (slotCopy .inbound f ((transparent 16).encrypt key nonce ad (List.replicate msgSize 0)) ++
      [flip .inbound f Direction.inbound.receiver]) a = 0 := by
  obtain ⟨k, rfl⟩ := Nat.exists_eq_add_of_le first
  have slot : (shm.apply (slotCopy .inbound f ((transparent 16).encrypt key nonce ad
      (List.replicate msgSize 0)) ++ [flip .inbound f Direction.inbound.receiver])).read
      (Direction.inbound.slot f) pktSize = _ :=
    stored_slot (transparent 16) room List.length_replicate
  have zeros : List.replicate pktSize 0 = Memory.read (fun _ => 0) 0 pktSize :=
    (Memory.read_const fun _ _ => rfl).symm
  exact Memory.read_inj (slot.trans (transparent_zeros.trans zeros)) (by omega)

theorem rxStatus_low {m : Memory} {rxs : Nat} (status : rxStatus m rxs = 0x340) :
    m.window 32 rxs 6 = 0x40 := by
  have small := (m.window 32 rxs 6).toNat_lt
  simp only [rxStatus, Memory.word] at status
  exact UInt8.toNat_inj.mp (show _ = 0x40 by omega)

/-- A ring without this byte outside the `j`-th descriptor has no packet there. -/
theorem intercepted_silent {m : Memory} {ring j t : Nat}
    (byte : ∀ p < rxRingSize * rxDescSize, p / rxDescSize ≠ j → m ((ring + p) % 2 ^ 32) ≠ 0x40)
    (bound : t < rxRingSize) (other : t ≠ j) : intercepted m (rxDesc ring t) = false := by
  by_contra taken
  have low := rxStatus_low (intercepted_status (Bool.eq_true_of_not_eq_false taken))
  rw [Memory.window, rxDesc_byte] at low
  refine byte _ (rxDesc_small bound (by decide)) ?_ low
  simp only [rxDescSize]
  omega

/-- The byte `o` of the receive ring is the byte `a` of the region, which belongs to
the IN slot `f`, and the `j`-th descriptor is far away. -/
structure Overlap (base ring o a f j : Nat) : Prop where
  inside : o < rxRingSize * rxDescSize
  same : (ring + o) % 2 ^ 32 = (base + a) % 2 ^ 32
  room : f < maxEntry
  part : a = Direction.inbound.owner f ∨
    Direction.inbound.slot f ≤ a ∧ a < Direction.inbound.slot f + pktSize
  high : o / rxDescSize < 16 → j = 31
  low : 16 ≤ o / rxDescSize → j = 0

theorem Overlap.of_not_apart {base ring : Nat} (touching : ¬ RingApart base ring) :
    ∃ o a f j, Overlap base ring o a f j := by
  simp only [RingApart, not_forall, not_not] at touching
  obtain ⟨o, inside, a, part, same⟩ := touching
  have far : (o / rxDescSize < 16 → (if o / rxDescSize < 16 then 31 else 0) = 31) ∧
      (16 ≤ o / rxDescSize → (if o / rxDescSize < 16 then 31 else 0) = 0) :=
    ⟨fun high => if_pos high, fun low => if_neg (Nat.not_lt.mpr low)⟩
  rcases part with owner | ⟨first, last⟩
  · exact ⟨o, a, a, _, inside, same, owner, Or.inl rfl, far.1, far.2⟩
  · refine ⟨o, a, (a - Direction.inbound.slot 0) / pktSize, _, inside, same, ?_, Or.inr ?_, far.1, far.2⟩ <;>
      simp only [Direction.slot, maxEntry, pktSize] at * <;> omega

namespace Overlap
variable {base ring o a f j : Nat} (hit : Overlap base ring o a f j)
include hit

theorem turn_small : j < rxRingSize := by
  have high := hit.high
  have low := hit.low
  simp only [rxRingSize]
  omega

theorem shared_other : o / rxDescSize ≠ j := by
  have high := hit.high
  have low := hit.low
  omega

theorem region_small : a < 0x100000 := by
  have room := hit.room
  have part := hit.part
  simp only [Direction.owner, Direction.slot, maxEntry, pktSize] at *
  omega

/-- The bytes of the receive ring are not far from the region. -/
theorem offset_ring {p : Nat} (small : p < rxRingSize * rxDescSize) :
    offset base ((ring + p) % 2 ^ 32) < 0x200000 ∨ 0x300000 ≤ offset base ((ring + p) % 2 ^ 32) := by
  have inside := hit.inside
  have region := hit.region_small
  rw [offset_shift (by simp only [rxRingSize, rxDescSize] at *; omega) hit.same.symm]
  simp only [rxRingSize, rxDescSize] at *
  omega

/-- The `j`-th descriptor is neither in the bitmap nor above the region. -/
theorem offset_away {k : Nat} (far : k < maxEntry ∨ 0x200000 ≤ k ∧ k < 0x300000) :
    offset ring ((base + k) % 2 ^ 32) / rxDescSize ≠ j := by
  have inside := hit.inside
  have high := hit.high
  have low := hit.low
  have part := hit.part
  have room := hit.room
  rw [offset_shift (by have small := hit.region_small; omega) hit.same]
  simp only [Direction.owner, Direction.slot, rxRingSize, rxDescSize, maxEntry, pktSize] at *
  omega

theorem ring_byte {p : Nat} (small : p < rxRingSize * rxDescSize) (other : p / rxDescSize ≠ j) :
    collision base ring a f j ((ring + p) % 2 ^ 32) ≠ 0x40 := by
  have near := hit.offset_ring small
  rw [collision, offset_add (by simp only [rxRingSize, rxDescSize] at small; omega), if_neg other,
    if_neg (c := 0x201014 ≤ _ ∧ _) (by omega)]
  split_ifs <;> decide

theorem owner_byte {l : Nat} (bound : l < maxEntry) :
    region (collision base ring a f j) base (Direction.inbound.owner l) = if l = f then inSmm else inSgx := by
  have small : l < 2 ^ 32 := bound.trans (by decide)
  rw [region, Memory.window, Direction.owner, collision, if_neg (hit.offset_away (Or.inl bound)),
    offset_add small, if_pos bound]

/-- The memory above the region. -/
theorem above {k : Nat} (low : 0x200000 ≤ k) (high : k < 0x300000) :
    collision base ring a f j ((base + k) % 2 ^ 32) =
      if k = 0x20000e then 70
      else if 0x201014 ≤ k ∧ k < 0x201018 then (littleEndian 4 ring).getD (k - 0x201014) 0 else 0 := by
  have region := hit.region_small
  rw [collision, if_neg (hit.offset_away (Or.inr ⟨low, high⟩)), offset_add (by omega),
    if_neg (by simp only [maxEntry]; omega), if_neg (by omega)]

theorem desc_byte {c : Nat} (small : c < rxDescSize) :
    (collision base ring a f j).window 32 (rxDesc ring j) c = frameDesc base c := by
  have turn := hit.turn_small
  simp only [rxRingSize, rxDescSize] at turn small
  rw [Memory.window, rxDesc_byte, collision, offset_add (by simp only [rxDescSize]; omega),
    if_pos (by simp only [rxDescSize]; omega)]
  congr 1
  simp only [rxDescSize]
  omega

theorem desc_fields : rxBase (collision base ring a f j) (rxDesc ring j) = (base + 0x200000) % 2 ^ 32 ∧
    rxStatus (collision base ring a f j) (rxDesc ring j) = 0x340 ∧
    rxMsgLength (collision base ring a f j) (rxDesc ring j) = 14 := by
  refine ⟨Memory.word_littleEndian (Nat.mod_lt _ (by decide)) fun k bound => ?_, ?_, ?_⟩
  · rw [Nat.zero_add, hit.desc_byte (by simp only [rxDescSize]; omega), frameDesc, if_pos bound]
  · simp only [rxStatus, Memory.word, hit.desc_byte (show 6 < rxDescSize by decide),
      hit.desc_byte (show 6 + 1 < rxDescSize by decide)]
    rfl
  · simp only [rxMsgLength, Memory.word, hit.desc_byte (show 8 < rxDescSize by decide),
      hit.desc_byte (show 8 + 1 < rxDescSize by decide), hit.desc_byte (show 8 + 1 + 1 < rxDescSize by decide),
      hit.desc_byte (show 8 + 1 + 1 + 1 < rxDescSize by decide)]
    rfl

theorem passes : intercepted (collision base ring a f j) (rxDesc ring j) = true := by
  obtain ⟨pointer, status, _⟩ := hit.desc_fields
  have bytes (k : Nat) (small : k < 0x1000) : frame (collision base ring a f j) (rxDesc ring j) k =
      if k = 14 then 70 else 0 := by
    rw [frame, pointer, Memory.window, Nat.mod_add_mod, Nat.add_assoc, hit.above (by omega) (by omega),
      if_neg (c := 0x201014 ≤ _ ∧ _) (by omega)]
    exact if_congr (by omega) rfl rfl
  have options : (frame (collision base ring a f j) (rxDesc ring j)).read 34 4 = [0, 0, 0, 0] :=
    Memory.read_const fun k bound => (bytes _ (by omega)).trans (if_neg (by omega))
  simp [intercepted, marked, status, options, etherHeader, bytes 14 (by decide)]

theorem initBlock (pointer : ring < 2 ^ 32) :
    rxRing (collision base ring a f j) (base + 0x201000) = ring := by
  refine Memory.word_littleEndian pointer fun k bound => ?_
  rw [Memory.window, Nat.add_assoc, hit.above (by omega) (by omega), if_neg (by omega), if_pos (by omega),
    show 0x201000 + (20 + k) - 0x201014 = k by omega]

theorem deliverable : Deliverable base smmStack (collision base ring a f j) (rxDesc ring j) := by
  have length := hit.desc_fields.2.2
  refine ⟨length.ge, length.le.trans (by decide), by decide, f, hit.room, ?_⟩
  rw [hit.owner_byte hit.room, if_pos rfl]

theorem plaintext_zero :
    plaintext smmStack j (collision base ring a f j) (rxDesc ring j) = List.replicate msgSize 0 := by
  have none : ulen (collision base ring a f j) (rxDesc ring j) = 0 := by
    rw [ulen, hit.desc_fields.2.2]
    rfl
  have bytes (k : Nat) : packet (collision base ring a f j) (rxDesc ring j) (smmStack.residual j) k = 0 := by
    rw [packet, none]
    by_cases head : k < 4
    · rw [if_pos head]
      revert k
      decide
    · rw [if_neg head, if_neg head]
      rfl
  have padding : (smmStack.random j).read 0 (msgSize - 4032) = List.replicate (msgSize - 4032) 0 :=
    Memory.read_const fun _ _ => rfl
  rw [plaintext, padded, Memory.read_const fun k _ => bytes _, padding, List.replicate_append_replicate]
  rfl

/-- The only packet is put into the only free slot. -/
theorem visit : processRxPacket (transparent 16) base smmStack j (collision base ring a f j) (rxDesc ring j) =
    some (stored base f ++ rebase 32 (rxDesc ring j) (fill 0 rxDescSize 0)) := by
  obtain ⟨skipped, _⟩ | ⟨_, long, _⟩ | ⟨_, _, same⟩ := processRxPacket_cases (transparent 16) base smmStack j
    (collision base ring a f j) (rxDesc ring j)
  · exact absurd (skipped.symm.trans hit.passes) (by decide)
  · have fits := copy_fits_iff.mpr ⟨hit.deliverable.long, hit.deliverable.short⟩
    omega
  obtain ⟨cannot, _⟩ | ⟨_, k, bound, free, _, put⟩ := putPacket_cases (transparent 16) base smmStack j
    (collision base ring a f j) (rxDesc ring j)
  · exact absurd hit.deliverable cannot
  obtain rfl : k = f := by
    by_contra other
    rw [hit.owner_byte bound, if_neg other] at free
    cases free
  rw [same, put, hit.plaintext_zero]
  rfl

/-- The byte that the ring and the region share does not survive the put. -/
theorem overwritten : ((collision base ring a f j).apply (stored base f ++
      rebase 32 (rxDesc ring j) (fill 0 rxDescSize 0))) ((ring + o) % 2 ^ 32) ≠
    collision base ring a f j ((ring + o) % 2 ^ 32) := by
  have other := hit.shared_other
  have whole : (List.replicate msgSize (0 : UInt8)).length = msgSize := List.length_replicate
  have small : a < shmSize := hit.region_small
  have targets := InPart.of_put (transparent 16) hit.room whole
  rw [clear_other _ hit.turn_small hit.inside other, hit.same]
  change region ((collision base ring a f j).apply (stored base f)) base a ≠ _
  rw [region, stored, Memory.window_apply _ (by decide) (fun s member => (targets s member).small) small]
  rcases hit.part with owner | ⟨first, last⟩
  · have free : collision base ring a f j ((base + a) % 2 ^ 32) = inSmm := by
      have value := (hit.owner_byte hit.room).trans (if_pos rfl)
      rwa [← owner] at value
    rw [free, owner, stored_owner]
    decide
  · have five : collision base ring a f j ((base + a) % 2 ^ 32) = 5 := by
      have slots : maxEntry ≤ a := by
        simp only [Direction.slot, maxEntry, pktSize] at *
        omega
      rw [← hit.same, collision, offset_add (hit.inside.trans (by decide)), if_neg other, hit.same,
        offset_add (small.trans (by decide)), if_neg (Nat.not_lt.mpr slots), if_pos rfl]
    rw [five, put_zero _ hit.room first last]
    decide

/-- After the put no other descriptor has a status to be seen. -/
theorem ring_byte_after {p : Nat} (small : p < rxRingSize * rxDescSize) (other : p / rxDescSize ≠ j) :
    ((collision base ring a f j).apply (stored base f ++ rebase 32 (rxDesc ring j) (fill 0 rxDescSize 0)))
      ((ring + p) % 2 ^ 32) ≠ 0x40 := by
  obtain same | ⟨s, member, same⟩ := Memory.apply_cases (collision base ring a f j)
    (stored base f ++ rebase 32 (rxDesc ring j) (fill 0 rxDescSize 0)) ((ring + p) % 2 ^ 32)
  · rw [same]
    exact hit.ring_byte small other
  · rw [same]
    rcases List.mem_append.mp member with put | cleared
    · obtain ⟨t, inside, rfl⟩ := mem_rebase put
      rcases List.mem_append.mp inside with copied | flipped
      · have zero := mem_blit_byte copied
        rw [transparent_zeros] at zero
        rw [List.eq_of_mem_replicate zero]
        decide
      · rw [List.mem_singleton.mp flipped]
        exact (by decide : inSgx ≠ 0x40)
    · obtain ⟨t, inside, rfl⟩ := mem_rebase cleared
      rw [List.eq_of_mem_replicate (mem_blit_byte inside)]
      decide

/-- The round has one visit. -/
theorem round {n : Nat} (most : n ≤ rxRingSize) :
    processFrom (transparent 16) base smmStack ring n 0 (collision base ring a f j) =
      some (if n ≤ j then [] else stored base f ++ rebase 32 (rxDesc ring j) (fill 0 rxDescSize 0)) := by
  refine lone_round hit.visit (fun t early => ?_) (fun t late bound => ?_) n most
  · exact intercepted_silent (fun p => hit.ring_byte) (early.trans hit.turn_small) early.ne
  · exact intercepted_silent (fun p => hit.ring_byte_after) bound late.ne'

theorem turn_here : turn (transparent 16) base smmStack ring (collision base ring a f j) j =
    collision base ring a f j := by
  rw [turn, hit.round hit.turn_small.le, Option.getD_some, if_pos (Nat.le_refl j), Memory.apply_nil]

theorem skipped {t : Nat} (bound : t < rxRingSize) (other : t ≠ j) :
    intercepted (turn (transparent 16) base smmStack ring (collision base ring a f j) t) (rxDesc ring t) =
      false := by
  rw [turn, hit.round bound.le, Option.getD_some]
  split_ifs
  · rw [Memory.apply_nil]
    exact intercepted_silent (fun p => hit.ring_byte) bound other
  · exact intercepted_silent (fun p => hit.ring_byte_after) bound other

theorem admissible : Admissible (transparent 16) base smmStack ring (collision base ring a f j) := by
  intro t bound taken
  by_cases other : t = j
  · rw [other, hit.turn_here]
    exact hit.deliverable
  · exact absurd ((hit.skipped bound other).symm.trans taken) (by decide)

/-- The descriptor with the shared byte changes, and no packet was there. -/
theorem inexact : ¬ ∃ stores,
    processFrom (transparent 16) base smmStack ring rxRingSize 0 (collision base ring a f j) = some stores ∧
      ∀ i < rxRingSize, Exact (transparent 16) base smmStack ring (collision base ring a f j)
        ((collision base ring a f j).apply stores) i := by
  rintro ⟨stores, ran, exactly⟩
  have last := (hit.round (Nat.le_refl _)).symm.trans ran
  rw [if_neg (Nat.not_le.mpr hit.turn_small)] at last
  obtain rfl := Option.some.inj last
  have bound : o / rxDescSize < rxRingSize := Nat.div_lt_of_lt_mul (by rw [Nat.mul_comm]; exact hit.inside)
  obtain kept | ⟨_, _, taken⟩ := (exactly _ bound).changes
  · have byte := Memory.read_inj kept (k := o % rxDescSize) (Nat.mod_lt _ (by decide))
    rw [Nat.zero_add, Memory.window, Memory.window, rxDesc_byte, Nat.div_add_mod'] at byte
    exact hit.overwritten byte
  · exact absurd ((hit.skipped bound hit.shared_other).symm.trans taken) (by decide)

end Overlap

/-- Three frames of 60 bytes in a ring at 0x2000, of which the second is not marked,
and an empty region at 16 MiB. -/
def threeFrames : Memory := fun a =>
  if a = 0x1015 then 0x20
  else if a = 0x2001 then 0x30 else if a = 0x2011 then 0x40 else if a = 0x2021 then 0x50
  else if a ∈ [0x2006, 0x2016, 0x2026] then 0x40 else if a ∈ [0x2007, 0x2017, 0x2027] then 0x03
  else if a ∈ [0x2008, 0x2018, 0x2028] then 60
  else if a = 0x300e ∨ a = 0x500e then 0x46 else if a = 0x400e then 0x45 else 0

end Aurora.Smm.Network
