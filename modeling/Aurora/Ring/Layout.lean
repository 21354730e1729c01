import Aurora.Lib.Memory

/-! Layout of the 1 MiB shared region, as both code bases declare it: one
metadata page with two ownership bitmaps, then 64 OUT slots, then 64 IN slots.
All positions are offsets from the region's base; each party adds its own
mapping address. -/
namespace Aurora
open Lib

def shmSize : Nat := 2 ^ 20
def pktSize : Nat := 2 ^ 12
def msgSize : Nat := pktSize - 16
def maxEntry : Nat := 64

/-! Ownership values, one `char` per slot. -/
def inSmm : UInt8 := 0x00
def inSgx : UInt8 := 0x01
def outSmm : UInt8 := 0x02
def outSgx : UInt8 := 0x03

/-- The IN ring carries messages from SMM to SGX, the OUT ring from SGX to SMM. -/
inductive Direction where
  | inbound
  | outbound
deriving DecidableEq, Repr

namespace Direction

/-- The ownership value under which the sending party may fill a slot. -/
def sender : Direction → UInt8
  | inbound => inSmm
  | outbound => outSgx

/-- The ownership value under which the receiving party may empty a slot. -/
def receiver : Direction → UInt8
  | inbound => inSgx
  | outbound => outSmm

/-- `in_bitmap[i]` and `out_bitmap[i]`. -/
def owner : Direction → Nat → Nat
  | inbound, i => i
  | outbound, i => maxEntry + i

/-- `sizeof(struct metadata)` is skipped; the IN slots follow the OUT slots. -/
def slot : Direction → Nat → Nat
  | inbound, i => pktSize + (maxEntry + i) * pktSize
  | outbound, i => pktSize + i * pktSize

theorem sender_ne_receiver (d : Direction) : d.sender ≠ d.receiver := by
  cases d <;> decide

theorem owner_lt (d : Direction) {i : Nat} (bound : i < maxEntry) : d.owner i < 2 * maxEntry := by
  cases d <;> simp only [owner, maxEntry] at * <;> omega

theorem owner_lt_slot (d e : Direction) {i : Nat} (bound : i < maxEntry) (j : Nat) :
    d.owner i < e.slot j := by
  cases d <;> cases e <;> simp only [owner, slot, maxEntry, pktSize] at * <;> omega

theorem slot_end (d : Direction) {i : Nat} (bound : i < maxEntry) :
    d.slot i + pktSize ≤ shmSize := by
  cases d <;> simp only [slot, maxEntry, pktSize, shmSize] at * <;> omega

theorem owner_injective {d e : Direction} {i j : Nat} (left : i < maxEntry) (right : j < maxEntry)
    (same : d.owner i = e.owner j) : d = e ∧ i = j := by
  cases d <;> cases e <;> simp only [owner, maxEntry, reduceCtorEq, false_and, true_and] at * <;> omega

/-- Distinct slots of either ring share no byte. -/
theorem slot_disjoint {d e : Direction} {i j : Nat} (left : i < maxEntry) (right : j < maxEntry)
    (different : ¬ (d = e ∧ i = j)) :
    d.slot i + pktSize ≤ e.slot j ∨ e.slot j + pktSize ≤ d.slot i := by
  cases d <;> cases e <;>
    simp only [slot, maxEntry, pktSize, reduceCtorEq, false_and, true_and, not_false_eq_true] at * <;>
    omega

end Direction

/-! The two kinds of store the ring code makes in the region: the copy of a
whole packet into a slot, and the flip of one ownership byte. -/

def slotCopy (d : Direction) (i : Nat) (packet : List UInt8) : List Store := blit (d.slot i) packet

def flip (d : Direction) (i : Nat) (value : UInt8) : Store := ⟨d.owner i, value⟩

/-- Every slot but one keeps its ownership byte and its packet. -/
def Apart (d : Direction) (i : Nat) (before after : Memory) : Prop :=
  ∀ e j, j < maxEntry → ¬ (d = e ∧ i = j) →
    after (e.owner j) = before (e.owner j) ∧
      after.read (e.slot j) pktSize = before.read (e.slot j) pktSize

theorem Apart.trans {d : Direction} {i : Nat} {first second third : Memory}
    (left : Apart d i first second) (right : Apart d i second third) : Apart d i first third := by
  intro e j bound different
  have one := left e j bound different
  have two := right e j bound different
  exact ⟨two.1.trans one.1, two.2.trans one.2⟩

section Effects
variable {d e : Direction} {i j : Nat} (shm : Memory)

theorem slotCopy_owner (bound : j < maxEntry) (packet : List UInt8) :
    shm.apply (slotCopy d i packet) (e.owner j) = shm (e.owner j) := by
  apply shm.apply_frame
  intro s member
  have low := (mem_blit member).1
  have apart := e.owner_lt_slot d bound i
  omega

theorem slotCopy_same {packet : List UInt8} (whole : packet.length = pktSize) :
    (shm.apply (slotCopy d i packet)).read (d.slot i) pktSize = packet := by
  rw [← whole]
  exact shm.read_apply_blit (d.slot i) packet

theorem slotCopy_apart {packet : List UInt8} (whole : packet.length = pktSize) (left : i < maxEntry) :
    Apart d i shm (shm.apply (slotCopy d i packet)) := by
  intro e j right different
  refine ⟨slotCopy_owner shm right packet, ?_⟩
  apply shm.read_apply_frame
  intro s member k small
  have range := mem_blit member
  rw [whole] at range
  have apart := Direction.slot_disjoint left right different
  omega

theorem flip_same (value : UInt8) : shm.store (flip d i value) (d.owner i) = value :=
  shm.store_same (flip d i value)

theorem flip_slot (value : UInt8) (bound : i < maxEntry) :
    (shm.store (flip d i value)).read (e.slot j) pktSize = shm.read (e.slot j) pktSize := by
  apply Memory.read_congr
  intro k _
  apply shm.store_other
  have apart := d.owner_lt_slot e bound j
  simp only [flip]
  omega

theorem flip_apart (value : UInt8) (left : i < maxEntry) :
    Apart d i shm (shm.store (flip d i value)) := by
  intro e j right different
  refine ⟨?_, flip_slot shm value left⟩
  apply shm.store_other
  intro same
  obtain ⟨rfl, rfl⟩ := Direction.owner_injective right left same
  exact different ⟨rfl, rfl⟩

end Effects

/-- `init_ring_buffer` below its base pointer: clear the region, give every IN
slot to SMM and every OUT slot to SGX. -/
def initRingBuffer : List Store :=
  fill 0 shmSize 0 ++ fill 0 maxEntry inSmm ++ fill maxEntry maxEntry outSgx

theorem initRingBuffer_extent {s : Store} (member : s ∈ initRingBuffer) : s.addr < shmSize := by
  simp only [initRingBuffer, List.mem_append] at member
  rcases member with (cleared | inbound) | outbound
  · simpa using (mem_fill cleared).2
  · have := (mem_fill inbound).2
    simp only [maxEntry, shmSize] at *
    omega
  · have := (mem_fill outbound).2
    simp only [maxEntry, shmSize] at *
    omega

theorem initRingBuffer_owner (shm : Memory) (d : Direction) {i : Nat} (bound : i < maxEntry) :
    shm.apply initRingBuffer (d.owner i) = d.sender := by
  rw [initRingBuffer, Memory.apply_append]
  cases d with
  | inbound =>
    rw [Memory.apply_frame, Memory.apply_append]
    · have value := (shm.apply (fill 0 shmSize 0)).apply_fill_get 0 inSmm bound
      rwa [Nat.zero_add] at value
    · intro s member
      have low := (mem_fill member).1
      simp only [Direction.owner]
      omega
  | outbound => exact Memory.apply_fill_get _ _ outSgx bound

end Aurora
