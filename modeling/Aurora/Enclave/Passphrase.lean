import Aurora.DrainLoops

/-! How the client copies the passphrase out of what `ecall_secure_input` left in
its array of 1024 bytes: `memcpy(buf, pass, strlen(pass) - 1)`. The array has a
terminator, and the length is in its bounds, only for texts of 1 to 1023 bytes;
an empty ring and a packet that fails authentication give the empty text. -/
namespace Aurora.SecureInput
open Lib Drain DrainLoops

/-- `strlen(pass) - 1`, a `size_t`. -/
def copyLength (pass : List UInt8) : Nat := (strlen pass + 2 ^ 64 - 1) % 2 ^ 64

/-- The array ends the string, and the copy stays in the array. -/
def InBounds (pass : List UInt8) : Prop := 0 ∈ pass ∧ copyLength pass ≤ 1023

/-- The 1024 bytes of the client for a message the loop has left. -/
def passOf (message : List UInt8) : List UInt8 :=
  (cString message).take 1024 ++ List.replicate (1024 - ((cString message).take 1024).length) 0

theorem passOf_inBounds_iff (message : List UInt8) :
    InBounds (passOf message) ↔ 1 ≤ strlen message ∧ strlen message ≤ 1023 := by
  have nonzero : ∀ byte ∈ (cString message).take 1024, byte ≠ 0 :=
    fun byte member => cString_nonzero byte (List.mem_of_mem_take member)
  have count : ((cString message).take 1024).length = min 1024 (strlen message) := List.length_take
  have terminated : 0 ∈ passOf message ↔ strlen message < 1024 := by
    simp only [passOf, List.mem_append, List.mem_replicate, count]
    constructor
    · rintro (inside | ⟨room, _⟩)
      · exact absurd rfl (nonzero 0 inside)
      · omega
    · intro short
      exact Or.inr ⟨by omega, trivial⟩
  rw [InBounds, terminated]
  by_cases short : strlen message < 1024
  · have size : 1024 - ((cString message).take 1024).length = 1024 - strlen message - 1 + 1 := by omega
    have length : strlen (passOf message) = strlen message := by
      rw [passOf, size, List.replicate_succ, strlen, cString_append_zero, cString_eq_self nonzero, count]
      omega
    rw [copyLength, length]
    omega
  · omega

theorem opened_length {aead : Aead 16} {d : Direction} {shm : Memory} {i : Nat}
    (authentic : opened aead.decrypt d shm i = some message) : message.length = msgSize := by
  have length := aead.decrypt_length authentic
  rw [Memory.read_length] at length
  exact Nat.add_right_cancel length

/-- With fuel for every slot the call returns, whatever the region holds. -/
theorem secureInput_eq (aead : Aead 16) (shm beyond : Memory) {fuel : Nat} (enough : 64 < fuel) :
    secureInput aead.decrypt fuel shm beyond =
      some (passOf (remains aead.decrypt .inbound shm (List.replicate msgSize 0))) := by
  let enclave : Enclave := .sample
  have within : enclave.sgxIsWithinEnclave 0x10000 msgSize = true := by decide
  obtain ⟨_, last, kept, ends⟩ := whileGet_ends (openssh_receives aead.decrypt within)
    (fun _ s => some s) cleared () fun i _ message _ _ => rfl
  have left := ends.enough fuel ((deliverable_length aead.decrypt .inbound shm).trans_lt enough)
  rw [← drain_eq, within, Option.map_eq_some_iff] at left
  obtain ⟨⟨reply, stores⟩, drained, same⟩ := left
  obtain rfl : reply = last := congrArg (fun r => r.2.1) same
  have whole : reply.message.length = msgSize := by
    rw [kept]
    obtain ⟨i, message, _, authentic, same⟩ | ⟨_, same | same⟩ :=
      remains_cases aead.decrypt .inbound shm cleared.message
    · rw [same]
      exact opened_length authentic
    · rw [same]
      exact List.length_replicate
    · rw [same]
      exact List.length_replicate
  rw [secureInput, drained, Option.map_some]
  exact congrArg some ((pass_eq whole beyond).trans (congrArg passOf kept))

/-- For every content of the region when the enclave drains it, the client's copy
is in bounds just when every IN slot that was handed over is authentic, and the
text of the last one has 1 to 1023 bytes. -/
theorem passphrase_copy_in_bounds_iff (aead : Aead 16) (shm beyond : Memory) {fuel : Nat}
    (enough : 64 < fuel) :
    (∃ pass, secureInput aead.decrypt fuel shm beyond = some pass ∧ InBounds pass) ↔
      ∃ i message, FinalSlot aead.decrypt .inbound shm i ∧
        opened aead.decrypt .inbound shm i = some message ∧
        1 ≤ strlen message ∧ strlen message ≤ 1023 := by
  have zeros : strlen (List.replicate msgSize 0) = 0 := rfl
  simp only [secureInput_eq aead shm beyond enough, Option.some.injEq, exists_eq_left',
    passOf_inBounds_iff]
  obtain ⟨i, message, final, authentic, same⟩ | ⟨none_final, same⟩ :=
    remains_cases aead.decrypt .inbound shm (List.replicate msgSize 0)
  · rw [same]
    constructor
    · exact fun bounds => ⟨i, message, final, authentic, bounds⟩
    · rintro ⟨j, other, last, opens, bounds⟩
      obtain rfl := final.unique last
      obtain rfl : message = other := Option.some.inj (authentic.symm.trans opens)
      exact bounds
  · rw [or_self] at same
    rw [same, zeros]
    constructor
    · rintro ⟨positive, _⟩
      cases positive
    · rintro ⟨i, _, last, _⟩
      exact absurd last (none_final i)

/-- The first IN slot was handed over with the text `a`. -/
def oneLetter : Memory := fun a =>
  if a = 0 then inSgx else if a = Direction.inbound.slot 0 then 0x61 else 0

theorem oneLetter_opened : opened (transparent 16).decrypt .inbound oneLetter 0 =
    some (0x61 :: List.replicate 4079 0) := by
  have zeros : oneLetter.read (Direction.inbound.slot 0 + 1) 4095 = List.replicate 4095 0 := by
    refine Memory.read_const fun k _ => ?_
    exact (if_neg (by omega)).trans (if_neg (by omega))
  have letter : oneLetter.read (Direction.inbound.slot 0) 1 = [0x61] := rfl
  have packet : oneLetter.read (Direction.inbound.slot 0) pktSize =
      (transparent 16).encrypt key nonce ad (0x61 :: List.replicate 4079 0) := by
    rw [show pktSize = 1 + 4095 from rfl, Memory.read_append, letter, zeros]
    simp only [transparent, List.cons_append, List.nil_append, List.replicate_append_replicate]
  rw [opened, packet]
  exact (transparent 16).decrypt_encrypt

theorem passphrase_copy_in_bounds_iff_one_letter :
    ∃ pass, secureInput (transparent 16).decrypt 65 oneLetter (fun _ => 0) = some pass ∧ InBounds pass := by
  have others : ∀ j < maxEntry, 0 < j → oneLetter (Direction.inbound.owner j) = 0 := by
    intro j bound positive
    have below := Direction.owner_lt_slot .inbound .inbound bound 0
    exact (if_neg (Nat.ne_of_gt positive)).trans (if_neg (Nat.ne_of_lt below))
  refine (passphrase_copy_in_bounds_iff (transparent 16) oneLetter (fun _ => 0) (by decide)).mpr
    ⟨0, _, ⟨⟨by decide, rfl, fun j below _ => ?_⟩, fun j bound positive owned => ?_⟩, oneLetter_opened, ?_⟩
  · obtain rfl := Nat.le_zero.mp below
    rw [oneLetter_opened, Option.isSome_some]
  · rw [others j bound positive] at owned
    cases owned
  · decide

/-- Nothing pending: the text is empty, and `memcpy` is asked for all of memory. -/
theorem empty_ring_asks_for_all_of_memory :
    secureInput (transparent 16).decrypt 65 Smm.Transmit.freshRing (fun _ => 0) =
      some (List.replicate 1024 0) ∧
    copyLength (List.replicate 1024 0) = 2 ^ 64 - 1 ∧ ¬ InBounds (List.replicate 1024 0) := by
  have idle : ∀ i < maxEntry, Smm.Transmit.freshRing (Direction.inbound.owner i) ≠
      Direction.inbound.receiver := by
    intro i bound
    rw [Smm.Transmit.freshRing_owner .inbound bound]
    exact Direction.sender_ne_receiver _
  have length : copyLength (List.replicate 1024 0) = 2 ^ 64 - 1 := rfl
  refine ⟨?_, length, fun bounds => ?_⟩
  · rw [secureInput_eq _ _ _ (by decide)]
    obtain ⟨i, _, final, _⟩ | ⟨_, same⟩ := remains_cases (transparent 16).decrypt .inbound
      Smm.Transmit.freshRing (List.replicate msgSize 0)
    · exact absurd final.1.2.1 (idle i final.1.1)
    · rw [or_self] at same
      rw [same]
      rfl
  · have small := bounds.2
    rw [length] at small
    omega

end Aurora.SecureInput
