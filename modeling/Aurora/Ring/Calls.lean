import Aurora.Lib.Aead
import Aurora.Boundary
import Aurora.Ring.Layout

/-! The four ring calls on the shared region. A call is its outcome and the
stores it issues there, in program order. SMM and the enclaves share one
protocol body per operation; they differ in direction and in argument checks.
The AEAD is a parameter: AES-256-GCM of libsodium, under the constant key and
nonce both code bases write out. -/
namespace Aurora
open Lib

/-! `memset(key, 0xca, KEYBYTES)`, `memset(nonce, 0xff, NPUBBYTES)` and `ad = ""`. -/
def key : List UInt8 := List.replicate 32 0xca
def nonce : List UInt8 := List.replicate 12 0xff
def ad : List UInt8 := []

abbrev Decryption := (key nonce ad cipher : List UInt8) → Option (List UInt8)

/-- A C pointer together with the bytes that are readable from it on. -/
structure Buffer where
  addr : Nat
  byte : Memory

inductive PutOutcome where
  | outside
  | negative
  | tooLarge
  | full (message : List UInt8)
  | stored (i : Nat) (message : List UInt8)
deriving DecidableEq, Repr

inductive GetOutcome where
  | outside
  | nothing
  | forged (i : Nat)
  | received (i : Nat) (message : List UInt8)
deriving DecidableEq, Repr

def PutOutcome.code : PutOutcome → Int
  | stored _ _ => 0
  | _ => -1

def GetOutcome.code : GetOutcome → Int
  | received _ _ => 0
  | _ => -1

/-- `for (i = 0; i < MAX_ENTRY; ++i) if (value == bitmap[i]) break;` -/
def search (d : Direction) (value : UInt8) (shm : Memory) : Option Nat :=
  (List.range maxEntry).find? (fun i => shm (d.owner i) == value)

/-- The message is copied and padded with random bytes to `MSG_SIZE`. -/
def padded (raw : Buffer) (msgLen : Nat) (random : Memory) : List UInt8 :=
  raw.byte.read 0 msgLen ++ random.read 0 (msgSize - msgLen)

/-- The argument checks of a put, in the order of the source; what survives
them is the plaintext to encrypt. -/
def accept (within : Bool) (raw : Buffer) (msgLen : Int) (random : Memory) :
    Except PutOutcome (List UInt8) :=
  if within = false then .error .outside
  else if msgLen < 0 then .error .negative
  else if (msgSize : Int) < msgLen then .error .tooLarge
  else .ok (padded raw msgLen.toNat random)

/-- Encrypt, find a slot of the sender, copy the packet, flip the ownership. -/
def putMessage (aead : Aead 16) (d : Direction) (message : List UInt8) (shm : Memory) :
    PutOutcome × List Store :=
  let ciphertext := aead.encrypt key nonce ad message
  match search d d.sender shm with
  | none => (.full message, [])
  | some i => (.stored i message, slotCopy d i ciphertext ++ [flip d i d.receiver])

def put (aead : Aead 16) (d : Direction) (within : Bool) (raw : Buffer) (msgLen : Int)
    (random shm : Memory) : PutOutcome × List Store :=
  match accept within raw msgLen random with
  | .error outcome => (outcome, [])
  | .ok message => putMessage aead d message shm

/-- Find a slot of the receiver, copy it, decrypt the copy, flip the ownership. -/
def getMessage (decrypt : Decryption) (d : Direction) (shm : Memory) : GetOutcome × List Store :=
  match search d d.receiver shm with
  | none => (.nothing, [])
  | some i =>
    let ciphertext := shm.read (d.slot i) pktSize
    match decrypt key nonce ad ciphertext with
    | none => (.forged i, [])
    | some message => (.received i message, [flip d i d.sender])

def get (decrypt : Decryption) (d : Direction) (within : Bool) (shm : Memory) :
    GetOutcome × List Store :=
  if within then getMessage decrypt d shm else (.outside, [])

/-- The caller's `message[0 .. MSG_SIZE)` and `*message_len`. -/
structure Reply where
  message : List UInt8
  messageLen : Int
deriving DecidableEq, Repr

/-- libsodium clears the plaintext buffer when the tag does not match, and
reports `clen - ABYTES` as the length when it does. -/
def Reply.after (reply : Reply) : GetOutcome → Reply
  | .outside | .nothing => reply
  | .forged _ => { reply with message := List.replicate msgSize 0 }
  | .received _ message => ⟨message, (pktSize - 16 : Nat)⟩

namespace Network

def putInBuffer (aead : Aead 16) (raw : Buffer) (msgLen : Int) (random shm : Memory) :
    PutOutcome × List Store :=
  put aead .inbound (isWithinSmram raw.addr msgLen) raw msgLen random shm

/-- `*message_len = 0` precedes every check. -/
def getOutBuffer (decrypt : Decryption) (message : Nat) (reply : Reply) (shm : Memory) :
    GetOutcome × Reply × List Store :=
  let result := get decrypt .outbound (isWithinSmram message msgSize) shm
  (result.1, { reply with messageLen := 0 }.after result.1, result.2)

end Network

namespace Keyboard

/-- The SMRAM check is compiled out (`#if 0`) in this build. -/
def putInBuffer (aead : Aead 16) (raw : Buffer) (msgLen : Int) (random shm : Memory) :
    PutOutcome × List Store :=
  put aead .inbound true raw msgLen random shm

end Keyboard

namespace Openssh

def putOutBuffer (aead : Aead 16) (enclave : Enclave) (raw : Buffer) (msgLen : Int)
    (random shm : Memory) : PutOutcome × List Store :=
  put aead .outbound (enclave.sgxIsWithinEnclave raw.addr (sizeT msgLen)) raw msgLen random shm

def getInBuffer (decrypt : Decryption) (enclave : Enclave) (message : Nat) (reply : Reply)
    (shm : Memory) : GetOutcome × Reply × List Store :=
  let result := get decrypt .inbound (enclave.sgxIsWithinEnclave message msgSize) shm
  (result.1, reply.after result.1, result.2)

end Openssh

namespace Lwip

/-- Neither the pointer nor the sign of the length is checked: a negative length
passes the comparison with `MSG_SIZE` and its copy runs away (`none`). -/
def putOutBuffer (aead : Aead 16) (raw : Buffer) (msgLen : Int) (random shm : Memory) :
    Option (PutOutcome × List Store) :=
  if (msgSize : Int) < msgLen then some (.tooLarge, [])
  else if msgLen < 0 then none
  else some (putMessage aead .outbound (padded raw msgLen.toNat random) shm)

/-- This copy of the code does not check its receive buffer. -/
def getInBuffer (decrypt : Decryption) (reply : Reply) (shm : Memory) :
    GetOutcome × Reply × List Store :=
  let result := get decrypt .inbound true shm
  (result.1, reply.after result.1, result.2)

end Lwip

section Specifications
variable {d e : Direction} {i j : Nat} {shm : Memory}

theorem search_some {value : UInt8} :
    search d value shm = some i ↔
      i < maxEntry ∧ shm (d.owner i) = value ∧ ∀ j < i, shm (d.owner j) ≠ value := by
  unfold search
  rw [List.find?_range_eq_some]
  simp only [beq_iff_eq, List.mem_range, Bool.not_eq_true', beq_eq_false_iff_ne, ne_eq]
  tauto

theorem search_none {value : UInt8} :
    search d value shm = none ↔ ∀ j < maxEntry, shm (d.owner j) ≠ value := by
  unfold search
  rw [List.find?_eq_none]
  simp only [List.mem_range, beq_iff_eq, ne_eq]

theorem search_first {value : UInt8} (first : shm (d.owner 0) = value) :
    search d value shm = some 0 :=
  search_some.mpr ⟨by decide, first, fun j below => absurd below (Nat.not_lt_zero j)⟩

/-- Filling a slot moves no entry. -/
theorem search_slotCopy {value : UInt8} (found : search d value shm = some i) (packet : List UInt8) :
    search d value (shm.apply (slotCopy e j packet)) = some i := by
  obtain ⟨bound, owned, least⟩ := search_some.mp found
  refine search_some.mpr ⟨bound, (slotCopy_owner shm bound packet).trans owned, fun k below => ?_⟩
  exact (slotCopy_owner shm (below.trans bound) packet).trans_ne (least k below)

theorem padded_length {raw : Buffer} {msgLen : Nat} {random : Memory} (small : msgLen ≤ msgSize) :
    (padded raw msgLen random).length = msgSize := by
  simp only [padded, List.length_append, Memory.read_length]
  omega

/-- Nothing but the message and the padding goes into the plaintext. -/
theorem padded_inj {first second : Buffer} {msgLen : Nat} {random other : Memory} :
    padded first msgLen random = padded second msgLen other ↔
      first.byte.read 0 msgLen = second.byte.read 0 msgLen ∧
        random.read 0 (msgSize - msgLen) = other.read 0 (msgSize - msgLen) := by
  constructor
  · intro same
    exact List.append_inj same (by rw [Memory.read_length, Memory.read_length])
  · rintro ⟨message, padding⟩
    rw [padded, padded, message, padding]

/-- The plaintext starts with the bytes that were put. -/
theorem padded_getD (raw : Buffer) {msgLen k : Nat} (random : Memory) (bound : k < msgLen) :
    (padded raw msgLen random).getD k 0 = raw.byte k := by
  rw [padded, List.getD_eq_getElem?_getD, List.getElem?_append_left (by simpa using bound)]
  simp [Memory.read, bound]

theorem accept_within (raw : Buffer) {msgLen : Nat} (random : Memory) (small : msgLen ≤ msgSize) :
    accept true raw msgLen random = .ok (padded raw msgLen random) := by
  rw [accept, if_neg (by decide), if_neg (by omega), if_neg (by omega), Int.toNat_natCast]

theorem accept_length {within : Bool} {raw : Buffer} {msgLen : Int} {random : Memory}
    (accepted : accept within raw msgLen random = .ok message) : message.length = msgSize := by
  unfold accept at accepted
  split at accepted
  · contradiction
  split at accepted
  · contradiction
  split at accepted
  · contradiction
  cases accepted
  apply padded_length
  omega

theorem packet_length (aead : Aead 16) (whole : message.length = msgSize) :
    (aead.encrypt key nonce ad message).length = pktSize := by
  rw [aead.encrypt_length, whole]
  decide

/-- Everything a put can do once its arguments are accepted. -/
theorem putMessage_cases (aead : Aead 16) (d : Direction) (message : List UInt8) (shm : Memory) :
    (∀ i < maxEntry, shm (d.owner i) ≠ d.sender) ∧ putMessage aead d message shm = (.full message, []) ∨
    ∃ i < maxEntry, shm (d.owner i) = d.sender ∧ (∀ j < i, shm (d.owner j) ≠ d.sender) ∧
      putMessage aead d message shm = (.stored i message,
        slotCopy d i (aead.encrypt key nonce ad message) ++ [flip d i d.receiver]) := by
  unfold putMessage
  cases found : search d d.sender shm with
  | none => exact Or.inl ⟨search_none.mp found, rfl⟩
  | some i =>
    obtain ⟨bound, free, least⟩ := search_some.mp found
    exact Or.inr ⟨i, bound, free, least, rfl⟩

/-- Everything a get can do once its buffer is accepted. -/
theorem getMessage_cases (decrypt : Decryption) (d : Direction) (shm : Memory) :
    (∀ i < maxEntry, shm (d.owner i) ≠ d.receiver) ∧ getMessage decrypt d shm = (.nothing, []) ∨
    ∃ i < maxEntry, shm (d.owner i) = d.receiver ∧ (∀ j < i, shm (d.owner j) ≠ d.receiver) ∧
      ((decrypt key nonce ad (shm.read (d.slot i) pktSize) = none ∧
          getMessage decrypt d shm = (.forged i, [])) ∨
        ∃ message, decrypt key nonce ad (shm.read (d.slot i) pktSize) = some message ∧
          getMessage decrypt d shm = (.received i message, [flip d i d.sender])) := by
  unfold getMessage
  cases found : search d d.receiver shm with
  | none => exact Or.inl ⟨search_none.mp found, rfl⟩
  | some i =>
    obtain ⟨bound, owned, least⟩ := search_some.mp found
    refine Or.inr ⟨i, bound, owned, least, ?_⟩
    cases opened : decrypt key nonce ad (shm.read (d.slot i) pktSize) with
    | none => exact Or.inl ⟨rfl, by simp only [opened]⟩
    | some message => exact Or.inr ⟨message, rfl, by simp only [opened]⟩

/-- A put stores in one slot of its direction and in that slot's ownership byte. -/
theorem putMessage_targets (aead : Aead 16) (whole : message.length = msgSize) {s : Store}
    (member : s ∈ (putMessage aead d message shm).2) :
    ∃ i < maxEntry, s.addr = d.owner i ∨ d.slot i ≤ s.addr ∧ s.addr < d.slot i + pktSize := by
  obtain ⟨_, same⟩ | ⟨i, bound, _, _, same⟩ := putMessage_cases aead d message shm
  · simp [same] at member
  · rw [same] at member
    refine ⟨i, bound, ?_⟩
    rcases List.mem_append.mp member with copied | flipped
    · have inside := mem_blit copied
      rw [packet_length aead whole] at inside
      exact Or.inr inside
    · cases List.mem_singleton.mp flipped
      exact Or.inl rfl

theorem putMessage_extent (aead : Aead 16) (whole : message.length = msgSize) {s : Store}
    (member : s ∈ (putMessage aead d message shm).2) : s.addr < shmSize := by
  obtain ⟨i, bound, owner | slot⟩ := putMessage_targets aead whole member
  · have small := d.owner_lt bound
    simp only [maxEntry, shmSize] at *
    omega
  · have small := d.slot_end bound
    omega

/-- A get stores in one ownership byte of its direction. -/
theorem getMessage_targets {decrypt : Decryption} {s : Store}
    (member : s ∈ (getMessage decrypt d shm).2) : ∃ i < maxEntry, s.addr = d.owner i := by
  obtain ⟨_, same⟩ | ⟨i, bound, _, _, result⟩ := getMessage_cases decrypt d shm
  · simp [same] at member
  · obtain ⟨_, same⟩ | ⟨_, _, same⟩ := result
    · simp [same] at member
    · rw [same] at member
      cases List.mem_singleton.mp member
      exact ⟨i, bound, rfl⟩

end Specifications

/-! What a slot offers its receiver: the plaintext, if it is handed over and
authentic. -/

def held (decrypt : Decryption) (d : Direction) (shm : Memory) (i : Nat) : Option (List UInt8) :=
  if shm (d.owner i) = d.receiver then decrypt key nonce ad (shm.read (d.slot i) pktSize) else none

section Held
variable {d e : Direction} {i j : Nat} {shm other : Memory} (decrypt : Decryption)

theorem held_owned (owned : shm (d.owner i) = d.receiver) :
    held decrypt d shm i = decrypt key nonce ad (shm.read (d.slot i) pktSize) :=
  if_pos owned

theorem held_free (free : shm (d.owner i) = d.sender) : held decrypt d shm i = none := by
  rw [held, if_neg]
  rw [free]
  exact d.sender_ne_receiver

theorem held_apart (apart : Apart d i shm other) (bound : j < maxEntry) (different : ¬ (d = e ∧ i = j)) :
    held decrypt e other j = held decrypt e shm j := by
  obtain ⟨owner, slot⟩ := apart e j bound different
  simp only [held, owner, slot]

end Held

/-! The effect of the two successful exits on the region. -/

section Effects
variable {d : Direction} {i : Nat} {shm : Memory}

theorem stored_apart (aead : Aead 16) (bound : i < maxEntry) (whole : message.length = msgSize) :
    Apart d i shm (shm.apply (slotCopy d i (aead.encrypt key nonce ad message) ++
      [flip d i d.receiver])) := by
  rw [Memory.apply_concat]
  exact (slotCopy_apart shm (packet_length aead whole) bound).trans (flip_apart _ d.receiver bound)

theorem stored_owner (aead : Aead 16) :
    shm.apply (slotCopy d i (aead.encrypt key nonce ad message) ++ [flip d i d.receiver]) (d.owner i) =
      d.receiver := by
  rw [Memory.apply_concat]
  exact flip_same _ d.receiver

theorem stored_slot (aead : Aead 16) (bound : i < maxEntry) (whole : message.length = msgSize) :
    (shm.apply (slotCopy d i (aead.encrypt key nonce ad message) ++
      [flip d i d.receiver])).read (d.slot i) pktSize = aead.encrypt key nonce ad message := by
  rw [Memory.apply_concat, flip_slot _ d.receiver bound]
  exact slotCopy_same shm (packet_length aead whole)

end Effects
end Aurora
