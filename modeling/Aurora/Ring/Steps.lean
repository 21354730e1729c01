import Aurora.Ring.Calls
import Aurora.Lib.Bag

/-! The ring calls cut into the steps between which other parties can act: the
bitmap scan, the slot copy, the decryption of a private copy, and the ownership
flip. Encryption and the argument checks touch nothing shared and belong to the
start of a call. Uninterrupted, the steps are the whole calls. -/
namespace Aurora
open Lib

/-- What a finished call shows. A put that found no slot has encrypted its
message all the same. -/
inductive Event where
  | refused (d : Direction)
  | full (d : Direction) (message : List UInt8)
  | stored (d : Direction) (message : List UInt8)
  | nothing (d : Direction)
  | forged (d : Direction)
  | received (d : Direction) (message : List UInt8)
deriving DecidableEq, Repr

def PutOutcome.event (d : Direction) : PutOutcome → Event
  | outside | negative | tooLarge => .refused d
  | full message => .full d message
  | stored _ message => .stored d message

def GetOutcome.event (d : Direction) : GetOutcome → Event
  | outside => .refused d
  | nothing => .nothing d
  | forged _ => .forged d
  | received _ message => .received d message

/-- A put refuses its arguments and touches nothing, or has a whole message. -/
theorem put_cases (aead : Aead 16) (d : Direction) (within : Bool) (raw : Buffer) (msgLen : Int)
    (random shm : Memory) :
    (∃ outcome, put aead d within raw msgLen random shm = (outcome, []) ∧
      outcome.event d = .refused d) ∨
    ∃ message, message.length = msgSize ∧
      put aead d within raw msgLen random shm = putMessage aead d message shm := by
  unfold put
  cases checked : accept within raw msgLen random with
  | ok message => exact Or.inr ⟨message, accept_length checked, rfl⟩
  | error outcome =>
    refine Or.inl ⟨outcome, rfl, ?_⟩
    unfold accept at checked
    split at checked
    · cases checked; rfl
    split at checked
    · cases checked; rfl
    split at checked
    · cases checked; rfl
    contradiction

theorem get_cases (decrypt : Decryption) (d : Direction) (within : Bool) (shm : Memory) :
    get decrypt d within shm = (.outside, []) ∨
      get decrypt d within shm = getMessage decrypt d shm := by
  cases within with
  | false => exact Or.inl rfl
  | true => exact Or.inr rfl

/-- No ring call stores outside the region. -/
theorem put_extent {aead : Aead 16} {s : Store}
    (member : s ∈ (put aead d within raw msgLen random shm).2) : s.addr < shmSize := by
  obtain ⟨_, same, _⟩ | ⟨message, whole, same⟩ := put_cases aead d within raw msgLen random shm
  · simp [same] at member
  · rw [same] at member
    exact putMessage_extent aead whole member

theorem get_extent {decrypt : Decryption} {s : Store}
    (member : s ∈ (get decrypt d within shm).2) : s.addr < shmSize := by
  obtain same | same := get_cases decrypt d within shm
  · simp [same] at member
  · rw [same] at member
    obtain ⟨i, bound, owner⟩ := getMessage_targets member
    have small := d.owner_lt bound
    simp only [maxEntry, shmSize] at *
    omega

/-- Where a call stands: the step it takes next, with its private data. -/
inductive Progress where
  | putScan (d : Direction) (message : List UInt8)
  | putCopy (d : Direction) (message : List UInt8) (i : Nat)
  | putFlip (d : Direction) (message : List UInt8) (i : Nat)
  | getScan (d : Direction)
  | getCopy (d : Direction) (i : Nat)
  | getDecrypt (d : Direction) (i : Nat) (ciphertext : List UInt8)
  | getFlip (d : Direction) (i : Nat) (message : List UInt8)

/-- A step leaves the call at its next step, or ends it. -/
inductive Advance (P : Type) where
  | running (next : P)
  | put (d : Direction) (outcome : PutOutcome)
  | get (d : Direction) (outcome : GetOutcome)

namespace Advance

def progress : Advance P → Option P
  | running next => some next
  | put _ _ | get _ _ => none

def events : Advance P → List Event
  | running _ => []
  | put d outcome => [outcome.event d]
  | get d outcome => [outcome.event d]

end Advance

/-- One step of a call, on the region as it is now. -/
def Progress.advance (aead : Aead 16) (decrypt : Decryption) (shm : Memory) :
    Progress → Advance Progress × List Store
  | putScan d message =>
    match search d d.sender shm with
    | none => (.put d (.full message), [])
    | some i => (.running (.putCopy d message i), [])
  | putCopy d message i =>
    (.running (.putFlip d message i), slotCopy d i (aead.encrypt key nonce ad message))
  | putFlip d message i => (.put d (.stored i message), [flip d i d.receiver])
  | getScan d =>
    match search d d.receiver shm with
    | none => (.get d .nothing, [])
    | some i => (.running (.getCopy d i), [])
  | getCopy d i => (.running (.getDecrypt d i (shm.read (d.slot i) pktSize)), [])
  | getDecrypt d i ciphertext =>
    match decrypt key nonce ad ciphertext with
    | none => (.get d (.forged i), [])
    | some message => (.running (.getFlip d i message), [])
  | getFlip d i message => (.get d (.received i message), [flip d i d.sender])

/-- The slot a call under way has settled on. -/
def Progress.place : Progress → Option (Direction × Nat)
  | putScan _ _ | getScan _ => none
  | putCopy d _ i | putFlip d _ i | getCopy d i | getDecrypt d i _ | getFlip d i _ => some (d, i)

/-- A call that nobody interrupts, with the stores of all its steps. -/
def Progress.alone (aead : Aead 16) (decrypt : Decryption) :
    Nat → Progress → Memory → Option (Advance Progress × List Store)
  | 0, _, _ => none
  | fuel + 1, p, shm =>
    match p.advance aead decrypt shm with
    | (.running next, stores) =>
      (alone aead decrypt fuel next (shm.apply stores)).map (fun r => (r.1, stores ++ r.2))
    | (done, stores) => some (done, stores)

theorem putMessage_alone (aead : Aead 16) (decrypt : Decryption) (d : Direction)
    (message : List UInt8) (shm : Memory) :
    (Progress.putScan d message).alone aead decrypt 3 shm =
      some (.put d (putMessage aead d message shm).1, (putMessage aead d message shm).2) := by
  cases found : search d d.sender shm with
  | none => simp only [Progress.alone, Progress.advance, putMessage, found]
  | some i =>
    simp only [Progress.alone, Progress.advance, putMessage, found, Option.map_some, List.nil_append]

theorem getMessage_alone (aead : Aead 16) (decrypt : Decryption) (d : Direction) (shm : Memory) :
    (Progress.getScan d).alone aead decrypt 4 shm =
      some (.get d (getMessage decrypt d shm).1, (getMessage decrypt d shm).2) := by
  cases found : search d d.receiver shm with
  | none => simp only [Progress.alone, Progress.advance, getMessage, found]
  | some i =>
    cases opened : decrypt key nonce ad (shm.read (d.slot i) pktSize) with
    | none =>
      simp only [Progress.alone, Progress.advance, getMessage, found, opened, Memory.apply_nil,
        Option.map_some, List.nil_append]
    | some message =>
      simp only [Progress.alone, Progress.advance, getMessage, found, opened, Memory.apply_nil,
        Option.map_some, List.nil_append]

/-! The abstract reading of a history: each ring is a bag, and the calls on
that ring are calls on the bag. Refused calls never reach it. -/

def Event.bagCall (d : Direction) : Event → Option (Bag.Call (List UInt8))
  | .refused _ | .forged _ => none
  | .full e _ => if e = d then some .full else none
  | .stored e message => if e = d then some (.put message) else none
  | .nothing e => if e = d then some .empty else none
  | .received e message => if e = d then some (.take message) else none

def bagCalls (d : Direction) (events : List Event) : List (Bag.Call (List UInt8)) :=
  events.filterMap (Event.bagCall d)

theorem bagCalls_append (d : Direction) (first second : List Event) :
    bagCalls d (first ++ second) = bagCalls d first ++ bagCalls d second :=
  List.filterMap_append

theorem bagCalls_full (d : Direction) (message : List UInt8) :
    bagCalls d [.full d message] = [.full] := by
  simp [bagCalls, Event.bagCall]

theorem bagCalls_stored (d : Direction) (message : List UInt8) :
    bagCalls d [.stored d message] = [.put message] := by
  simp [bagCalls, Event.bagCall]

theorem bagCalls_nothing (d : Direction) : bagCalls d [.nothing d] = [.empty] := by
  simp [bagCalls, Event.bagCall]

theorem bagCalls_received (d : Direction) (message : List UInt8) :
    bagCalls d [.received d message] = [.take message] := by
  simp [bagCalls, Event.bagCall]

theorem bagCalls_hidden {d : Direction} {event : Event} (hidden : event.bagCall d = none) :
    bagCalls d [event] = [] := by
  rw [bagCalls, List.filterMap_cons_none hidden, List.filterMap_nil]

/-- The plaintexts waiting in the slots that belong to the receiver. -/
def pending (decrypt : Decryption) (d : Direction) (shm : Memory) : Multiset (List UInt8) :=
  Bag.contents (held decrypt d shm) maxEntry

/-- In how many slots the receiver would find this plaintext. -/
def copies (decrypt : Decryption) (d : Direction) (message : List UInt8) (shm : Memory) : Nat :=
  (List.range maxEntry).countP (fun i => decide (held decrypt d shm i = some message))

theorem pending_count (decrypt : Decryption) (d : Direction) (message : List UInt8) (shm : Memory) :
    (pending decrypt d shm).count message = copies decrypt d message shm :=
  Bag.contents_count (held decrypt d shm) maxEntry message

theorem pending_stored (aead : Aead 16) {d : Direction} {i : Nat} {shm after : Memory}
    (bound : i < maxEntry) (free : shm (d.owner i) = d.sender) (apart : Apart d i shm after)
    (owner : after (d.owner i) = d.receiver)
    (slot : after.read (d.slot i) pktSize = aead.encrypt key nonce ad message) :
    pending aead.decrypt d after = message ::ₘ pending aead.decrypt d shm := by
  apply Bag.contents_put bound (held_free aead.decrypt free)
  · rw [held_owned aead.decrypt owner, slot, aead.decrypt_encrypt]
  · intro j small different
    exact held_apart aead.decrypt apart small (fun same => different same.2.symm)

/-- Filling a slot that is still the sender's changes no receiver's view. -/
theorem pending_fill {decrypt : Decryption} {d : Direction} {i : Nat} {shm : Memory}
    (bound : i < maxEntry) (free : shm (d.owner i) = d.sender) (whole : packet.length = pktSize) :
    pending decrypt d (shm.apply (slotCopy d i packet)) = pending decrypt d shm := by
  apply Bag.contents_congr
  intro j small
  by_cases same : i = j
  · subst same
    rw [held_free decrypt free, held_free decrypt ((slotCopy_owner shm bound packet).trans free)]
  · exact held_apart decrypt (slotCopy_apart shm whole bound) small (fun equal => same equal.2)

theorem pending_received {decrypt : Decryption} {d : Direction} {i : Nat} {shm : Memory}
    (bound : i < maxEntry) (owned : shm (d.owner i) = d.receiver)
    (opened : decrypt key nonce ad (shm.read (d.slot i) pktSize) = some message) :
    message ∈ pending decrypt d shm ∧
      pending decrypt d (shm.store (flip d i d.sender)) = (pending decrypt d shm).erase message := by
  apply Bag.contents_take bound ((held_owned decrypt owned).trans opened)
  · exact held_free decrypt (flip_same shm d.sender)
  · intro j small different
    exact held_apart decrypt (flip_apart shm d.sender bound) small (fun same => different same.2.symm)

theorem pending_other {decrypt : Decryption} {d e : Direction} {i : Nat} {shm after : Memory}
    (apart : Apart d i shm after) (different : d ≠ e) :
    pending decrypt e after = pending decrypt e shm :=
  Bag.contents_congr (fun _ bound => held_apart decrypt apart bound (fun same => different same.1))

end Aurora
