import Mathlib.Logic.Function.Basic
import Aurora.Lib.Transition
import Aurora.Ring.Steps

/-! Integrity against a memory adversary that acts between any two accesses of
any number of ring calls, in every build of the ring code. Here even the bitmap
scan is cut into its single reads. What a get accepts depends on one private
copy of a slot only, so no double fetch can smuggle in anything else. -/
namespace Aurora.Integrity
open Lib

/-- The compilations of the ring code. The storage and USB firmware share the
text of the network and keyboard one. -/
inductive Build where
  | network
  | keyboard
  | openssh
  | lwip
deriving DecidableEq, Repr

namespace Build

def sends : Build → Direction
  | network | keyboard => .inbound
  | openssh | lwip => .outbound

def takes : Build → Direction
  | network | keyboard => .outbound
  | openssh | lwip => .inbound

/-- What a put encrypts, if its arguments survive the checks of the build. The
runaway copy of the lwIP build for a negative length never gets to encrypt. -/
def plaintext (enclave : Enclave) (build : Build) (raw : Buffer) (msgLen : Int) (random : Memory) :
    Option (List UInt8) :=
  let within := match build with
    | network => isWithinSmram raw.addr msgLen
    | openssh => enclave.sgxIsWithinEnclave raw.addr (sizeT msgLen)
    | keyboard | lwip => true
  (accept within raw msgLen random).toOption

theorem plaintext_length {enclave : Enclave} {raw : Buffer} {random : Memory} (build : Build)
    (accepted : build.plaintext enclave raw msgLen random = some message) :
    message.length = msgSize := by
  unfold plaintext at accepted
  dsimp only at accepted
  generalize checked : accept _ raw msgLen random = result at accepted
  cases result with
  | error => cases accepted
  | ok =>
    cases accepted
    exact accept_length checked

def receivesAt (enclave : Enclave) (build : Build) (message : Nat) : Bool :=
  match build with
  | network | keyboard => isWithinSmram message msgSize
  | openssh => enclave.sgxIsWithinEnclave message msgSize
  | lwip => true

/-- The firmware clears `*message_len` on entry. -/
def entryReply (build : Build) (reply : Reply) : Reply :=
  match build with
  | network | keyboard => { reply with messageLen := 0 }
  | openssh | lwip => reply

end Build

/-- A call by its next access to the region; the scans carry the loop index. -/
inductive Thread where
  | putScan (d : Direction) (message : List UInt8) (i : Nat)
  | getScan (d : Direction) (i : Nat)
  | settled (p : Progress)

namespace Thread

def ofAdvance : Advance Progress → Advance Thread
  | .running next => .running (settled next)
  | .put d outcome => .put d outcome
  | .get d outcome => .get d outcome

def tick (aead : Aead 16) (decrypt : Decryption) (shm : Memory) : Thread → Advance Thread × List Store
  | putScan d message i =>
    if i < maxEntry then
      if shm (d.owner i) = d.sender then (.running (settled (.putCopy d message i)), [])
      else (.running (putScan d message (i + 1)), [])
    else (.put d (.full message), [])
  | getScan d i =>
    if i < maxEntry then
      if shm (d.owner i) = d.receiver then (.running (settled (.getCopy d i)), [])
      else (.running (getScan d (i + 1)), [])
    else (.get d .nothing, [])
  | settled p => (ofAdvance (p.advance aead decrypt shm).1, (p.advance aead decrypt shm).2)

def alone (aead : Aead 16) (decrypt : Decryption) :
    Nat → Thread → Memory → Option (Advance Thread × List Store)
  | 0, _, _ => none
  | fuel + 1, t, shm =>
    match t.tick aead decrypt shm with
    | (.running next, stores) =>
      (alone aead decrypt fuel next (shm.apply stores)).map (fun r => (r.1, stores ++ r.2))
    | (done, stores) => some (done, stores)

section Alone
variable (aead : Aead 16) (decrypt : Decryption) {d : Direction} {shm : Memory}

theorem alone_running (fuel : Nat)
    (step : tick aead decrypt shm t = (.running next, [])) :
    t.alone aead decrypt (fuel + 1) shm = next.alone aead decrypt fuel shm := by
  simp only [alone, step, Memory.apply_nil, List.nil_append, Prod.mk.eta, Option.map_id']

theorem getScan_alone {i remaining : Nat} (span : i + remaining = maxEntry)
    (skipped : ∀ j < i, shm (d.owner j) ≠ d.receiver) :
    (getScan d i).alone aead decrypt (remaining + 4) shm =
      some (.get d (getMessage decrypt d shm).1, (getMessage decrypt d shm).2) := by
  induction remaining generalizing i with
  | zero =>
    have unowned : search d d.receiver shm = none := search_none.mpr (span ▸ skipped)
    have done : ¬ i < maxEntry := by omega
    simp only [alone, tick, if_neg done, getMessage, unowned]
  | succ remaining ih =>
    have small : i < maxEntry := by omega
    by_cases owned : shm (d.owner i) = d.receiver
    · have found : search d d.receiver shm = some i := search_some.mpr ⟨small, owned, skipped⟩
      cases opened : decrypt key nonce ad (shm.read (d.slot i) pktSize) <;>
        simp only [alone, tick, if_pos small, if_pos owned, Progress.advance, ofAdvance, getMessage,
          found, opened, Memory.apply_nil, Option.map_some, List.nil_append]
    · have step : tick aead decrypt shm (getScan d i) = (.running (getScan d (i + 1)), []) := by
        simp only [tick, if_pos small, if_neg owned]
      rw [Nat.add_right_comm, alone_running aead decrypt _ step]
      refine ih (by omega) fun j below => ?_
      rcases Nat.lt_succ_iff_lt_or_eq.mp below with earlier | rfl
      · exact skipped j earlier
      · exact owned

theorem putScan_alone {message : List UInt8} {i remaining : Nat} (span : i + remaining = maxEntry)
    (skipped : ∀ j < i, shm (d.owner j) ≠ d.sender) :
    (putScan d message i).alone aead decrypt (remaining + 3) shm =
      some (.put d (putMessage aead d message shm).1, (putMessage aead d message shm).2) := by
  induction remaining generalizing i with
  | zero =>
    have taken : search d d.sender shm = none := search_none.mpr (span ▸ skipped)
    have done : ¬ i < maxEntry := by omega
    simp only [alone, tick, if_neg done, putMessage, taken]
  | succ remaining ih =>
    have small : i < maxEntry := by omega
    by_cases free : shm (d.owner i) = d.sender
    · have found : search d d.sender shm = some i := search_some.mpr ⟨small, free, skipped⟩
      simp only [alone, tick, if_pos small, if_pos free, Progress.advance, ofAdvance, putMessage,
        found, Option.map_some, List.nil_append]
    · have step : tick aead decrypt shm (putScan d message i) =
          (.running (putScan d message (i + 1)), []) := by
        simp only [tick, if_pos small, if_neg free]
      rw [Nat.add_right_comm, alone_running aead decrypt _ step]
      refine ih (by omega) fun j below => ?_
      rcases Nat.lt_succ_iff_lt_or_eq.mp below with earlier | rfl
      · exact skipped j earlier
      · exact free

/-- Uninterrupted, the finest steps are the whole calls. -/
theorem getMessage_ticks : (getScan d 0).alone aead decrypt (maxEntry + 4) shm =
    some (.get d (getMessage decrypt d shm).1, (getMessage decrypt d shm).2) :=
  getScan_alone aead decrypt (Nat.zero_add _) (fun j below => absurd below (Nat.not_lt_zero j))

theorem putMessage_ticks {message : List UInt8} :
    (putScan d message 0).alone aead decrypt (maxEntry + 3) shm =
      some (.put d (putMessage aead d message shm).1, (putMessage aead d message shm).2) :=
  putScan_alone aead decrypt (Nat.zero_add _) (fun j below => absurd below (Nat.not_lt_zero j))

end Alone

end Thread

/-- A call under way, with the caller's buffer and the stores it has issued. -/
structure Running where
  build : Build
  thread : Thread
  reply : Reply
  wrote : List Store

structure System where
  shm : Memory
  log : List Aead.Query
  calls : Nat → Option Running

def start (shm : Memory) : System := ⟨shm, [], fun _ => none⟩

inductive Label where
  | encrypted (build : Build) (message : List UInt8)
  | putReturned (build : Build) (code : Int)
  | getReturned (build : Build) (code : Int) (reply : Reply) (wrote : List Store)

/-- Where a step leaves a call, and what its caller sees. -/
def Running.after (r : Running) : Advance Thread × List Store → Option Running × List Label
  | (.running next, stores) => (some { r with thread := next, wrote := r.wrote ++ stores }, [])
  | (.put _ outcome, _) => (none, [.putReturned r.build outcome.code])
  | (.get _ outcome, stores) =>
    (none, [.getReturned r.build outcome.code (r.reply.after outcome) (r.wrote ++ stores)])

/-- Any number of calls of any builds, and the adversary between any two of
their accesses. Decryption accepts only what a put has encrypted so far. A put
that is refused touches nothing and is left out. -/
inductive Step (aead : Aead 16) (enclave : Enclave) : System → List Label → System → Prop where
  | overwrite (shm : Memory) : Step aead enclave s [] { s with shm := shm }
  | callPut (t : Nat) (build : Build) (raw : Buffer) (msgLen : Int) (random : Memory) :
      s.calls t = none → build.plaintext enclave raw msgLen random = some message →
      Step aead enclave s [.encrypted build message]
        { s with
          log := s.log ++ [⟨key, nonce, ad, message⟩]
          calls := Function.update s.calls t
            (some ⟨build, .putScan build.sends message 0, ⟨[], 0⟩, []⟩) }
  | callGet (t : Nat) (build : Build) (message : Nat) (reply : Reply) :
      s.calls t = none → build.receivesAt enclave message = true →
      Step aead enclave s []
        { s with
          calls := Function.update s.calls t
            (some ⟨build, .getScan build.takes 0, build.entryReply reply, []⟩) }
  | refuseGet (build : Build) (message : Nat) (reply : Reply) :
      build.receivesAt enclave message = false →
      Step aead enclave s [.getReturned build (-1) (build.entryReply reply) []] s
  | proceed (t : Nat) (r : Running) : s.calls t = some r →
      Step aead enclave s (r.after (r.thread.tick aead (aead.ideal s.log) s.shm)).2
        { s with
          shm := s.shm.apply (r.thread.tick aead (aead.ideal s.log) s.shm).2
          calls := Function.update s.calls t
            (r.after (r.thread.tick aead (aead.ideal s.log) s.shm)).1 }

/-- What a get carries from step to step: it has written nothing, its index is
in range, and from the decryption on its message is one of the encrypted ones. -/
def Sound (log : List Aead.Query) (r : Running) : Prop :=
  match r.thread with
  | .putScan _ _ _ | .settled (.putScan _ _) | .settled (.putCopy _ _ _) | .settled (.putFlip _ _ _) =>
    True
  | .getScan d _ | .settled (.getScan d) => d = r.build.takes ∧ r.wrote = []
  | .settled (.getCopy d i) => d = r.build.takes ∧ r.wrote = [] ∧ i < maxEntry
  | .settled (.getDecrypt d i ciphertext) =>
    d = r.build.takes ∧ r.wrote = [] ∧ i < maxEntry ∧ ciphertext.length = pktSize
  | .settled (.getFlip d i message) => d = r.build.takes ∧ r.wrote = [] ∧ i < maxEntry ∧
      message.length = msgSize ∧ ⟨key, nonce, ad, message⟩ ∈ log

/-- What must be true of a get that returned 0. -/
def Honest (before : List Label) : Label → Prop
  | .getReturned build 0 reply wrote =>
    (∃ sender, .encrypted sender reply.message ∈ before) ∧ reply.message.length = msgSize ∧
      reply.messageLen = msgSize ∧ ∃ i < maxEntry, wrote = [flip build.takes i build.takes.sender]
  | _ => True

section Invariant
variable {aead : Aead 16} {enclave : Enclave} {events : List Label} {s : System} {r : Running}

theorem Sound.mono (sound : Sound log r) (grown : ∀ q ∈ log, q ∈ more) : Sound more r := by
  obtain ⟨build, thread, reply, wrote⟩ := r
  rcases thread with _ | _ | p
  · trivial
  · exact sound
  · cases p with
    | getFlip d i message =>
      obtain ⟨own, quiet, bound, whole, known⟩ := sound
      exact ⟨own, quiet, bound, whole, grown _ known⟩
    | _ => exact sound

/-- Both ends of a step at once: sound if it goes on, honest if it returns. -/
def Continues (events : List Label) (log : List Aead.Query) : Option Running × List Label → Prop
  | (next, labels) => (∀ r ∈ next, Sound log r) ∧ ∀ label ∈ labels, Honest events label

theorem Continues.running (sound : Sound log { r with thread := next, wrote := r.wrote ++ stores }) :
    Continues events log (r.after (.running next, stores)) := by
  constructor
  · rintro _ ⟨⟩
    exact sound
  · rintro _ ⟨⟩

theorem Continues.put : Continues events log (r.after (.put d outcome, stores)) := by
  constructor
  · rintro _ ⟨⟩
  · intro label member
    cases List.mem_singleton.mp member
    trivial

theorem Continues.failed (failed : outcome.code = -1) :
    Continues events log (r.after (.get d outcome, stores)) := by
  constructor
  · rintro _ ⟨⟩
  · intro label member
    cases List.mem_singleton.mp member
    rw [failed]
    trivial

theorem Sound.tick (sound : Sound log r) (aead : Aead 16) (shm : Memory)
    (known : ∀ q ∈ log, ∃ sender, .encrypted sender q.message ∈ events) :
    Continues events log (r.after (r.thread.tick aead (aead.ideal log) shm)) := by
  obtain ⟨build, thread, reply, wrote⟩ := r
  rcases thread with ⟨d, message, i⟩ | ⟨d, i⟩ | p
  · unfold Thread.tick
    dsimp only
    split
    · split
      · exact .running trivial
      · exact .running trivial
    · exact .put
  · obtain ⟨own, quiet⟩ := sound
    unfold Thread.tick
    dsimp only at quiet ⊢
    split
    · rename_i bound
      split
      · exact .running ⟨own, by simpa using quiet, bound⟩
      · exact .running ⟨own, by simpa using quiet⟩
    · exact .failed rfl
  · cases p with
    | putScan d message =>
      simp only [Thread.tick, Progress.advance]
      split
      · exact .put
      · exact .running trivial
    | putCopy d message i => exact .running trivial
    | putFlip d message i => exact .put
    | getScan d =>
      obtain ⟨own, quiet⟩ := sound
      simp only [Thread.tick, Progress.advance]
      split
      · exact .failed rfl
      · rename_i found
        exact .running ⟨own, by simpa using quiet, (search_some.mp found).1⟩
    | getCopy d i =>
      obtain ⟨own, quiet, bound⟩ := sound
      exact .running ⟨own, by simpa [Progress.advance] using quiet, bound, Memory.read_length _ _ _⟩
    | getDecrypt d i ciphertext =>
      obtain ⟨own, quiet, bound, whole⟩ := sound
      simp only [Thread.tick, Progress.advance]
      split
      · exact .failed rfl
      · rename_i message opened
        obtain ⟨member, same⟩ := aead.ideal_some opened
        refine .running ⟨own, by simpa using quiet, bound, ?_, member⟩
        rw [same, aead.encrypt_length] at whole
        simp only [msgSize]
        omega
    | getFlip d i message =>
      obtain ⟨own, quiet, bound, whole, member⟩ := sound
      dsimp only at own quiet
      subst own quiet
      refine ⟨by rintro _ ⟨⟩, ?_⟩
      intro label returned
      cases List.mem_singleton.mp returned
      exact ⟨known _ member, whole, rfl, i, bound, rfl⟩

structure Invariant (events : List Label) (s : System) : Prop where
  sound : ∀ t, ∀ r ∈ s.calls t, Sound s.log r
  known : ∀ q ∈ s.log, ∃ sender, .encrypted sender q.message ∈ events
  honest : Justified Honest events

theorem Step.invariant (invariant : Invariant events s) (step : Step aead enclave s labels after) :
    Invariant (events ++ labels) after := by
  obtain ⟨sound, known, honest⟩ := invariant
  -- The call at `t` is replaced; every other one stays as sound as it was.
  have replaced : ∀ (t : Nat) (new : Option Running) (log : List Aead.Query),
      (∀ q ∈ s.log, q ∈ log) → (∀ r ∈ new, Sound log r) →
      ∀ u, ∀ r ∈ Function.update s.calls t new u, Sound log r := by
    intro t new log grown fits u r member
    obtain ⟨_, renewed⟩ | ⟨_, old⟩ := update_cases member
    · exact fits r renewed
    · exact (sound u r old).mono grown
  have recorded : ∀ q ∈ s.log, ∃ sender, .encrypted sender q.message ∈ events ++ labels := by
    intro q member
    obtain ⟨sender, earlier⟩ := known q member
    exact ⟨sender, List.mem_append_left _ earlier⟩
  cases step with
  | overwrite shm => exact ⟨sound, recorded, by simpa using honest⟩
  | callPut t build raw msgLen random idle accepted =>
    refine ⟨replaced t _ _ (fun q => List.mem_append_left _) ?_, ?_, honest.concat trivial⟩
    · rintro _ ⟨⟩
      trivial
    · intro q member
      rcases List.mem_append.mp member with old | new
      · exact recorded q old
      · cases List.mem_singleton.mp new
        exact ⟨build, List.mem_append_right _ List.mem_cons_self⟩
  | callGet t build message reply idle accepted =>
    refine ⟨replaced t _ _ (fun q => id) ?_, recorded, by simpa using honest⟩
    rintro _ ⟨⟩
    exact ⟨rfl, rfl⟩
  | refuseGet build message reply refused => exact ⟨sound, recorded, honest.concat trivial⟩
  | proceed t r running =>
    obtain ⟨continues, returns⟩ := (sound t r running).tick aead s.shm known
    refine ⟨replaced t _ _ (fun q => id) continues, recorded, ?_⟩
    generalize r.thread.tick aead (aead.ideal s.log) s.shm = result at returns ⊢
    obtain ⟨_ | _ | _, stores⟩ := result
    · simpa [Running.after] using honest
    · exact honest.concat trivial
    · exact honest.concat (returns _ List.mem_cons_self)

end Invariant

/-- A get whose first slot is handed over and holds an encrypted message
delivers it, if it is left alone. -/
theorem get_delivers {aead : Aead 16} {enclave : Enclave} {d : Direction} {reply : Reply}
    (run : Run (Step aead enclave) origin events s)
    (calling : s.calls t = some ⟨build, .getScan d 0, reply, []⟩)
    (owned : s.shm (d.owner 0) = d.receiver)
    (packet : s.shm.read (d.slot 0) pktSize = aead.encrypt key nonce ad message)
    (known : ⟨key, nonce, ad, message⟩ ∈ s.log) :
    ∃ last, Run (Step aead enclave) origin
      (events ++ [.getReturned build 0 ⟨message, msgSize⟩ [flip d 0 d.sender]]) last := by
  have first := run.next (.proceed t _ calling)
  simp only [Thread.tick, if_pos (show 0 < maxEntry by decide), if_pos owned, Running.after,
    Memory.apply_nil, List.append_nil] at first
  have second := first.next (.proceed t _ (Function.update_self _ _ _))
  simp only [Thread.tick, Progress.advance, packet, Thread.ofAdvance, Running.after,
    Memory.apply_nil, List.append_nil, Function.update_idem] at second
  have third := second.next (.proceed t _ (Function.update_self _ _ _))
  simp only [Thread.tick, Progress.advance, aead.ideal_encrypt known, Thread.ofAdvance, Running.after,
    Memory.apply_nil, List.append_nil, Function.update_idem] at third
  have fourth := third.next (.proceed t _ (Function.update_self _ _ _))
  simp only [Thread.tick, Progress.advance, Thread.ofAdvance, Running.after, GetOutcome.code,
    Reply.after, List.nil_append] at fourth
  exact ⟨_, fourth⟩

/-- Whatever an adversary does to the region, and at whatever point: a get that
returns 0 delivers 4080 bytes that some put encrypted before, reports that
length, and has written one ownership byte of a valid slot. -/
theorem get_integrity (aead : Aead 16) (enclave : Enclave) (shm : Memory) {events : List Label}
    {s : System} (run : Run (Step aead enclave) (start shm) events s)
    (before : List Label) (build : Build) (reply : Reply) (wrote : List Store) (after : List Label)
    (returned : events = before ++ .getReturned build 0 reply wrote :: after) :
    (∃ sender, .encrypted sender reply.message ∈ before) ∧ reply.message.length = msgSize ∧
      reply.messageLen = msgSize ∧ ∃ i < maxEntry, wrote = [flip build.takes i build.takes.sender] := by
  have invariant : Invariant events s := by
    refine run.invariant ⟨?_, ?_, .nil _⟩ fun held step => step.invariant held
    · rintro _ _ ⟨⟩
    · rintro _ ⟨⟩
  exact invariant.honest before _ after returned

theorem get_integrity_planted_packet :
    ∃ message last, Run (Step (transparent 16) .sample)
      (start fun _ => 0) ([.encrypted .keyboard message] ++
        [.getReturned .lwip 0 ⟨message, msgSize⟩ [flip .inbound 0 inSmm]]) last ∧
      message.length = msgSize := by
  let enclave : Enclave := .sample
  obtain ⟨message, accepted, whole⟩ : ∃ message, Build.plaintext enclave .keyboard ⟨0, fun _ => 0⟩ 0
      (fun _ => 0x61) = some message ∧ message.length = msgSize :=
    ⟨_, rfl, padded_length (Nat.zero_le _)⟩
  have put : Run (Step (transparent 16) enclave) (start fun _ => 0) _ _ :=
    .single (.callPut 0 .keyboard ⟨0, fun _ => 0⟩ 0 (fun _ => 0x61) rfl accepted)
  -- The adversary itself places the packet in slot 0.
  obtain ⟨shm, owned, packet⟩ : ∃ shm : Memory,
      shm (Direction.inbound.owner 0) = Direction.inbound.receiver ∧
      shm.read (Direction.inbound.slot 0) pktSize = (transparent 16).encrypt key nonce ad message :=
    ⟨Memory.apply (fun _ => 0) _, stored_owner (transparent 16),
      stored_slot (transparent 16) (by decide) whole⟩
  have called := (put.next (.overwrite shm)).next (.callGet 1 .lwip 0 ⟨[], 0⟩ rfl rfl)
  obtain ⟨last, run⟩ := get_delivers called (Function.update_self 1 _ _) owned packet
    (List.mem_append_right _ List.mem_cons_self)
  obtain ⟨_, sized, _⟩ := get_integrity _ _ _ run [.encrypted .keyboard message] _ _ _ [] rfl
  exact ⟨message, last, run, sized⟩

end Aurora.Integrity
