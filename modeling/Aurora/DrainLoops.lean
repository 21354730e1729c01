import Aurora.Enclave.SecureInput
import Aurora.Ring.Blocking
import Aurora.Smm.Transmit

/-! The loops of the two receivers that run until a get fails: the enclave in
`ecall_secure_input` and in its loopback benchmark, and SMM in
`pcnet32_tx_enclave_packet`. All are one loop with different bodies, so all end
within 64 rounds with the same exact effect on the region. -/
namespace Aurora.DrainLoops
open Lib Drain

/-- `bench_loopback_test`: fill a message with `A`, put it, let SMM run, and
drain what comes back into a cleared buffer. -/
def benchLoopbackTest (aead : Aead 16) (enclave : Enclave) (msg recvMsg : Nat) (random : Memory)
    (smi : Memory → Memory) (fuel : Nat) (shm : Memory) : Option Memory :=
  let put := Openssh.putOutBuffer aead enclave ⟨msg, fun _ => 0x41⟩ msgSize random shm
  (whileGet (Openssh.getInBuffer aead.decrypt enclave recvMsg) (fun _ s => some s) fuel
    SecureInput.cleared (smi (shm.apply put.2)) ()).map fun r => r.2.2

section Loops
variable (decrypt : Decryption) (fuel : Nat) (reply : Reply) (shm : Memory)

/-- The drain loop of `ecall_secure_input` has an empty body. -/
theorem drain_eq (enclave : Enclave) (message : Nat) :
    (SecureInput.drain decrypt (enclave.sgxIsWithinEnclave message msgSize) fuel reply shm).map
        (fun r => ((), r.1, shm.apply r.2)) =
      whileGet (Openssh.getInBuffer decrypt enclave message) (fun _ s => some s) fuel reply shm () := by
  induction fuel generalizing reply shm with
  | zero => rfl
  | succ fuel ih =>
    rw [SecureInput.drain, whileGet, Openssh.getInBuffer]
    obtain ⟨outcome, stores⟩ := get decrypt .inbound (enclave.sgxIsWithinEnclave message msgSize) shm
    cases outcome with
    | received i plain =>
      simp only [GetOutcome.code, if_true, Option.bind_some, ← ih, Option.map_map]
      simp only [Function.comp_def, Memory.apply_append]
    | outside | nothing | forged _ => rfl

/-- A get that fails stores nothing. -/
theorem get_failed (d : Direction) (within : Bool) (failed : (get decrypt d within shm).1.code ≠ 0) :
    (get decrypt d within shm).2 = [] := by
  unfold get at failed ⊢
  split
  · rename_i accepted
    rw [if_pos accepted] at failed
    obtain ⟨_, same⟩ | ⟨i, _, _, _, ⟨_, same⟩ | ⟨message, _, same⟩⟩ := getMessage_cases decrypt d shm
    · rw [same]
    · rw [same]
    · rw [same] at failed
      exact absurd rfl failed
  · rfl

/-- The body of `pcnet32_tx_enclave_packet` sends the message. -/
theorem txEnclavePacket_eq (p : Smm.Transmit.Platform) (driver : Smm.Transmit.Driver) :
    Smm.Transmit.txEnclavePacket p decrypt fuel reply shm driver =
      (whileGet (Network.getOutBuffer decrypt p.smmTmp.addr)
        (fun message d => Smm.Transmit.sendMessage p d message) fuel reply shm driver).map
        fun r => (r.1, r.2.2) := by
  induction fuel generalizing reply shm driver with
  | zero => rfl
  | succ fuel ih =>
    have quiet := get_failed decrypt shm .outbound (isWithinSmram p.smmTmp.addr msgSize)
    rw [Smm.Transmit.txEnclavePacket, whileGet, Network.getOutBuffer]
    generalize get decrypt .outbound (isWithinSmram p.smmTmp.addr msgSize) shm = result at quiet ⊢
    obtain ⟨outcome, stores⟩ := result
    cases outcome with
    | received i plain =>
      simp only [GetOutcome.code, if_true]
      cases Smm.Transmit.sendMessage p driver (Reply.after { reply with messageLen := 0 }
          (.received i plain)).message with
      | none => rfl
      | some sent => simp only [Option.bind_some, ih]
    | outside | nothing | forged _ =>
      rw [show stores = [] from quiet (by simp [GetOutcome.code])]
      rfl

end Loops

/-- As a function of its fuel, the loop is left after as many rounds as there are
slots handed over in front of the first failing one; their ownership bytes, and
nothing else, are changed. -/
def Exhausts (decrypt : Decryption) (d : Direction) (before : Memory) (loop : Nat → Option Memory) : Prop :=
  ∃ rounds after, Ends loop rounds after ∧ rounds ≤ 64 ∧
    rounds = ((List.range 64).filter fun i => decide (Deliverable decrypt d before i)).length ∧
    (∀ i, Deliverable decrypt d before i → after (d.owner i) = d.sender) ∧
    ∀ a, (∀ i, Deliverable decrypt d before i → a ≠ d.owner i) → after a = before a

theorem whileGet_exhausts {decrypt : Decryption} {d : Direction} {shm : Memory} {S : Type}
    {call : Reply → Memory → GetOutcome × Reply × List Store} (receives : Receives decrypt d call)
    (body : List UInt8 → S → Option S) (reply : Reply) (s : S)
    (returns : ∀ i message, Deliverable decrypt d shm i → opened decrypt d shm i = some message →
      ∀ s, (body message s).isSome) :
    Exhausts decrypt d shm fun fuel => (whileGet call body fuel reply shm s).map fun r => r.2.2 := by
  obtain ⟨final, last, _, ends⟩ := whileGet_ends receives body reply s
    fun i member message => returns i message (mem_deliverable.mp member)
  refine ⟨_, _, ends.map fun r => r.2.2, deliverable_length decrypt d shm, rfl, ?_, ?_⟩
  · intro i slot
    exact handBack_owner (fun j member => (mem_deliverable.mp member).1) (mem_deliverable.mpr slot)
  · intro a outside
    exact handBack_frame fun i member => outside i (mem_deliverable.mp member)

/-- Every drain loop, for every region. The first two parts are about any body
that returns and leaves the region alone; the others are the functions of the
source, where the driver's body returns if the frame fits `tx_frame`. -/
theorem drain_loops_exact (aead : Aead 16) (shm : Memory) (reply : Reply) {S : Type}
    (body : List UInt8 → S → Option S) (s : S) (returns : ∀ message s, (body message s).isSome)
    (enclave : Enclave) (message : Nat) (inside : enclave.sgxIsWithinEnclave message msgSize = true)
    (p : Smm.Transmit.Platform) (secure : isWithinSmram p.smmTmp.addr msgSize = true) :
    Exhausts aead.decrypt .inbound shm (fun fuel => (whileGet (Openssh.getInBuffer aead.decrypt enclave
      message) body fuel reply shm s).map fun r => r.2.2) ∧
    Exhausts aead.decrypt .outbound shm (fun fuel => (whileGet (Network.getOutBuffer aead.decrypt
      p.smmTmp.addr) body fuel reply shm s).map fun r => r.2.2) ∧
    Exhausts aead.decrypt .inbound shm (fun fuel => (SecureInput.drain aead.decrypt
      (enclave.sgxIsWithinEnclave message msgSize) fuel SecureInput.cleared shm).map
        fun r => shm.apply r.2) ∧
    (∀ msg random smi, Exhausts aead.decrypt .inbound
      (smi (shm.apply (Openssh.putOutBuffer aead enclave ⟨msg, fun _ => 0x41⟩ msgSize random shm).2))
      fun fuel => benchLoopbackTest aead enclave msg message random smi fuel shm) ∧
    ((∀ i message, Deliverable aead.decrypt .outbound shm i →
        opened aead.decrypt .outbound shm i = some message →
        Smm.Transmit.ulen p message ≤ Smm.Transmit.txFrameSize) →
      ∀ driver, Exhausts aead.decrypt .outbound shm fun fuel =>
        (Smm.Transmit.txEnclavePacket p aead.decrypt fuel reply shm driver).map fun r => r.2) := by
  have enclaves := openssh_receives aead.decrypt inside
  have smm := network_receives aead.decrypt secure
  refine ⟨whileGet_exhausts enclaves body reply s fun _ plain _ _ => returns plain,
    whileGet_exhausts smm body reply s fun _ plain _ _ => returns plain, ?_, ?_, ?_⟩
  · have loop : Exhausts aead.decrypt .inbound shm _ :=
      whileGet_exhausts enclaves (fun _ s => some s) SecureInput.cleared () fun _ _ _ _ _ => rfl
    simpa only [← drain_eq, Option.map_map, Function.comp_def] using loop
  · intro msg random smi
    exact whileGet_exhausts enclaves (fun _ s => some s) SecureInput.cleared () fun _ _ _ _ _ => rfl
  · intro fits driver
    have loop := whileGet_exhausts smm (fun message d => Smm.Transmit.sendMessage p d message) reply driver
      fun i plain slot opens d => by
        rw [Smm.Transmit.sendMessage, if_neg (Nat.not_lt.mpr (fits i plain slot opens))]
        rfl
    simpa only [txEnclavePacket_eq, Option.map_map, Function.comp_def] using loop

theorem zeros_ulen : Smm.Transmit.ulen Smm.Transmit.qemuPlatform (List.replicate msgSize 0) = 0 := by
  have zero (k : Nat) : (List.replicate msgSize (0 : UInt8)).getD k 0 = 0 := by
    rw [List.getD_eq_getElem?_getD, List.getElem?_replicate]
    split <;> rfl
  simp only [Smm.Transmit.ulen, Smm.Transmit.smmTmp, zero]
  decide

/-- Four slots of each ring are handed over, and the third of them is bad: every loop
takes the first two and is left. The messages are empty frames. -/
theorem drain_loops_exact_mixed :
    (∀ d, (List.range 64).filter (fun i => decide (Deliverable (transparent 16).decrypt d mixed i)) = [0, 2]) ∧
    Exhausts (transparent 16).decrypt .inbound mixed (fun fuel => (whileGet (Openssh.getInBuffer
      (transparent 16).decrypt .sample 0x10000) (fun _ n => some (n + 1)) fuel ⟨[], 0⟩ mixed 0).map
        fun r => r.2.2) ∧
    Exhausts (transparent 16).decrypt .outbound mixed (fun fuel => (whileGet (Network.getOutBuffer
      (transparent 16).decrypt Smm.Transmit.qemuPlatform.smmTmp.addr) (fun _ n => some (n + 1)) fuel ⟨[], 0⟩
        mixed 0).map fun r => r.2.2) ∧
    Exhausts (transparent 16).decrypt .inbound mixed (fun fuel => (SecureInput.drain (transparent 16).decrypt
      (Enclave.sample.sgxIsWithinEnclave 0x10000 msgSize) fuel SecureInput.cleared mixed).map
        fun r => mixed.apply r.2) ∧
    Exhausts (transparent 16).decrypt .inbound mixed (fun fuel =>
      benchLoopbackTest (transparent 16) .sample 0x10000 0x10000 (fun _ => 0) (fun _ => mixed) fuel mixed) ∧
    Exhausts (transparent 16).decrypt .outbound mixed (fun fuel =>
      (Smm.Transmit.txEnclavePacket Smm.Transmit.qemuPlatform (transparent 16).decrypt fuel ⟨[], 0⟩
        mixed Smm.Transmit.started).map fun r => r.2) := by
  obtain ⟨inbound, outbound, secureInput, loopback, tx⟩ := drain_loops_exact (transparent 16) mixed ⟨[], 0⟩
    (fun _ n => some (n + 1)) 0 (fun _ _ => rfl) .sample 0x10000 (by decide) Smm.Transmit.qemuPlatform
    (isWithinSmram_of_inside Smm.Transmit.qemuPlatform_secure (by decide) (by decide))
  refine ⟨fun d => ?_, inbound, outbound, secureInput, loopback 0x10000 (fun _ => 0) fun _ => mixed,
    tx (fun i message slot opens => ?_) _⟩
  · simp only [mixed_deliverable]
    decide
  · have bad : i ≠ 3 := by
      obtain rfl | rfl := (mixed_deliverable .outbound i).mp slot <;> decide
    rw [mixed_opened .outbound slot.1, if_neg bad] at opens
    cases opens
    rw [zeros_ulen]
    exact Nat.zero_le _

end Aurora.DrainLoops
