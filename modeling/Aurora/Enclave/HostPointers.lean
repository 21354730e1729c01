import Aurora.Lib.Transition
import Aurora.Ring.Steps
import Aurora.Enclave.SecureInput

/-! Writes of the OpenSSH enclave through pointers the host hands in unchecked:
`uio_mem`, kept in `uio_ram` and used by the ring calls, and `pass`, the target
of the received text. Addresses are 64-bit; the memory behind them may hold
anything whenever the enclave looks. -/
namespace Aurora.HostPointers
open Lib SecureInput

/-- `ecall_secure_input` inside its receive loop. -/
structure Input where
  pass : Nat
  maxLength : Int
  reply : Reply

structure State where
  uioRam : Nat
  input : Option Input

/-- `unsigned char *uio_ram = nullptr;` -/
def State.start : State := ⟨0, none⟩

/-- What the host can make the enclave do next; `memory` is what it finds. -/
inductive Call where
  | auroraInit (uioMem : Nat)
  | putOut (raw : Buffer) (msgLen : Int) (random memory : Memory)
  | getIn (message : Nat) (reply : Reply) (memory : Memory)
  | secureInput (pass : Nat) (maxLength : Int)
  | receive (recvMsg : Nat) (memory beyond : Memory)

/-- The region as the enclave addresses it. -/
def State.shm (s : State) (memory : Memory) : Memory := memory.window 64 s.uioRam

/-- One entry or, for `receive`, one iteration of the receive loop: the state
afterwards and the stores to the address space. -/
def State.step (aead : Aead 16) (enclave : Enclave) (s : State) : Call → Option (State × List Store)
  | .auroraInit uioMem =>
    match s.input with
    | none => some ({ s with uioRam := uioMem }, [])
    | some _ => none
  | .putOut raw msgLen random memory =>
    match s.input with
    | none =>
      let put := Openssh.putOutBuffer aead enclave raw msgLen random (s.shm memory)
      some (s, rebase 64 s.uioRam put.2)
    | some _ => none
  | .getIn message reply memory =>
    match s.input with
    | none =>
      let got := Openssh.getInBuffer aead.decrypt enclave message reply (s.shm memory)
      some (s, rebase 64 s.uioRam got.2.2)
    | some _ => none
  | .secureInput pass maxLength =>
    match s.input with
    | none => some ({ s with input := some ⟨pass, maxLength, cleared⟩ }, [])
    | some _ => none
  | .receive recv memory beyond =>
    match s.input with
    | none => none
    | some input =>
      let got := Openssh.getInBuffer aead.decrypt enclave recv input.reply (s.shm memory)
      let stores := rebase 64 s.uioRam got.2.2
      if got.1.code = 0 then some ({ s with input := some { input with reply := got.2.1 } }, stores)
      else some ({ s with input := none }, stores ++
        rebase 64 input.pass (copyOut (recvMsg got.2.1.message beyond) input.maxLength))

/-! Where the ring calls of the enclave write: a put in the OUT slots and the
OUT bitmap, a get in the IN bitmap. -/

def PutTarget (offset : Nat) : Prop :=
  maxEntry ≤ offset ∧ offset < 2 * maxEntry ∨ pktSize ≤ offset ∧ offset < pktSize + maxEntry * pktSize

def GetTarget (offset : Nat) : Prop := offset < maxEntry

/-- How many bytes the text can take: a negative limit becomes a huge `size_t`. -/
def reach (maxLength : Int) : Nat := if maxLength < 0 then sizeT maxLength else min maxLength.toNat msgSize

/-- These offsets from the pointer lie outside the enclave. -/
def Outside (enclave : Enclave) (pointer : Nat) (target : Nat → Prop) : Prop :=
  ∀ offset, target offset → ¬ enclave.Inside ((pointer + offset) % 2 ^ 64)

/-- The pointer a call is about to write through leads outside the enclave. -/
def Clear (enclave : Enclave) (s : State) : Call → Prop
  | .auroraInit _ | .secureInput _ _ => True
  | .putOut _ _ _ _ => Outside enclave s.uioRam PutTarget
  | .getIn _ _ _ => Outside enclave s.uioRam GetTarget
  | .receive _ _ _ => Outside enclave s.uioRam GetTarget ∧
      ∀ input ∈ s.input, Outside enclave input.pass (· < reach input.maxLength)

/-- Calls the host is allowed, with the stores they cause. -/
inductive Step (aead : Aead 16) (enclave : Enclave) (allowed : State → Call → Prop) :
    State → List Store → State → Prop where
  | call (c : Call) : allowed s c → s.step aead enclave c = some (t, stores) →
      Step aead enclave allowed s stores t

theorem putOutBuffer_targets {aead : Aead 16} {enclave : Enclave} {store : Store}
    (member : store ∈ (Openssh.putOutBuffer aead enclave raw msgLen random shm).2) :
    PutTarget store.addr := by
  unfold Openssh.putOutBuffer at member
  obtain ⟨_, same, _⟩ | ⟨message, whole, same⟩ := put_cases aead .outbound
    (enclave.sgxIsWithinEnclave raw.addr (sizeT msgLen)) raw msgLen random shm
  · simp [same] at member
  · rw [same] at member
    obtain ⟨i, bound, owner | slot⟩ := putMessage_targets aead whole member
    · simp only [PutTarget, Direction.owner, maxEntry] at *
      omega
    · simp only [PutTarget, Direction.slot, maxEntry, pktSize] at *
      omega

theorem getInBuffer_targets {decrypt : Decryption} {enclave : Enclave} {store : Store}
    (member : store ∈ (Openssh.getInBuffer decrypt enclave message reply shm).2.2) :
    GetTarget store.addr := by
  unfold Openssh.getInBuffer at member
  obtain same | same := get_cases decrypt .inbound (enclave.sgxIsWithinEnclave message msgSize) shm
  · simp [same] at member
  · rw [same] at member
    obtain ⟨i, bound, owner⟩ := getMessage_targets member
    rw [GetTarget, owner]
    exact bound

theorem copyOut_reach (message : List UInt8) (beyond : Memory) (maxLength : Int) {store : Store}
    (member : store ∈ copyOut (recvMsg message beyond) maxLength) : store.addr < reach maxLength := by
  have short := recvMsg_strlen message beyond
  have copied := (mem_blit member).2
  rw [Memory.read_length, Nat.zero_add] at copied
  have small : msgSize < 2 ^ 64 := by decide
  dsimp only [minLen, reach] at copied ⊢
  generalize strlen ((recvMsg message beyond).read 0 pktSize) = length at short copied
  by_cases negative : maxLength < 0
  · rw [if_pos (by omega)] at copied
    rwa [if_pos negative]
  obtain ⟨limit, rfl⟩ := Int.eq_ofNat_of_zero_le (Int.not_lt.mp negative)
  rw [if_neg negative, Int.toNat_natCast]
  split at copied
  · rw [sizeT_natCast (by omega)] at copied
    omega
  · rw [sizeT_natCast (by omega)] at copied
    omega

theorem rebase_outside {enclave : Enclave} {pointer : Nat} {target : Nat → Prop} {stores : List Store}
    (outside : Outside enclave pointer target) (targets : ∀ t ∈ stores, target t.addr) :
    ∀ store ∈ rebase 64 pointer stores, ¬ enclave.Inside store.addr := by
  intro store member
  obtain ⟨t, inside, rfl⟩ := mem_rebase member
  exact outside _ (targets t inside)

/-- A call through clear pointers stores nothing inside the enclave. -/
theorem step_outside {aead : Aead 16} {enclave : Enclave} {s t : State} {c : Call} {stores : List Store}
    (clear : Clear enclave s c) (stepped : s.step aead enclave c = some (t, stores)) :
    ∀ store ∈ stores, ¬ enclave.Inside store.addr := by
  obtain ⟨uioRam, input⟩ := s
  cases c with
  | auroraInit uioMem =>
    cases input with
    | none => cases stepped; simp
    | some input => contradiction
  | putOut raw msgLen random memory =>
    cases input with
    | none =>
      cases stepped
      exact rebase_outside clear fun _ => putOutBuffer_targets
    | some input => contradiction
  | getIn message reply memory =>
    cases input with
    | none =>
      cases stepped
      exact rebase_outside clear fun _ => getInBuffer_targets
    | some input => contradiction
  | secureInput pass maxLength =>
    cases input with
    | none => cases stepped; simp
    | some input => contradiction
  | receive recv memory beyond =>
    cases input with
    | none => contradiction
    | some input =>
      obtain ⟨ring, pass⟩ := clear
      have flips : ∀ store ∈ rebase 64 uioRam (Openssh.getInBuffer aead.decrypt enclave recv
          input.reply (State.shm ⟨uioRam, some input⟩ memory)).2.2, ¬ enclave.Inside store.addr :=
        rebase_outside ring fun _ => getInBuffer_targets
      simp only [State.step] at stepped
      split at stepped
      · cases stepped
        exact flips
      · cases stepped
        intro store member
        rcases List.mem_append.mp member with flipped | copied
        · exact flips store flipped
        · exact rebase_outside (pass input rfl) (fun _ => copyOut_reach _ beyond input.maxLength) store copied

/-- A put through the pointer the host has just passed in, over memory that
reads `OUT_SGX` everywhere, flips the first byte of the OUT bitmap. -/
theorem run_put (aead : Aead 16) (enclave : Enclave) (allowed : State → Call → Prop) (uioMem : Nat)
    (init : allowed .start (.auroraInit uioMem))
    (put : ∀ raw msgLen random memory, allowed ⟨uioMem, none⟩ (.putOut raw msgLen random memory)) :
    ∃ stores s, Run (Step aead enclave allowed) .start stores s ∧
      ⟨(uioMem + maxEntry) % 2 ^ 64, outSmm⟩ ∈ stores := by
  have pointed : Run (Step aead enclave allowed) .start [] ⟨uioMem, none⟩ := .single (.call _ init rfl)
  have written := pointed.next (.call (.putOut ⟨enclave.base, fun _ => 0⟩ 0 (fun _ => 0)
    (fun _ => outSgx)) (put _ _ _ _) rfl)
  refine ⟨_, _, written, ?_⟩
  have found : search .outbound Direction.outbound.sender
      (State.shm ⟨uioMem, none⟩ fun _ => outSgx) = some 0 :=
    search_first rfl
  have within : enclave.sgxIsWithinEnclave enclave.base (sizeT 0) = true :=
    enclave.within_base _ (by decide)
  have accepted : accept true ⟨enclave.base, fun _ => 0⟩ 0 (fun _ => 0) =
      .ok (padded ⟨enclave.base, fun _ => 0⟩ 0 fun _ => 0) := rfl
  simp only [Openssh.putOutBuffer, Aurora.put, within, accepted, putMessage, found, List.nil_append]
  refine List.mem_map.mpr ⟨flip .outbound 0 Direction.outbound.receiver, ?_, rfl⟩
  exact List.mem_append_right _ List.mem_cons_self

/-- In every run in which each call writes through pointers that lead outside
the enclave, no store hits the enclave. -/
theorem clear_pointers_protect_enclave (aead : Aead 16) (enclave : Enclave) {stores : List Store}
    {s : State} (run : Run (Step aead enclave (Clear enclave)) .start stores s) :
    ∀ store ∈ stores, ¬ enclave.Inside store.addr := by
  refine run.invariant (P := fun stores _ => ∀ store ∈ stores, ¬ enclave.Inside store.addr) ?_ ?_
  · simp
  · intro stores s emitted t held step store member
    cases step with
    | call c clear stepped =>
      rcases List.mem_append.mp member with earlier | new
      · exact held store earlier
      · exact step_outside clear stepped store new

theorem enclave_base_as_uio_mem :
    ∃ stores s, Run (Step (transparent 16) .sample fun _ _ => True) .start stores s ∧
      ∃ store ∈ stores, 0x10000 ≤ store.addr ∧ store.addr < 0x210000 := by
  obtain ⟨stores, s, run, member⟩ := run_put (transparent 16) .sample (fun _ _ => True) 0x10000 trivial
    fun _ _ _ _ => trivial
  exact ⟨stores, s, run, _, member, by decide, by decide⟩

theorem clear_pointers_protect_enclave_far_region :
    ∃ stores s, Run (Step (transparent 16) .sample (Clear .sample)) .start stores s ∧ stores ≠ [] ∧
      ∀ store ∈ stores, ¬ (0x10000 ≤ store.addr ∧ store.addr < 0x210000) := by
  have clear : Outside .sample 0x40000000 PutTarget := by
    intro offset target inside
    simp only [PutTarget, Enclave.Inside, Enclave.sample, Enclave.ofRange, maxEntry, pktSize] at target inside
    omega
  obtain ⟨stores, s, run, member⟩ := run_put (transparent 16) .sample (Clear _) 0x40000000 trivial
    fun _ _ _ _ => clear
  exact ⟨stores, s, run, List.ne_nil_of_mem member, clear_pointers_protect_enclave _ _ run⟩

end Aurora.HostPointers
