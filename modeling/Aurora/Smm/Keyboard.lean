import Mathlib.Logic.Function.Basic
import Aurora.Ring.Steps

/-! The keyboard supervisor: `supervisor()` of the keyboard firmware, entered on
every SMI. The first SMI takes the shared region and redirects the keyboard
interrupt to SMM; then every key byte arrives as an SMI until Enter is released,
which hands the typed text to the enclave and gives the interrupt back. -/
namespace Aurora.Smm
open Lib

/-- `init_ring_buffer` reads a `u64` at physical 0x64 and keeps what fits into
a 32-bit pointer. -/
def publishedBase (m : Memory) : Nat := m.word 0x64 8 % 2 ^ 32

/-- The region as SMM addresses it. -/
def region (m : Memory) (shmemBase : Nat) : Memory := m.window 32 shmemBase

/-! I/O APIC redirection registers, by register index. -/

abbrev IoApic := Nat → Nat

def ioredtbl (x : Nat) : Nat := 0x10 + 2 * x
def hijackedIrq : Nat := 0x12
def apicDmSmi : Nat := 0x200
def kbdIrq : Nat := 1
def nicIrq : Nat := 11

namespace Keyboard

def pckbdSysrqXlate : List UInt8 := [
  0x00, 0x1b, 0x31, 0x32, 0x33, 0x34, 0x35, 0x36, 0x37, 0x38, 0x39, 0x30, 0x2d, 0x3d, 0x7f, 0x09,
  0x71, 0x77, 0x65, 0x72, 0x74, 0x79, 0x75, 0x69, 0x6f, 0x70, 0x5b, 0x5d, 0x0d, 0x00, 0x61, 0x73,
  0x64, 0x66, 0x67, 0x68, 0x6a, 0x6b, 0x6c, 0x3b, 0x27, 0x60, 0x00, 0x5c, 0x7a, 0x78, 0x63, 0x76,
  0x62, 0x6e, 0x6d, 0x2c, 0x2e, 0x2f, 0x00, 0x2a, 0x00, 0x20, 0x00, 0x81, 0x82, 0x83, 0x84, 0x85,
  0x86, 0x87, 0x88, 0x89, 0x8a, 0x00, 0x00, 0x37, 0x38, 0x39, 0x2d, 0x34, 0x35, 0x36, 0x2b, 0x31,
  -- The literal for this row has two bytes too many, so the next one starts at 0x62.
  0x32, 0x33, 0x30, 0x7f, 0x00, 0x00, 0x8b, 0x8c, 0x00, 0x00, 0x00, 0x00, 0x00, 0x00, 0x00, 0x00,
  0x00, 0x00, 0x0d, 0x00, 0x2f, 0x00, 0x00, 0x00, 0x00, 0x00, 0x00, 0x00, 0x00, 0x00, 0x00, 0x00,
  0x00, 0x00, 0x00, 0x00, 0x00, 0x00, 0x00, 0x00, 0x00, 0x00, 0x00, 0x00, 0x00, 0x00, 0x00, 0x00]

def xlate (kbdData : UInt8) : UInt8 := pckbdSysrqXlate.getD kbdData.toNat 0

/-- The static variables of the supervisor and of the ring code. -/
structure State where
  isFirstPhrase : Bool
  i : Int
  kbdBuffer : List UInt8
  kbdVec : Nat
  nicVec : Nat
  shmemBase : Nat
  sized : kbdBuffer.length = 256

/-- As the firmware image is loaded. -/
def State.boot : State := ⟨true, 0, List.replicate 256 0, 0, 0, 0, List.length_replicate⟩

/-- `memset(kbd_buffer, 0, sizeof kbd_buffer)` -/
def State.clearBuffer (s : State) : State :=
  { s with kbdBuffer := List.replicate 256 0, sized := List.length_replicate }

/-- What an SMI finds: memory, the byte the i8042 delivers, and what SMM does
not control or initialise. -/
structure Smi where
  memory : Memory
  data : UInt8
  random : Memory
  /-- Where `kbd_buffer` lies in SMRAM, and the bytes that follow it. -/
  buffer : Nat
  beyond : Memory

def showIoredtbl (io : IoApic) (s : State) : State :=
  (List.range 24).foldl (fun s i =>
    let vectorAddress := io (ioredtbl i) % 256
    { s with
      kbdVec := if i = kbdIrq then vectorAddress else s.kbdVec
      nicVec := if i = nicIrq then vectorAddress else s.nicVec }) s

def hijackKeyboard (io : IoApic) (s : State) : State × IoApic :=
  ({ s with kbdVec := io hijackedIrq }, Function.update io hijackedIrq apicDmSmi)

def recoverKeyboard (io : IoApic) (s : State) : IoApic := Function.update io hijackedIrq s.kbdVec

/-- The argument of the put: the buffer, and 3824 bytes past its end. -/
def State.text (s : State) (smi : Smi) : Buffer :=
  ⟨smi.buffer, fun k => if k < 256 then s.kbdBuffer.getD k 0 else smi.beyond k⟩

/-- The constant length of the put passes its checks. -/
theorem accept_text (raw : Buffer) (random : Memory) :
    accept true raw 4080 random = .ok (padded raw 4080 random) :=
  accept_within raw random (by decide)

/-- One entry of the supervisor: static variables and I/O APIC afterwards, and
the stores to physical memory. `none`: `kbd_buffer` was indexed out of bounds. -/
def supervisor (aead : Aead 16) (smi : Smi) (io : IoApic) (s : State) :
    Option (State × IoApic × List Store) :=
  if s.isFirstPhrase then
    let s := { s with shmemBase := publishedBase smi.memory }
    let (s, io) := hijackKeyboard io (showIoredtbl io s)
    some ({ s.clearBuffer with isFirstPhrase := false }, io, rebase 32 s.shmemBase initRingBuffer)
  else if s.i = -1 then
    let (s, io) := hijackKeyboard io s
    some ({ s.clearBuffer with i := 0 }, io, [])
  else if smi.data = 0x9c then
    let put := Aurora.Keyboard.putInBuffer aead (s.text smi) 4080 smi.random
      (region smi.memory s.shmemBase)
    some ({ s with i := -1 }, recoverKeyboard io s, rebase 32 s.shmemBase put.2)
  else if smi.data ≤ 0x6f then
    if 0 ≤ s.i ∧ s.i < 256 then
      some ({ s with
          kbdBuffer := s.kbdBuffer.set s.i.toNat (xlate smi.data)
          i := s.i + 1
          sized := (List.length_set).trans s.sized }, io, [])
    else none
  else some (s, io, [])

/-! What each branch of the supervisor does. -/

section Branches
variable (aead : Aead 16) {smi : Smi} (io : IoApic) {s : State}

theorem supervisor_first (first : s.isFirstPhrase = true) : supervisor aead smi io s =
    some ({ s.clearBuffer with
        isFirstPhrase := false
        kbdVec := io hijackedIrq
        nicVec := io (ioredtbl nicIrq) % 256
        shmemBase := publishedBase smi.memory },
      Function.update io hijackedIrq apicDmSmi, rebase 32 (publishedBase smi.memory) initRingBuffer) := by
  rw [supervisor, if_pos first]
  rfl

theorem supervisor_rearm (later : s.isFirstPhrase = false) (ended : s.i = -1) :
    supervisor aead smi io s = some ({ s.clearBuffer with i := 0, kbdVec := io hijackedIrq },
      Function.update io hijackedIrq apicDmSmi, []) := by
  rw [supervisor, if_neg (by simp [later]), if_pos ended]
  rfl

theorem supervisor_enter (later : s.isFirstPhrase = false) (active : s.i ≠ -1)
    (enter : smi.data = 0x9c) : supervisor aead smi io s =
      some ({ s with i := -1 }, Function.update io hijackedIrq s.kbdVec,
        rebase 32 s.shmemBase (Aurora.Keyboard.putInBuffer aead (s.text smi) 4080 smi.random
          (region smi.memory s.shmemBase)).2) := by
  rw [supervisor, if_neg (by simp [later]), if_neg active, if_pos enter]
  rfl

theorem supervisor_make (later : s.isFirstPhrase = false) (low : 0 ≤ s.i) (room : s.i < 256)
    (make : smi.data ≤ 0x6f) : supervisor aead smi io s =
      some ({ s with
        kbdBuffer := s.kbdBuffer.set s.i.toNat (xlate smi.data)
        i := s.i + 1
        sized := List.length_set.trans s.sized }, io, []) := by
  have key : smi.data ≠ 0x9c := by
    rintro same
    rw [same] at make
    exact absurd make (by decide)
  rw [supervisor, if_neg (by simp [later]), if_neg (by omega), if_neg key, if_pos make,
    if_pos ⟨low, room⟩]

theorem supervisor_pass (later : s.isFirstPhrase = false) (active : s.i ≠ -1)
    (key : smi.data ≠ 0x9c) (high : ¬ smi.data ≤ 0x6f) :
    supervisor aead smi io s = some (s, io, []) := by
  rw [supervisor, if_neg (by simp [later]), if_neg active, if_neg key, if_neg high]

/-- The region is looked up on the first entry and never again. -/
theorem supervisor_latch (entered : supervisor aead smi io s = some r) :
    r.1.isFirstPhrase = false ∧
      r.1.shmemBase = if s.isFirstPhrase then publishedBase smi.memory else s.shmemBase := by
  cases first : s.isFirstPhrase with
  | true =>
    rw [supervisor_first aead io first] at entered
    cases entered
    exact ⟨rfl, rfl⟩
  | false =>
    rw [supervisor, if_neg (by simp [first])] at entered
    split at entered
    · cases entered
      exact ⟨first, rfl⟩
    split at entered
    · cases entered
      exact ⟨first, rfl⟩
    split at entered
    · split at entered
      · cases entered
        exact ⟨first, rfl⟩
      · contradiction
    · cases entered
      exact ⟨first, rfl⟩

/-- All it ever stores in memory is in the region it has taken. -/
theorem supervisor_stores (entered : supervisor aead smi io s = some r) :
    ∃ stores, r.2.2 = rebase 32 r.1.shmemBase stores ∧ ∀ t ∈ stores, t.addr < shmSize := by
  cases first : s.isFirstPhrase with
  | true =>
    rw [supervisor_first aead io first] at entered
    cases entered
    refine ⟨initRingBuffer, ?_, fun t => initRingBuffer_extent⟩
    dsimp only
  | false =>
    rw [supervisor, if_neg (by simp [first])] at entered
    split at entered
    · cases entered
      exact ⟨[], rfl, by simp⟩
    split at entered
    · cases entered
      exact ⟨_, rfl, fun t => put_extent⟩
    split at entered
    · split at entered
      · cases entered
        exact ⟨[], rfl, by simp⟩
      · contradiction
    · cases entered
      exact ⟨[], rfl, by simp⟩

end Branches

end Keyboard
end Aurora.Smm
