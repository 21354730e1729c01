import Aurora.Smm.Keyboard

/-! The USB supervisor: after the first SMI, every SMI wipes the key of the
report the OS driver keeps for the keyboard, at an address found at 0x100. -/
namespace Aurora.Smm.Usb
open Lib

structure State where
  isSupervisorOn : Bool
  shmemBase : Nat
  data : Nat

def State.boot : State := ⟨false, 0, 0⟩

/-- `&data->keys[0]` in `struct _keyevent` -/
def keys (data : Nat) : Nat := (data + 2) % 2 ^ 32

def supervisor (memory : Memory) (s : State) : State × List Store :=
  if s.isSupervisorOn = false then
    let base := publishedBase memory
    -- The report address is read after the region has been cleared.
    let cleared := memory.apply (rebase 32 base initRingBuffer)
    (⟨true, base, cleared.word 0x100 4⟩, rebase 32 base initRingBuffer)
  else (s, [⟨keys s.data, 0⟩])

end Aurora.Smm.Usb
