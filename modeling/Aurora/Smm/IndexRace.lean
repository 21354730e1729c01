import Aurora.Lib.Ports
import Aurora.Smm.Backdoor
import Aurora.Smm.Keyboard

/-! The supervisors at the level of ports. The I/O APIC and the NIC have an index port
and a data port, and the firmware puts back neither index; an access of the OS that an
SMI cuts in two goes on at the register that the supervisor selected last. -/
namespace Aurora.Smm.IndexRace
open Lib

/-! The keyboard supervisor and the I/O APIC. -/
section Keyboard
open Smm.Keyboard (State Smi xlate)

def ioApicBank : Bank Nat Nat IoApic where
  select io := io
  read reg io := (io reg, io)
  write reg value io := Function.update io reg value

def ioapicReadReg (reg : Nat) : Access Nat Nat Nat := .get reg

def ioapicWriteReg (reg value : Nat) : Access Nat Nat Unit := .set reg value

def showIoredtbl (s : State) : Access Nat Nat State :=
  (List.range 24).foldlM (fun s i => do
    let vectorAddress := (← ioapicReadReg (ioredtbl i)) % 256
    return { s with
      kbdVec := if i = kbdIrq then vectorAddress else s.kbdVec
      nicVec := if i = nicIrq then vectorAddress else s.nicVec }) s

def hijackKeyboard (s : State) : Access Nat Nat State := do
  let kbdVec ← ioapicReadReg hijackedIrq
  ioapicWriteReg hijackedIrq apicDmSmi
  return { s with kbdVec }

def recoverKeyboard (s : State) : Access Nat Nat Unit := ioapicWriteReg hijackedIrq s.kbdVec

theorem typed_sized (s : State) (smi : Smi) : (s.kbdBuffer.set s.i.toNat (xlate smi.data)).length = 256 :=
  (List.length_set).trans s.sized

/-- `supervisor` of the keyboard firmware; `none` as in its model on registers. -/
def supervisor (aead : Aead 16) (smi : Smi) (s : State) : Access Nat Nat (Option (State × List Store)) :=
  if s.isFirstPhrase then do
    let s ← showIoredtbl { s with shmemBase := publishedBase smi.memory }
    let s ← hijackKeyboard s
    return some ({ s.clearBuffer with isFirstPhrase := false }, rebase 32 s.shmemBase initRingBuffer)
  else if s.i = -1 then do
    let s ← hijackKeyboard s
    return some ({ s.clearBuffer with i := 0 }, [])
  else if smi.data = 0x9c then do
    let put := Aurora.Keyboard.putInBuffer aead (s.text smi) 4080 smi.random (region smi.memory s.shmemBase)
    recoverKeyboard s
    return some ({ s with i := -1 }, rebase 32 s.shmemBase put.2)
  else if smi.data ≤ 0x6f then
    if 0 ≤ s.i ∧ s.i < 256 then
      return some ({ s with
        kbdBuffer := s.kbdBuffer.set s.i.toNat (xlate smi.data)
        i := s.i + 1
        sized := typed_sized s smi }, [])
    else return none
  else return some (s, [])

/-- The first SMI, the one that arms again, and the release of Enter. -/
def Touches (s : State) (smi : Smi) : Prop := s.isFirstPhrase = true ∨ s.i = -1 ∨ smi.data = 0x9c

instance (s : State) (smi : Smi) : Decidable (Touches s smi) := inferInstanceAs (Decidable (_ ∨ _))

theorem direct_showIoredtbl (io : IoApic) (s : State) :
    (showIoredtbl s).direct ioApicBank io = (Keyboard.showIoredtbl io s, io) := by
  unfold showIoredtbl Keyboard.showIoredtbl
  generalize List.range 24 = lines
  induction lines generalizing s with
  | nil => rfl
  | cons i rest ih =>
    rw [List.foldlM_cons, Access.direct_bind, List.foldl_cons]
    exact ih _

theorem direct_hijackKeyboard (io : IoApic) (s : State) :
    (hijackKeyboard s).direct ioApicBank io = Keyboard.hijackKeyboard io s := rfl

theorem left_hijackKeyboard (io : IoApic) (s : State) :
    (hijackKeyboard s).left ioApicBank io = some hijackedIrq := rfl

theorem direct_recoverKeyboard (io : IoApic) (s : State) :
    (recoverKeyboard s).direct ioApicBank io = ((), Keyboard.recoverKeyboard io s) := rfl

theorem left_recoverKeyboard (io : IoApic) (s : State) :
    (recoverKeyboard s).left ioApicBank io = some hijackedIrq := rfl

theorem supervisor_direct (aead : Aead 16) (smi : Smi) (io : IoApic) (s : State) :
    (supervisor aead smi s).direct ioApicBank io =
      ((Keyboard.supervisor aead smi io s).map fun r => (r.1, r.2.2),
        ((Keyboard.supervisor aead smi io s).map fun r => r.2.1).getD io) := by
  unfold supervisor Keyboard.supervisor
  split
  · simp only [Access.direct_bind, direct_showIoredtbl, direct_hijackKeyboard, Access.direct_pure, Option.map_some,
      Option.getD_some]
  split
  · simp only [Access.direct_bind, direct_hijackKeyboard, Access.direct_pure, Option.map_some, Option.getD_some]
  split
  · simp only [Access.direct_bind, direct_recoverKeyboard, Access.direct_pure, Option.map_some, Option.getD_some]
  split
  · split <;> rfl
  · rfl

theorem supervisor_left (aead : Aead 16) (smi : Smi) (io : IoApic) (s : State) :
    (supervisor aead smi s).left ioApicBank io = if Touches s smi then some hijackedIrq else none := by
  unfold supervisor
  by_cases first : s.isFirstPhrase = true
  · have touches : Touches s smi := Or.inl first
    simp [first, touches, left_hijackKeyboard]
  by_cases ended : s.i = -1
  · have touches : Touches s smi := Or.inr (Or.inl ended)
    simp [first, ended, touches, left_hijackKeyboard]
  by_cases enter : smi.data = 0x9c
  · have touches : Touches s smi := Or.inr (Or.inr enter)
    simp [first, ended, enter, touches, left_recoverKeyboard]
  · have untouched : ¬ Touches s smi := by simp [Touches, first, ended, enter]
    rw [if_neg first, if_neg ended, if_neg enter, if_neg untouched]
    split
    · split <;> rfl
    · rfl

/-- The programs that an SMI may run, the state being lost if one overruns its buffer. -/
def Serves (aead : Aead 16) : Option State → Access Nat Nat (Option State) → Prop
  | some s, program => ∃ smi, program = (supervisor aead smi s >>= fun r => pure (r.map Prod.fst))
  | none, _ => False

theorem serves_left {aead : Aead 16} {state : Option State} {program : Access Nat Nat (Option State)}
    (serves : Serves aead state program) (io : IoApic) :
    program.left ioApicBank io = none ∨ program.left ioApicBank io = some hijackedIrq := by
  cases state with
  | none => cases serves
  | some s =>
    obtain ⟨smi, rfl⟩ := serves
    rw [Access.left_bind, Access.left_pure, supervisor_left]
    split
    · exact Or.inr rfl
    · exact Or.inl rfl

end Keyboard

/-! The network supervisor and the registers of the NIC, after its first SMI. -/
section Network
open Smm.Backdoor (Csr Device Shadow ioportRap ioportReadw ioportWritew)
variable (device : Device)

def csrBank : Bank Nat (BitVec 16) Csr where
  select := ioportRap
  read rap csr := ioportReadw device csr rap
  write rap val csr := ioportWritew device csr rap val

def readCsr (index : Nat) : Access Nat (BitVec 16) (BitVec 16) := .get index

def writeCsr (index : Nat) (val : BitVec 16) : Access Nat (BitVec 16) Unit := .set index val

def backdoorStep1 : Access Nat (BitVec 16) Shadow := do
  let csr5 := (← readCsr 5).setWidth 32
  writeCsr 5 0x0001
  let xmtrc ← readCsr 74
  writeCsr 5 (csr5.setWidth 16)
  return ⟨csr5, xmtrc⟩

def backdoorStep2 (shadow : Shadow) : Access Nat (BitVec 16) Shadow := do
  let csr5 := (← readCsr 5).setWidth 32
  writeCsr 74 shadow.xmtrc
  writeCsr 5 (csr5.setWidth 16)
  return { shadow with csr5 }

def backdoor : Access Nat (BitVec 16) Shadow := do
  let shadow ← backdoorStep1
  backdoorStep2 shadow

/-- `pcnet32_handler`; the receive path works on descriptors in memory. -/
def pcnet32Handler (shadow : Shadow) : Access Nat (BitVec 16) Shadow := do
  let int ← readCsr 0
  let shadow ← if int &&& 0x0200 ≠ 0 then backdoor else pure shadow
  if int &&& 0x0200 = 0 ∧ int &&& 0x0400 = 0 then backdoor else pure shadow

@[simp] theorem direct_readCsr (index : Nat) (csr : Csr) :
    (readCsr index).direct (csrBank device) csr = Backdoor.readCsr device csr index := rfl

@[simp] theorem left_readCsr (index : Nat) (csr : Csr) : (readCsr index).left (csrBank device) csr = some index := rfl

@[simp] theorem direct_backdoor (csr : Csr) :
    backdoor.direct (csrBank device) csr = ((Backdoor.backdoor device csr).2, (Backdoor.backdoor device csr).1) := rfl

@[simp] theorem left_backdoor (csr : Csr) : backdoor.left (csrBank device) csr = some 5 := rfl

theorem pcnet32Handler_direct (csr : Csr) (shadow : Shadow) :
    (pcnet32Handler shadow).direct (csrBank device) csr =
      ((Backdoor.pcnet32Handler device csr shadow).2, (Backdoor.pcnet32Handler device csr shadow).1) := by
  unfold pcnet32Handler Backdoor.pcnet32Handler
  by_cases sent : (Backdoor.readCsr device csr 0).1 &&& 512#16 = 0#16
  · by_cases received : (Backdoor.readCsr device csr 0).1 &&& 1024#16 = 0#16 <;> simp [sent, received]
  · simp [sent]

/-- With a receive interrupt alone CSR0 is all that is read; else CSR5 comes last. -/
theorem pcnet32Handler_left (csr : Csr) (shadow : Shadow) :
    (pcnet32Handler shadow).left (csrBank device) csr =
      some (if (Backdoor.readCsr device csr 0).1 &&& 0x0200 = 0 ∧
        (Backdoor.readCsr device csr 0).1 &&& 0x0400 ≠ 0 then 0 else 5) := by
  unfold pcnet32Handler
  by_cases sent : (Backdoor.readCsr device csr 0).1 &&& 512#16 = 0#16
  · by_cases received : (Backdoor.readCsr device csr 0).1 &&& 1024#16 = 0#16 <;> simp [sent, received]
  · simp [sent]

end Network

/-- Through the ports the keyboard supervisor does what it does to the registers. In any
interleaving with the OS, data comes from and goes to the register selected for it unless
one of the SMIs since was the first, armed again or saw Enter; then it is the redirection
entry of the keyboard. -/
theorem ioapic_data_reaches (aead : Aead 16) :
    (∀ smi s io, (supervisor aead smi s).direct ioApicBank io =
        ((Keyboard.supervisor aead smi io s).map fun r => (r.1, r.2.2),
          ((Keyboard.supervisor aead smi io s).map fun r => r.2.1).getD io) ∧
      (supervisor aead smi s).left ioApicBank io = if Touches s smi then some hijackedIrq else none) ∧
    ∀ (c d : Shared Nat IoApic (Option Keyboard.State)) history, c.asked = none →
      Run (Shared.Step ioApicBank (Serves aead)) c history d →
      Justified (fun before e => ∀ asked, e.asked = some asked →
        (outstanding before).asked = some asked ∧
        e.At ioApicBank (if (outstanding before).touched = none then asked else hijackedIrq)) history := by
  refine ⟨fun smi s io => ⟨supervisor_direct aead smi io s, supervisor_left aead smi io s⟩, ?_⟩
  intro c d history idle run
  have reached := Shared.reaches idle run
  have touched : Justified (fun before _ => ∀ i, (outstanding before).touched = some i → i = hijackedIrq) history := by
    refine Shared.touched (fun t program io i served left => ?_) run
    obtain none | some := serves_left served io
    · cases none.symm.trans left
    · exact (Option.some.inj (some.symm.trans left)).symm
  intro before e after split asked data
  obtain ⟨selected, effect⟩ := reached before e after split asked data
  refine ⟨selected, ?_⟩
  cases left : (outstanding before).touched with
  | none =>
    rw [left] at effect
    exact effect
  | some i =>
    rw [left, touched before e after split i left] at effect
    rwa [if_neg (by simp)]

/-- The OS reads the entry of IRQ 0 and writes 7 to it, and the first SMI comes after
it has selected it. -/
theorem ioapic_data_goes_astray :
    ∃ (c d : Shared Nat IoApic (Option Keyboard.State)) (value : Nat) (start final : IoApic), c.asked = none ∧
      Run (Shared.Step ioApicBank (Serves (transparent 16))) c
        [.select 0x10, .served (some hijackedIrq), .input 0x10 value start start, .output 0x10 7 start final] d ∧
      start 0x10 = 0 ∧ value = apicDmSmi ∧ final 0x10 = 0 ∧ final hijackedIrq = 7 := by
  let smi : Keyboard.Smi := ⟨fun _ => 0, 0, fun _ => 0, 0, fun _ => 0⟩
  let c : Shared Nat IoApic (Option Keyboard.State) := ⟨⟨0, fun _ => 0⟩, none, some .boot⟩
  let program := supervisor (transparent 16) smi .boot >>= fun r => pure (r.map Prod.fst)
  have left (io : IoApic) : program.left ioApicBank io = some hijackedIrq := by
    rw [Access.left_bind, Access.left_pure, supervisor_left]
    rfl
  obtain ⟨s, served, asked, zero, entry⟩ : ∃ s, Run (Shared.Step ioApicBank (Serves (transparent 16))) c
      [.select 0x10, .served (some hijackedIrq)] s ∧ s.asked = some 0x10 ∧ s.ports.regs 0x10 = 0 ∧
        s.ports.regs hijackedIrq = apicDmSmi := by
    have selected : Run (Shared.Step ioApicBank (Serves (transparent 16))) c [.select 0x10] _ := .single (.select 0x10)
    have served := selected.next (.serve program ⟨smi, rfl⟩)
    rw [left] at served
    exact ⟨_, served, rfl, rfl, rfl⟩
  have run := (served.next (.input asked)).next (.output 7 asked)
  have reached := (ioapic_data_reaches (transparent 16)).2 _ _ _ rfl run
  have read : (s.ports.regs hijackedIrq, s.ports.regs) = _ := (reached [_, _] _ [_] rfl _ rfl).2
  have written : _ = Function.update s.ports.regs hijackedIrq 7 := (reached [_, _, _] _ [] rfl _ rfl).2
  refine ⟨c, _, _, _, _, rfl, run, zero, ?_, ?_, ?_⟩
  · exact (congrArg Prod.fst read).symm.trans entry
  · rw [written, Function.update_of_ne (by decide), zero]
  · rw [written, Function.update_self]

/-- The programs that an SMI of the network firmware may run. -/
def ServesNic (shadow : Backdoor.Shadow) (program : Access Nat (BitVec 16) Backdoor.Shadow) : Prop :=
  program = pcnet32Handler shadow

/-- The same for the NIC: every SMI moves its index, to CSR0 or CSR5. -/
theorem csr_data_reaches (device : Backdoor.Device) :
    (∀ shadow csr, (pcnet32Handler shadow).direct (csrBank device) csr =
        ((Backdoor.pcnet32Handler device csr shadow).2, (Backdoor.pcnet32Handler device csr shadow).1) ∧
      ∃ rap, (pcnet32Handler shadow).left (csrBank device) csr = some rap ∧ (rap = 0 ∨ rap = 5)) ∧
    ∀ (c d : Shared Nat Backdoor.Csr Backdoor.Shadow) history, c.asked = none →
      Run (Shared.Step (csrBank device) ServesNic) c history d →
      Justified (fun before e => ∀ asked, e.asked = some asked →
        (outstanding before).asked = some asked ∧
        e.At (csrBank device) ((outstanding before).touched.getD asked) ∧
        ∀ rap, (outstanding before).touched = some rap → rap = 0 ∨ rap = 5) history := by
  have left (shadow : Backdoor.Shadow) (csr : Backdoor.Csr) :
      ∃ rap, (pcnet32Handler shadow).left (csrBank device) csr = some rap ∧ (rap = 0 ∨ rap = 5) := by
    refine ⟨_, pcnet32Handler_left device csr shadow, ?_⟩
    split
    · exact Or.inl rfl
    · exact Or.inr rfl
  refine ⟨fun shadow csr => ⟨pcnet32Handler_direct device csr shadow, left shadow csr⟩, ?_⟩
  intro c d history idle run
  have reached := Shared.reaches idle run
  have touched : Justified (fun before _ => ∀ i, (outstanding before).touched = some i → i = 0 ∨ i = 5) history := by
    refine Shared.touched (fun shadow program csr i served last => ?_) run
    obtain ⟨rap, same, known⟩ := left shadow csr
    rw [served, same] at last
    exact Option.some.inj last ▸ known
  intro before e after split asked data
  obtain ⟨selected, effect⟩ := reached before e after split asked data
  exact ⟨selected, effect, touched before e after split⟩

/-- The OS asks for CSR4, and a transmit interrupt comes in between: it gets CSR5. -/
theorem csr_data_goes_astray :
    ∃ (c d : Shared Nat Backdoor.Csr Backdoor.Shadow) (value : BitVec 16) (start final : Backdoor.Csr),
      c.asked = none ∧
      Run (Shared.Step (csrBank Backdoor.inert) ServesNic) c
        [.select 4, .served (some 5), .input 4 value start final] d ∧
      start 4 = 0x0915 ∧ value = 0x0001 := by
  let csr : Backdoor.Csr := fun r => if r = 0 then 0x0280 else if r = 4 then 0x0915 else if r = 5 then 1 else 0
  let c : Shared Nat Backdoor.Csr Backdoor.Shadow := ⟨⟨0, csr⟩, none, ⟨0, 0⟩⟩
  have settled : Backdoor.ioportRap csr = Backdoor.settle csr 1 := Backdoor.updateIrq_updateIrq csr
  have txInt : Backdoor.settle csr 1 0 &&& 0x0200 ≠ 0 := by decide
  obtain ⟨s, served, asked, regs⟩ : ∃ s, Run (Shared.Step (csrBank Backdoor.inert) ServesNic) c
      [.select 4, .served (some 5)] s ∧ s.asked = some 4 ∧ s.ports.regs = Backdoor.settle csr 1 := by
    have selected : Run (Shared.Step (csrBank Backdoor.inert) ServesNic) c [.select 4] _ := .single (.select 4)
    have served := selected.next (.serve (pcnet32Handler ⟨0, 0⟩) rfl)
    have left : (pcnet32Handler ⟨0, 0⟩).left (csrBank Backdoor.inert) (Backdoor.ioportRap csr) = some 5 := by
      rw [pcnet32Handler_left, settled, Backdoor.readCsr_txInt, if_neg fun both => txInt both.1]
    refine ⟨_, left ▸ served, rfl, ?_⟩
    rw [Access.run_eq, pcnet32Handler_direct]
    change (Backdoor.pcnet32Handler Backdoor.inert (Backdoor.ioportRap csr) ⟨0, 0⟩).1 = _
    rw [settled, Backdoor.pcnet32Handler_txInt _ _ _ txInt, Backdoor.settle_settle, Backdoor.settle_five]
    exact congrArg (Backdoor.settle csr) (by decide)
  have run := served.next (.input asked)
  have read := ((csr_data_reaches Backdoor.inert).2 _ _ _ rfl run [_, _] _ [] rfl _ rfl).2.1
  refine ⟨c, _, _, _, _, rfl, run, ?_, ?_⟩
  · rw [regs]
    decide
  · have value : (Backdoor.ioportReadw Backdoor.inert s.ports.regs 5).1 = _ := congrArg Prod.fst read
    rw [regs, Backdoor.ioportReadw, Backdoor.updateIrq_settle] at value
    exact value.symm

end Aurora.Smm.IndexRace
