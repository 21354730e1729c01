import Aurora.Smm.WriteTargets

/-! The SMI entry of the firmware: `handle_smi` with the call of the supervisor, the
relocation of SMBASE, the trampoline between 16- and 32-bit code, and the setup that
installs it. The command port keeps its value, so an SMI that a device raises is
served under the last command anyone wrote. -/
namespace Aurora.Smm.Dispatch
open Lib WriteTargets

/-- The two layouts of `smm_state`. -/
inductive Format where
  | i32
  | i64
deriving DecidableEq, Repr

namespace Format

/-- The offset of `smm_base`. -/
def smmBase : Format → Nat
  | i32 => 0xf8
  | i64 => 0x100

/-- The offset of the eight registers that a trampoline call carries over, `eax` to
`edi` or `rdi` to `rax`. -/
def regs : Format → Nat
  | i32 => 0x1d0
  | i64 => 0x1c0

def regsSize : Format → Nat
  | i32 => 32
  | i64 => 64

/-- `ecx`, or the low half of `rcx`: which way the call goes. -/
def cx : Format → Nat
  | i32 => 0x1d4
  | i64 => 0x1f0

/-- `regs[3]`, or the low half of `regs[4]`: where it goes on. -/
def bx : Format → Nat
  | i32 => 0x1dc
  | i64 => 0x1e0

def ip : Format → Nat
  | i32 => 0x1f0
  | i64 => 0x178

def ipSize : Format → Nat
  | i32 => 4
  | i64 => 8

end Format

/-! The members of `smm_layout`, as offsets. -/

def stateSize : Nat := 0x200
def backup1 : Nat := 0
def backup2 : Nat := 0x200
def backupA20 : Nat := 0x400
def codeentry : Nat := 0x8000
def cpu : Nat := 0xfe00
def smmRev : Nat := 0xfc

def buildSmmInitAddr : Nat := 0x30000
def buildSmmAddr : Nat := 0xa0000

def supervisorCmd : UInt8 := 0xa0
def call32smmCmdid : UInt8 := 0xb5
def call32smmEnterid : Nat := 0x1234
def call32smmReturnid : Nat := 0x5678

/-- What `handle_smi` reads and changes: the supervisor's variables, physical memory
as SMM sees it, the two APM ports and the A20 port. -/
structure Machine where
  firmware : Firmware
  memory : Memory
  cmd : UInt8
  status : UInt8
  a20 : UInt8
  haveSmmCall32 : Bool

/-- Memory and the gate are what the trampoline and the processor change. -/
def Machine.put (m : Machine) (memory : Memory) (a20 : UInt8) : Machine := { m with memory, a20 }

/-- `smm_rev & SMM_REV_MASK` -/
def format (smmRev : Nat) : Option Format :=
  let rev := smmRev &&& 0x2ffff
  if rev = 0x20000 then some .i32 else if rev = 0x20064 then some .i64 else none

/-- `set_a20`: the new value of the port and the previous state of the gate. -/
def setA20 (cond : Bool) (val : UInt8) : UInt8 × Bool :=
  let enabled := val &&& 2 != 0
  (if enabled != cond then val ^^^ 2 else val, enabled)

/-- The first branch of `handle_smi`. -/
def supervise (aead : Aead 16) (input : Smi) (m : Machine) : Option Machine :=
  if m.cmd = supervisorCmd then
    (m.firmware.enter aead (input.withMemory m.memory)).map fun r =>
      { m with firmware := r.1, memory := m.memory.apply r.2 }
  else some m

def relocate (rev : Option Format) (m : Machine) : Machine :=
  match rev with
  -- warn_internalerror
  | none => m
  | some f =>
    let memory := m.memory.apply
      (blit (buildSmmInitAddr + cpu + f.smmBase) (littleEndian 4 buildSmmAddr))
    let memory := memory.copy (buildSmmAddr + backup1) (buildSmmInitAddr + cpu) stateSize
    let memory := memory.copy (buildSmmAddr + backup2) (buildSmmInitAddr + cpu) stateSize
    { m.put memory m.a20 with status := 0, haveSmmCall32 := true }

/-- A backup becomes the state to resume, with the registers of the interrupted one
and the address it asked for. -/
def switch (f : Format) (smm backup : Nat) (regs : List UInt8) (pc : Nat) (m : Memory) : Memory :=
  ((m.copy (smm + cpu) (smm + backup) stateSize).apply (blit (smm + cpu + f.regs) regs)).apply
    (blit (smm + cpu + f.ip) (littleEndian f.ipSize pc))

def trampoline (f : Format) (smm : Nat) (m : Machine) : Machine :=
  let regs := m.memory.read (smm + cpu + f.regs) f.regsSize
  let cx := m.memory.word (smm + cpu + f.cx) 4
  let pc := m.memory.word (smm + cpu + f.bx) 4
  if cx = call32smmEnterid then
    let memory := switch f smm backup1 regs pc (m.memory.copy (smm + backup2) (smm + cpu) stateSize)
    let a20 := setA20 true m.a20
    m.put (memory.apply (blit (smm + backupA20) (littleEndian 4 a20.2.toNat))) a20.1
  else if cx = call32smmReturnid then
    let memory := switch f smm backup2 regs pc m.memory
    m.put memory (if memory.word (smm + backupA20) 4 = 0 then (setA20 false m.a20).1 else m.a20)
  else m

def handleSmi (aead : Aead 16) (input : Smi) (smm : Nat) (m : Machine) : Option Machine :=
  let rev := format (m.memory.word (smm + cpu + smmRev) 4)
  (supervise aead input m).map fun m =>
    if smm = buildSmmInitAddr then relocate rev m
    else if m.cmd = call32smmCmdid then
      match rev with
      | some f => trampoline f smm m
      | none => m
    else m

/-- What the processor saves on an SMI and resumes after it. -/
abbrev SaveState := Fin stateSize → UInt8

/-- The processor stores its state below the end of the 64 KiB at SMBASE. -/
def Machine.interrupt (m : Machine) (smm : Nat) (saved : SaveState) : Machine :=
  m.put (m.memory.apply (blit (smm + cpu) (List.ofFn saved))) m.a20

def captured (m : Memory) (addr : Nat) : SaveState := fun k => m (addr + k)

/-- `SMI_INSN`, with the offset of `entry_smi` in the BIOS segment. -/
def smiInsn (entry : Nat) : List UInt8 :=
  littleEndian 8 (0xeac88c ||| 0xf000 <<< 40 ||| entry <<< 24)

def smmSaveAndCopy (entry : Nat) (m : Memory) : Memory :=
  let m := m.copy (buildSmmAddr + cpu) (buildSmmInitAddr + cpu) stateSize
  let m := m.copy (buildSmmAddr + codeentry) (buildSmmInitAddr + codeentry) 8
  m.apply (blit (buildSmmInitAddr + codeentry) (smiInsn entry))

/-- The last part of `smm_relocate_and_restore`. -/
def smmRestore (entry : Nat) (m : Memory) : Memory :=
  let m := m.copy (buildSmmInitAddr + cpu) (buildSmmAddr + cpu) stateSize
  let m := m.copy (buildSmmInitAddr + codeentry) (buildSmmAddr + codeentry) 8
  m.apply (blit (buildSmmAddr + codeentry) (smiInsn entry))

/-- The SMI comes with the write of the command; none if the wait for the status
never ends. -/
def smmRelocateAndRestore (aead : Aead 16) (entry : Nat) (saved : SaveState) (input : Smi) (m : Machine) :
    Option Machine :=
  let raised := { m with status := 1, cmd := 0 }.interrupt buildSmmInitAddr saved
  (handleSmi aead input buildSmmInitAddr raised).bind fun m =>
    if m.status ≠ 0 then none else some { m with memory := smmRestore entry m.memory }

/-- What `piix4_apmc_smm_setup` and `ich9_lpc_apmc_smm_setup` do between opening and
closing the SMM window. -/
def smmSetup (aead : Aead 16) (entry : Nat) (saved : SaveState) (input : Smi) (m : Machine) : Option Machine :=
  smmRelocateAndRestore aead entry saved input { m with memory := smmSaveAndCopy entry m.memory }

/-! Save areas as values. -/
namespace SaveState

def byte (s : SaveState) : Memory := fun k => if h : k < stateSize then s ⟨k, h⟩ else 0

def set (s : SaveState) (offset : Nat) (bytes : List UInt8) : SaveState := fun k =>
  if h : offset ≤ k ∧ k < offset + bytes.length then bytes[k - offset] else s k

/-- The state that the boot SMI resumes, with the new SMBASE. -/
def relocated (f : Format) (s : SaveState) : SaveState := s.set f.smmBase (littleEndian 4 buildSmmAddr)

/-- The registers that a call carries over and the address it asks for, on top of
another state. -/
def transfer (f : Format) (base s : SaveState) : SaveState :=
  (base.set f.regs (s.byte.read f.regs f.regsSize)).set f.ip (littleEndian f.ipSize (s.byte.word f.bx 4))

end SaveState

/-- The two calls of the trampoline. -/
inductive Call where
  | enter
  | leave
deriving DecidableEq, Repr

def Call.id : Call → Nat
  | enter => call32smmEnterid
  | leave => call32smmReturnid

/-- What an SMI under command `cmd` is taken for. -/
def call (cmd : UInt8) (s : SaveState) : Option (Format × Call) :=
  if cmd = call32smmCmdid then
    (format (s.byte.word smmRev 4)).bind fun f =>
      if s.byte.word f.cx 4 = call32smmEnterid then some (f, .enter)
      else if s.byte.word f.cx 4 = call32smmReturnid then some (f, .leave)
      else none
  else none

section Put
variable (m : Machine) (memory : Memory) (a20 : UInt8)

-- Not by `rfl`: as definitional equations they would have the kernel compare whole
-- machines, with all their stores, before it looks at the field.
@[simp] theorem put_memory : (m.put memory a20).memory = memory := by cases m; rfl

@[simp] theorem put_a20 : (m.put memory a20).a20 = a20 := by cases m; rfl

@[simp] theorem put_cmd : (m.put memory a20).cmd = m.cmd := by cases m; rfl

@[simp] theorem put_firmware : (m.put memory a20).firmware = m.firmware := by cases m; rfl

end Put

/-! The layout as equations, for the arithmetic of addresses; every field lies inside
the save area. -/
section Layout

theorem layout : stateSize = 0x200 ∧ backup1 = 0 ∧ backup2 = 0x200 ∧ backupA20 = 0x400 ∧ codeentry = 0x8000 ∧
    cpu = 0xfe00 ∧ buildSmmInitAddr = 0x30000 ∧ buildSmmAddr = 0xa0000 ∧ smramStart = 0xa0000 ∧
    smramEnd = 0xb0000 := by
  decide

theorem regs_inside (f : Format) : f.regs + f.regsSize ≤ stateSize := by cases f <;> decide

theorem ip_inside (f : Format) : f.ip + f.ipSize ≤ stateSize := by cases f <;> decide

theorem smmBase_inside (f : Format) : f.smmBase + 4 ≤ stateSize := by cases f <;> decide

theorem cx_inside (f : Format) : f.cx + 4 ≤ stateSize := by cases f <;> decide

theorem bx_inside (f : Format) : f.bx + 4 ≤ stateSize := by cases f <;> decide

variable (m : Memory) (addr : Nat)

theorem captured_byte {k : Nat} (inside : k < stateSize) : (captured m addr).byte k = m (addr + k) := by
  rw [SaveState.byte, dif_pos inside, captured]

theorem captured_word {offset width : Nat} (inside : offset + width ≤ stateSize) :
    (captured m addr).byte.word offset width = m.word (addr + offset) width := by
  refine Memory.word_congr fun k bound => ?_
  rw [captured_byte m addr (by omega), Nat.add_assoc]

theorem captured_read {offset count : Nat} (inside : offset + count ≤ stateSize) :
    (captured m addr).byte.read offset count = m.read (addr + offset) count := by
  refine Memory.read_congr fun k bound => ?_
  rw [captured_byte m addr (by omega), Nat.add_assoc]

theorem captured_congr {n : Memory} {other : Nat} (same : ∀ k < stateSize, m (addr + k) = n (other + k)) :
    captured m addr = captured n other :=
  funext fun k => same k k.isLt

theorem captured_copy (src : Nat) : captured (m.copy addr src stateSize) addr = captured m src := by
  refine captured_congr _ _ fun k bound => ?_
  rw [Memory.copy_get, if_pos (by omega), Nat.add_sub_cancel_left]

theorem captured_blit (offset : Nat) (bytes : List UInt8) :
    captured (m.apply (blit (addr + offset) bytes)) addr = (captured m addr).set offset bytes := by
  funext k
  have shifted : addr + k - (addr + offset) = k - offset := by omega
  have inside : (addr + offset ≤ addr + k ∧ addr + k < addr + offset + bytes.length) ↔
      (offset ≤ (k : Nat) ∧ (k : Nat) < offset + bytes.length) := by omega
  simp only [captured, SaveState.set, Memory.apply_blit, shifted, inside]

theorem captured_interrupt (m : Machine) (smm : Nat) (saved : SaveState) :
    captured (m.interrupt smm saved).memory (smm + cpu) = saved := by
  funext k
  simp [captured, Machine.interrupt, Memory.apply_blit]

/-- A field stored into a save area leaves what is outside it. -/
theorem blit_other {offset : Nat} {bytes : List UInt8} (inside : offset + bytes.length ≤ stateSize) {a : Nat}
    (apart : a < addr ∨ addr + stateSize ≤ a) : m.apply (blit (addr + offset) bytes) a = m a := by
  refine m.apply_frame fun s member => ?_
  have range := mem_blit member
  omega

theorem copy_other (src : Nat) {a : Nat} (apart : a < addr ∨ addr + stateSize ≤ a) :
    m.copy addr src stateSize a = m a := by
  rw [Memory.copy_get, if_neg (by omega)]

theorem interrupt_other (m : Machine) (smm : Nat) (saved : SaveState) {a : Nat}
    (apart : a < smm + cpu ∨ smm + cpu + stateSize ≤ a) : (m.interrupt smm saved).memory a = m.memory a := by
  simp only [Machine.interrupt, put_memory, Memory.apply_blit, List.length_ofFn]
  rw [dif_neg (by omega)]

end Layout

section Switch
variable (f : Format) (smm : Nat) (m : Memory)

/-- The bytes of the save area and nothing else change in a switch. -/
theorem switch_other {backup : Nat} {regs : List UInt8} (pc : Nat) (carried : regs.length = f.regsSize) {a : Nat}
    (apart : a < smm + cpu ∨ smm + cpu + stateSize ≤ a) : switch f smm backup regs pc m a = m a := by
  rw [switch, blit_other _ _ _ apart, blit_other _ _ _ apart, copy_other _ _ _ apart]
  · exact carried ▸ regs_inside f
  · rw [littleEndian_length]
    exact ip_inside f

theorem captured_switch {backup : Nat} (regs : List UInt8) (pc : Nat) :
    captured (switch f smm backup regs pc m) (smm + cpu) =
      ((captured m (smm + backup)).set f.regs regs).set f.ip (littleEndian f.ipSize pc) := by
  rw [switch, captured_blit, captured_blit, captured_copy]

end Switch

/-! The trampoline, as seen by the programs it switches between. -/
section Trampoline
variable (f : Format) (smm : Nat) (m : Machine)

theorem gate_other (memory : Memory) (value : Nat) {a : Nat} (apart : a < smm + backupA20 ∨ smm + backupA20 + 4 ≤ a) :
    memory.apply (blit (smm + backupA20) (littleEndian 4 value)) a = memory a := by
  refine memory.apply_frame fun s member => ?_
  have range := mem_blit member
  rw [littleEndian_length] at range
  omega

/-- Where the trampoline stores: the save area, the second backup and the gate. -/
theorem trampoline_other {a : Nat} (low : a < smm + backup2 ∨ smm + backupA20 + 4 ≤ a)
    (apart : a < smm + cpu ∨ smm + cpu + stateSize ≤ a) : (trampoline f smm m).memory a = m.memory a := by
  have layout := layout
  have carried : (m.memory.read (smm + cpu + f.regs) f.regsSize).length = f.regsSize := Memory.read_length _ _ _
  simp only [trampoline]
  split
  · rw [put_memory, gate_other, switch_other _ _ _ _ carried apart, copy_other]
    all_goals omega
  · split
    · rw [put_memory, switch_other _ _ _ _ carried apart]
    · rfl

theorem trampoline_ports : (trampoline f smm m).cmd = m.cmd ∧ (trampoline f smm m).firmware = m.firmware := by
  simp only [trampoline]
  split
  · simp only [put_cmd, put_firmware, and_self]
  · split <;> simp only [put_cmd, put_firmware, and_self]

theorem trampoline_enter (asked : (captured m.memory (smm + cpu)).byte.word f.cx 4 = call32smmEnterid) :
    captured (trampoline f smm m).memory (smm + cpu) =
      (captured m.memory (smm + backup1)).transfer f (captured m.memory (smm + cpu)) ∧
    captured (trampoline f smm m).memory (smm + backup2) = captured m.memory (smm + cpu) ∧
    (trampoline f smm m).memory.word (smm + backupA20) 4 = (setA20 true m.a20).2.toNat ∧
    (trampoline f smm m).a20 = (setA20 true m.a20).1 := by
  have layout := layout
  rw [captured_word _ _ (cx_inside f)] at asked
  have carried : (m.memory.read (smm + cpu + f.regs) f.regsSize).length = f.regsSize := Memory.read_length _ _ _
  simp only [trampoline, asked, if_true, put_memory, put_a20]
  refine ⟨?_, ?_, ?_, trivial⟩
  · rw [captured_congr _ _ fun k bound => gate_other smm _ _ (by omega), captured_switch,
      SaveState.transfer, captured_read _ _ (regs_inside f), captured_word _ _ (bx_inside f)]
    rw [captured_congr _ _ fun k bound => copy_other m.memory _ _ (by omega)]
  · rw [← captured_copy m.memory (smm + backup2)]
    refine captured_congr _ _ fun k bound => ?_
    rw [gate_other smm _ _ (by omega),
      switch_other _ _ _ _ carried (by omega)]
  · rw [Memory.word_apply_littleEndian]
    cases (setA20 true m.a20).2 <;> decide

theorem trampoline_leave (asked : (captured m.memory (smm + cpu)).byte.word f.cx 4 = call32smmReturnid) :
    captured (trampoline f smm m).memory (smm + cpu) =
      (captured m.memory (smm + backup2)).transfer f (captured m.memory (smm + cpu)) ∧
    (∀ a, a < smm + cpu → (trampoline f smm m).memory a = m.memory a) ∧
    (trampoline f smm m).a20 =
      if m.memory.word (smm + backupA20) 4 = 0 then (setA20 false m.a20).1 else m.a20 := by
  have layout := layout
  rw [captured_word _ _ (cx_inside f)] at asked
  have carried : (m.memory.read (smm + cpu + f.regs) f.regsSize).length = f.regsSize := Memory.read_length _ _ _
  simp only [trampoline, asked, if_neg (show call32smmReturnid ≠ call32smmEnterid by decide), if_true,
    put_memory, put_a20]
  refine ⟨?_, ?_, ?_⟩
  · rw [captured_switch, SaveState.transfer, captured_read _ _ (regs_inside f), captured_word _ _ (bx_inside f)]
  · intro a below
    exact switch_other _ _ _ _ carried (Or.inl below)
  · have gate : (switch f smm backup2 (m.memory.read (smm + cpu + f.regs) f.regsSize)
        (m.memory.word (smm + cpu + f.bx) 4) m.memory).word (smm + backupA20) 4 =
        m.memory.word (smm + backupA20) 4 := by
      refine Memory.word_congr fun k bound => ?_
      exact switch_other _ _ _ _ carried (by omega)
    rw [gate]

end Trampoline

/-! The setup, from the memory it finds to the one it leaves. -/
section Setup

/-- What the setup has installed: nothing outside SMRAM, and in it the entry code and
the two copies of the state that the boot SMI resumed. -/
structure Installed (entry : Nat) (boot : SaveState) (m t : Machine) : Prop where
  outside : ∀ a, ¬ InSmram a → t.memory a = m.memory a
  first : captured t.memory (buildSmmAddr + backup1) = boot
  second : captured t.memory (buildSmmAddr + backup2) = boot
  code : t.memory.read (buildSmmAddr + codeentry) 8 = smiInsn entry
  cmd : t.cmd = 0
  firmware : t.firmware = m.firmware
  a20 : t.a20 = m.a20

variable (entry : Nat) (m : Memory)

theorem smiInsn_length : (smiInsn entry).length = 8 := littleEndian_length _ _

/-- What was at the initial code entry and save area is kept in SMRAM meanwhile. -/
theorem smmSaveAndCopy_code {k : Nat} (bound : k < 8) :
    smmSaveAndCopy entry m (buildSmmAddr + codeentry + k) = m (buildSmmInitAddr + codeentry + k) := by
  simp only [smmSaveAndCopy, Memory.apply_blit, Memory.copy_get, smiInsn_length]
  have layout := layout
  rw [dif_neg (by omega), if_pos (by omega), if_neg (by omega), Nat.add_sub_cancel_left]

theorem smmSaveAndCopy_cpu {k : Nat} (bound : k < stateSize) :
    smmSaveAndCopy entry m (buildSmmAddr + cpu + k) = m (buildSmmInitAddr + cpu + k) := by
  simp only [smmSaveAndCopy, Memory.apply_blit, Memory.copy_get, smiInsn_length]
  have layout := layout
  rw [dif_neg (by omega), if_neg (by omega), if_pos (by omega), Nat.add_sub_cancel_left]

theorem smmSaveAndCopy_other {a : Nat} (outside : ¬ InSmram a)
    (apart : a < buildSmmInitAddr + codeentry ∨ buildSmmInitAddr + codeentry + 8 ≤ a) :
    smmSaveAndCopy entry m a = m a := by
  simp only [smmSaveAndCopy, Memory.apply_blit, Memory.copy_get, smiInsn_length]
  have layout := layout
  unfold InSmram at outside
  rw [dif_neg (by omega), if_neg (by omega), if_neg (by omega)]

/-- Outside SMRAM the restore puts the kept bytes back. -/
theorem smmRestore_outside {n : Memory} {a : Nat} (outside : ¬ InSmram a)
    (code : ∀ k < 8, m (buildSmmAddr + codeentry + k) = n (buildSmmInitAddr + codeentry + k))
    (area : ∀ k < stateSize, m (buildSmmAddr + cpu + k) = n (buildSmmInitAddr + cpu + k))
    (other : (a < buildSmmInitAddr + codeentry ∨ buildSmmInitAddr + codeentry + 8 ≤ a) →
      (a < buildSmmInitAddr + cpu ∨ buildSmmInitAddr + cpu + stateSize ≤ a) → m a = n a) :
    smmRestore entry m a = n a := by
  simp only [smmRestore, Memory.apply_blit, Memory.copy_get, smiInsn_length]
  have layout := layout
  unfold InSmram at outside
  rw [dif_neg (by omega)]
  by_cases entered : buildSmmInitAddr + codeentry ≤ a ∧ a < buildSmmInitAddr + codeentry + 8
  · rw [if_pos entered, if_neg (by omega), code _ (by omega), Nat.add_sub_cancel' entered.1]
  · rw [if_neg entered]
    by_cases saved : buildSmmInitAddr + cpu ≤ a ∧ a < buildSmmInitAddr + cpu + stateSize
    · rw [if_pos saved, area _ (by omega), Nat.add_sub_cancel' saved.1]
    · rw [if_neg saved]
      exact other (by omega) (by omega)

theorem smmRestore_low {a : Nat} (low : buildSmmAddr ≤ a) (below : a < buildSmmAddr + codeentry) :
    smmRestore entry m a = m a := by
  simp only [smmRestore, Memory.apply_blit, Memory.copy_get, smiInsn_length]
  have layout := layout
  rw [dif_neg (by omega), if_neg (by omega), if_neg (by omega)]

theorem smmRestore_code : (smmRestore entry m).read (buildSmmAddr + codeentry) 8 = smiInsn entry := by
  have back := Memory.read_apply_blit ((m.copy (buildSmmInitAddr + cpu) (buildSmmAddr + cpu) stateSize).copy
    (buildSmmInitAddr + codeentry) (buildSmmAddr + codeentry) 8) (buildSmmAddr + codeentry) (smiInsn entry)
  rwa [smiInsn_length] at back

end Setup

section Relocation
variable (f : Format) (m : Machine)

/-- The boot SMI changes its own save area and fills the two backups. -/
theorem relocate_other {a : Nat} (area : a < buildSmmInitAddr + cpu ∨ buildSmmInitAddr + cpu + stateSize ≤ a)
    (backups : a < buildSmmAddr ∨ buildSmmAddr + backup2 + stateSize ≤ a) :
    (relocate (some f) m).memory a = m.memory a := by
  have layout := layout
  simp only [relocate, put_memory]
  rw [copy_other, copy_other, blit_other _ _ _ area]
  · rw [littleEndian_length]
    exact smmBase_inside f
  all_goals omega

theorem captured_relocate :
    captured (relocate (some f) m).memory (buildSmmAddr + backup1) =
      (captured m.memory (buildSmmInitAddr + cpu)).relocated f ∧
    captured (relocate (some f) m).memory (buildSmmAddr + backup2) =
      (captured m.memory (buildSmmInitAddr + cpu)).relocated f := by
  have layout := layout
  simp only [relocate, put_memory]
  constructor
  · rw [captured_congr _ _ fun k bound => copy_other _ _ _ (by omega),
      captured_copy, captured_blit, SaveState.relocated]
  · rw [captured_copy, captured_congr _ _ fun k bound => copy_other _ _ _ (by omega), captured_blit,
      SaveState.relocated]

theorem interrupt_cmd (smm : Nat) (saved : SaveState) : (m.interrupt smm saved).cmd = m.cmd := by
  rw [Machine.interrupt, put_cmd]

theorem interrupt_firmware (smm : Nat) (saved : SaveState) : (m.interrupt smm saved).firmware = m.firmware := by
  rw [Machine.interrupt, put_firmware]

theorem interrupt_a20 (smm : Nat) (saved : SaveState) : (m.interrupt smm saved).a20 = m.a20 := by
  rw [Machine.interrupt, put_a20]

theorem relocate_ports : (relocate (some f) m).status = 0 ∧ (relocate (some f) m).cmd = m.cmd ∧
    (relocate (some f) m).firmware = m.firmware ∧ (relocate (some f) m).a20 = m.a20 := by
  simp only [relocate, put_cmd, put_firmware, put_a20, and_self]

theorem interrupt_word (smm : Nat) (saved : SaveState) {offset width : Nat} (inside : offset + width ≤ stateSize) :
    (m.interrupt smm saved).memory.word (smm + cpu + offset) width = saved.byte.word offset width := by
  rw [← captured_word _ _ inside, captured_interrupt]

theorem handleSmi_init (aead : Aead 16) (input : Smi) (other : m.cmd ≠ supervisorCmd) :
    handleSmi aead input buildSmmInitAddr m =
      some (relocate (format (m.memory.word (buildSmmInitAddr + cpu + smmRev) 4)) m) := by
  simp only [handleSmi, supervise, if_neg other, Option.map_some, if_true]

theorem handleSmi_boot (aead : Aead 16) (input : Smi) (saved : SaveState) (other : m.cmd ≠ supervisorCmd) :
    handleSmi aead input buildSmmInitAddr (m.interrupt buildSmmInitAddr saved) =
      some (relocate (format (saved.byte.word smmRev 4)) (m.interrupt buildSmmInitAddr saved)) := by
  rw [handleSmi_init, interrupt_word m buildSmmInitAddr saved (by decide)]
  rwa [interrupt_cmd]

/-- The boot SMI between the two halves of the setup. -/
theorem smmRestore_relocated (entry : Nat) (m : Memory) (p : Machine) (saved : SaveState)
    (prepared : p.memory = smmSaveAndCopy entry m) {a : Nat} (outside : ¬ InSmram a) :
    smmRestore entry (relocate (some f) (p.interrupt buildSmmInitAddr saved)).memory a = m a := by
  have layout := layout
  have kept {a : Nat} (area : a < buildSmmInitAddr + cpu ∨ buildSmmInitAddr + cpu + stateSize ≤ a)
      (backups : a < buildSmmAddr ∨ buildSmmAddr + backup2 + stateSize ≤ a) :
      (relocate (some f) (p.interrupt buildSmmInitAddr saved)).memory a = smmSaveAndCopy entry m a := by
    rw [relocate_other f _ area backups, interrupt_other p _ saved area, prepared]
  refine smmRestore_outside entry _ outside ?_ ?_ ?_
  · intro k bound
    rw [kept (by omega) (by omega), smmSaveAndCopy_code entry _ bound]
  · intro k bound
    rw [kept (by omega) (by omega), smmSaveAndCopy_cpu entry _ bound]
  · intro code area
    unfold InSmram at outside
    rw [kept area (by omega), smmSaveAndCopy_other entry _ outside code]

/-- A known format is relocated; with any other the setup waits forever. -/
theorem smmSetup_cases (aead : Aead 16) (entry : Nat) (saved : SaveState) (input : Smi) :
    match format (saved.byte.word smmRev 4) with
    | none => smmSetup aead entry saved input m = none
    | some f => ∃ t, smmSetup aead entry saved input m = some t ∧ Installed entry (saved.relocated f) m t := by
  have layout := layout
  have boot := handleSmi_boot { m with memory := smmSaveAndCopy entry m.memory, status := 1, cmd := 0 } aead input
    saved (show (0 : UInt8) ≠ supervisorCmd by decide)
  simp only [smmSetup, smmRelocateAndRestore, boot, Option.bind_some]
  cases format (saved.byte.word smmRev 4) with
  | none => rfl
  | some f =>
    obtain ⟨first, second⟩ := captured_relocate f
      (Machine.interrupt { m with memory := smmSaveAndCopy entry m.memory, status := 1, cmd := 0 } buildSmmInitAddr
        saved)
    obtain ⟨status, cmd, firmware, a20⟩ := relocate_ports f
      (Machine.interrupt { m with memory := smmSaveAndCopy entry m.memory, status := 1, cmd := 0 } buildSmmInitAddr
        saved)
    rw [captured_interrupt] at first second
    simp only [status, ne_eq, not_true, if_false]
    refine ⟨_, rfl, ?_, ?_, ?_, ?_, ?_, ?_, ?_⟩
    · intro a outside
      exact smmRestore_relocated f entry m.memory _ saved rfl outside
    · rw [← first]
      exact captured_congr _ _ fun k bound => smmRestore_low entry _ (by omega) (by omega)
    · rw [← second]
      exact captured_congr _ _ fun k bound => smmRestore_low entry _ (by omega) (by omega)
    · exact smmRestore_code entry _
    · rw [cmd, interrupt_cmd]
    · rw [firmware, interrupt_firmware]
    · rw [a20, interrupt_a20]

/-- The setup ends exactly for the two known formats. It gives back every byte outside
SMRAM, and leaves the entry code and both backups in it. -/
theorem setup_installs (aead : Aead 16) (entry : Nat) (saved : SaveState) (input : Smi) :
    ((smmSetup aead entry saved input m).isSome ↔ (format (saved.byte.word smmRev 4)).isSome) ∧
    ∀ t, smmSetup aead entry saved input m = some t →
      ∃ f, format (saved.byte.word smmRev 4) = some f ∧ Installed entry (saved.relocated f) m t := by
  have cases := smmSetup_cases m aead entry saved input
  cases known : format (saved.byte.word smmRev 4) with
  | none =>
    rw [known] at cases
    simp [cases]
  | some f =>
    rw [known] at cases
    obtain ⟨t, returned, installed⟩ := cases
    refine ⟨by simp [returned], fun other same => ⟨f, rfl, ?_⟩⟩
    cases returned.symm.trans same
    exact installed

end Relocation

/-! One SMI after the setup. -/
section Serve
variable {aead : Aead 16} {input : Smi} {m t : Machine} {saved : SaveState}

theorem call_asked {cmd : UInt8} {f : Format} {way : Call} (called : call cmd saved = some (f, way)) :
    saved.byte.word f.cx 4 = way.id := by
  unfold call at called
  split at called
  · obtain ⟨g, _, asked⟩ := Option.bind_eq_some_iff.mp called
    split at asked
    · rename_i enter
      cases asked
      exact enter
    · split at asked
      · rename_i leave
        cases asked
        exact leave
      · cases asked
  · cases called

theorem call_supervisor (saved : SaveState) : call supervisorCmd saved = none := if_neg (by decide)

/-- The SMI is for the supervisor, or for nobody, or a call. -/
theorem handleSmi_cases
    (served : handleSmi aead input buildSmmAddr (m.interrupt buildSmmAddr saved) = some t) :
    (m.cmd = supervisorCmd ∧ ∃ stores,
      m.firmware.enter aead (input.withMemory (m.interrupt buildSmmAddr saved).memory) = some (t.firmware, stores) ∧
      t.memory = (m.interrupt buildSmmAddr saved).memory.apply stores ∧ t.cmd = m.cmd ∧ t.a20 = m.a20) ∨
    (m.cmd ≠ supervisorCmd ∧ call m.cmd saved = none ∧ t = m.interrupt buildSmmAddr saved) ∨
    (m.cmd ≠ supervisorCmd ∧ ∃ f way, call m.cmd saved = some (f, way) ∧
      t = trampoline f buildSmmAddr (m.interrupt buildSmmAddr saved)) := by
  unfold handleSmi supervise at served
  have revision := interrupt_word m buildSmmAddr saved (show smmRev + 4 ≤ stateSize by decide)
  simp only [interrupt_cmd, interrupt_firmware, revision,
    if_neg (show buildSmmAddr ≠ buildSmmInitAddr by decide)] at served
  by_cases supervised : m.cmd = supervisorCmd
  · rw [if_pos supervised] at served
    obtain ⟨s, entered, rfl⟩ := Option.map_eq_some_iff.mp served
    obtain ⟨⟨firmware, stores⟩, taken, rfl⟩ := Option.map_eq_some_iff.mp entered
    have other : m.cmd ≠ call32smmCmdid := by
      rw [supervised]
      decide
    simp only [if_neg other]
    exact Or.inl ⟨supervised, stores, taken, rfl, trivial, interrupt_a20 m _ _⟩
  · rw [if_neg supervised, Option.map_some, Option.some.injEq, interrupt_cmd] at served
    refine Or.inr ?_
    unfold call
    split at served
    · rename_i called
      cases known : format (saved.byte.word smmRev 4) with
      | none =>
        rw [known] at served
        exact Or.inl ⟨supervised, by simp, served.symm⟩
      | some f =>
        rw [known] at served
        simp only [Option.bind_some, if_pos called]
        by_cases enter : saved.byte.word f.cx 4 = call32smmEnterid
        · refine Or.inr ⟨supervised, f, .enter, ?_, served.symm⟩
          rw [if_pos enter]
        · by_cases leave : saved.byte.word f.cx 4 = call32smmReturnid
          · refine Or.inr ⟨supervised, f, .leave, ?_, served.symm⟩
            rw [if_neg enter, if_pos leave]
          · refine Or.inl ⟨supervised, by rw [if_neg enter, if_neg leave], served.symm.trans ?_⟩
            simp only [trampoline, interrupt_word m _ saved (cx_inside f), if_neg enter, if_neg leave]
    · rename_i other
      exact Or.inl ⟨supervised, by rw [if_neg other], served.symm⟩

end Serve

end Aurora.Smm.Dispatch
