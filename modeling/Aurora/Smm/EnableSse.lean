import Aurora.Lib.Bytes
import Aurora.Smm.Keyboard

/-! `enable_sse`, which every supervisor runs first. Its operands are in the order of
another assembler: what should change CR0 changes two words of low memory, in the
tables of the OS, and CR0 stays as it was. -/
namespace Aurora.Smm.EnableSse
open Lib

/-- What the seven instructions use; in SMM addresses are physical. -/
structure Cpu where
  eax : BitVec 32
  cr0 : BitVec 32
  cr4 : BitVec 32
  memory : Memory

/-- The instructions, the destination last as the assembler reads them. -/
inductive Instruction where
  | movlCr0Eax
  | movlEaxCr0
  | movlCr4Eax
  | movlEaxCr4
  | andlEax (addr : Nat)
  | orlEax (addr : Nat)
  | orlImmEax (value : BitVec 32)

/-- The stores of a read-modify-write of a doubleword. -/
def rewritten (m : Memory) (addr : Nat) (f : BitVec 32 → BitVec 32) : List Store :=
  blit addr (bytes 4 (f (load 32 (m.read addr 4))))

def modify (m : Memory) (addr : Nat) (f : BitVec 32 → BitVec 32) : Memory := m.apply (rewritten m addr f)

def Instruction.exec (cpu : Cpu) : Instruction → Cpu
  | movlCr0Eax => { cpu with eax := cpu.cr0 }
  | movlEaxCr0 => { cpu with cr0 := cpu.eax }
  | movlCr4Eax => { cpu with eax := cpu.cr4 }
  | movlEaxCr4 => { cpu with cr4 := cpu.eax }
  | andlEax addr => { cpu with memory := modify cpu.memory addr (· &&& cpu.eax) }
  | orlEax addr => { cpu with memory := modify cpu.memory addr (· ||| cpu.eax) }
  | orlImmEax value => { cpu with eax := cpu.eax ||| value }

def enableSse (cpu : Cpu) : Cpu :=
  [.movlCr0Eax, .andlEax 0xfffb, .orlEax 0x2, .movlEaxCr0, .movlCr4Eax, .orlImmEax 1536, .movlEaxCr4].foldl
    Instruction.exec cpu

/-- What one run stores, in program order. -/
def stores (cr0 : BitVec 32) (m : Memory) : List Store :=
  rewritten m 0xfffb (· &&& cr0) ++ rewritten (modify m 0xfffb (· &&& cr0)) 0x2 (· ||| cr0)

theorem enableSse_stores (cpu : Cpu) : (enableSse cpu).memory = cpu.memory.apply (stores cpu.cr0 cpu.memory) := by
  rw [stores, Memory.apply_append]
  rfl

theorem stores_low {cr0 : BitVec 32} {m : Memory} {s : Store} (member : s ∈ stores cr0 m) : s.addr < 0x10000 := by
  rcases List.mem_append.mp member with high | table
  · have range := mem_blit high
    rw [bytes_length] at range
    omega
  · have range := mem_blit table
    rw [bytes_length] at range
    omega

/-! Bytes of words. -/

theorem byteAt_and (v u : BitVec w) (i : Nat) : byteAt (v &&& u) i = byteAt v i &&& byteAt u i := by
  simp only [byteAt, BitVec.extractLsb'_and]
  rfl

theorem byteAt_or (v u : BitVec w) (i : Nat) : byteAt (v ||| u) i = byteAt v i ||| byteAt u i := by
  simp only [byteAt, BitVec.extractLsb'_or]
  rfl

theorem modify_get (m : Memory) (addr : Nat) (f : BitVec 32 → BitVec 32) (a : Nat) :
    modify m addr f a = if addr ≤ a ∧ a < addr + 4 then byteAt (f (load 32 (m.read addr 4))) (a - addr) else m a := by
  simp only [modify, rewritten, Memory.apply_blit, bytes_length]
  split
  · simp [bytes]
  · rfl

theorem byteAt_read (m : Memory) (addr : Nat) {i : Nat} (inside : i < 4) :
    byteAt (load 32 (m.read addr 4)) i = m (addr + i) := by
  rw [byteAt_load _ (by omega)]
  simp [Memory.read, List.getD, inside]

/-- A byte of low memory after one run, from the byte before it. -/
def overwrite (a : Nat) (byte : UInt8) (cr0 : BitVec 32) : UInt8 :=
  if 0xfffb ≤ a ∧ a < 0xffff then byte &&& byteAt cr0 (a - 0xfffb)
  else if 2 ≤ a ∧ a < 6 then byte ||| byteAt cr0 (a - 2)
  else byte

theorem overwrite_other {a : Nat} (apart : 6 ≤ a ∧ a < 0xfffb ∨ 0xffff ≤ a) (byte : UInt8) (cr0 : BitVec 32) :
    overwrite a byte cr0 = byte := by
  rw [overwrite, if_neg (by omega), if_neg (by omega)]

theorem enableSse_memory (cpu : Cpu) (a : Nat) : (enableSse cpu).memory a = overwrite a (cpu.memory a) cpu.cr0 := by
  simp only [enableSse, List.foldl_cons, List.foldl_nil, Instruction.exec]
  rw [modify_get]
  unfold overwrite
  by_cases table : 2 ≤ a ∧ a < 6
  · rw [if_pos (by omega), if_neg (by omega), if_pos table, byteAt_or, byteAt_read _ _ (by omega), modify_get,
      if_neg (by omega), Nat.add_sub_cancel' table.1]
  · rw [if_neg (by omega), modify_get]
    by_cases high : 0xfffb ≤ a ∧ a < 0xffff
    · rw [if_pos (by omega), if_pos high, byteAt_and, byteAt_read _ _ (by omega), Nat.add_sub_cancel' high.1]
    · rw [if_neg (by omega), if_neg high, if_neg table]

theorem apply_stores (cr0 : BitVec 32) (m : Memory) : m.apply (stores cr0 m) = fun a => overwrite a (m a) cr0 := by
  rw [← enableSse_stores ⟨0, cr0, 0, m⟩]
  exact funext (enableSse_memory ⟨0, cr0, 0, m⟩)

/-- The address of the region is not in the way. -/
theorem publishedBase_stores (cr0 : BitVec 32) (m : Memory) :
    publishedBase (m.apply (stores cr0 m)) = publishedBase m := by
  have kept (k : Nat) (bound : k < 8) : m.apply (stores cr0 m) (0x64 + k) = m (0x64 + k) := by
    rw [apply_stores]
    exact overwrite_other (by omega) _ cr0
  rw [publishedBase, Memory.word_congr kept, publishedBase]

/-! Whole runs of the keyboard firmware. -/
section Runs

/-- An SMI with what it finds besides memory. -/
structure Entry where
  eax : BitVec 32
  cr0 : BitVec 32
  cr4 : BitVec 32
  data : UInt8
  random : Memory
  buffer : Nat
  beyond : Memory
  io : IoApic

/-- `supervisor` with its first call. -/
def enter (aead : Aead 16) (e : Entry) (m : Memory) (s : Keyboard.State) : Option (Memory × Keyboard.State) :=
  let cpu := enableSse ⟨e.eax, e.cr0, e.cr4, m⟩
  (Keyboard.supervisor aead ⟨cpu.memory, e.data, e.random, e.buffer, e.beyond⟩ e.io s).map fun r =>
    (cpu.memory.apply r.2.2, r.1)

def enterAll (aead : Aead 16) : List Entry → Memory → Keyboard.State → Option (Memory × Keyboard.State)
  | [], m, s => some (m, s)
  | e :: rest, m, s => (enter aead e m s).bind fun r => enterAll aead rest r.1 r.2

/-- Not in the shared region. -/
def Outside (base a : Nat) : Prop := ∀ k < shmSize, (base + k) % 2 ^ 32 ≠ a

variable {aead : Aead 16} {m n : Memory} {s t : Keyboard.State}

theorem enter_latch {e : Entry} (entered : enter aead e m s = some (n, t)) :
    t.isFirstPhrase = false ∧ (s.isFirstPhrase = false → t.shmemBase = s.shmemBase) := by
  obtain ⟨r, supervised, same⟩ := Option.map_eq_some_iff.mp entered
  cases same
  obtain ⟨later, base⟩ := Keyboard.supervisor_latch aead e.io supervised
  refine ⟨later, fun started => ?_⟩
  rw [base, if_neg (by simp [started])]

theorem enterAll_latch {entries : List Entry} (started : s.isFirstPhrase = false)
    (entered : enterAll aead entries m s = some (n, t)) : t.shmemBase = s.shmemBase := by
  induction entries generalizing m s with
  | nil =>
    cases entered
    rfl
  | cons e rest ih =>
    obtain ⟨⟨middle, next⟩, first, others⟩ := Option.bind_eq_some_iff.mp entered
    obtain ⟨later, base⟩ := enter_latch first
    rw [ih later others, base started]

theorem enter_outside {e : Entry} (entered : enter aead e m s = some (n, t)) {a : Nat}
    (outside : Outside t.shmemBase a) : n a = overwrite a (m a) e.cr0 := by
  obtain ⟨r, supervised, same⟩ := Option.map_eq_some_iff.mp entered
  cases same
  obtain ⟨stores, region, inside⟩ := Keyboard.supervisor_stores aead e.io supervised
  rw [region, Memory.apply_frame, enableSse_memory]
  intro store member
  obtain ⟨offset, given, rfl⟩ := List.mem_map.mp member
  exact outside _ (inside offset given)

/-- `enable_sse` never changes CR0. Over every run of SMIs the keyboard firmware changes
exactly eight bytes outside the shared region, by the bits of CR0. -/
theorem low_memory_after_smis {entries : List Entry} (entered : enterAll aead entries m s = some (n, t)) :
    (∀ cpu, (enableSse cpu).cr0 = cpu.cr0) ∧
    ∀ a, Outside t.shmemBase a → n a = entries.foldl (fun byte e => overwrite a byte e.cr0) (m a) := by
  refine ⟨fun cpu => rfl, fun a outside => ?_⟩
  induction entries generalizing m s with
  | nil =>
    cases entered
    rfl
  | cons e rest ih =>
    obtain ⟨⟨middle, next⟩, first, others⟩ := Option.bind_eq_some_iff.mp entered
    have base := enterAll_latch (enter_latch first).1 others
    rw [ih others, List.foldl_cons, ← enter_outside first (base ▸ outside)]

end Runs

/-- A released key changes the first vector of the interrupt table. -/
theorem interrupt_table_after_key : ∃ n t,
    enterAll (transparent 16) [⟨0, 0x11, 0, 0xff, fun _ => 0, 0, fun _ => 0, fun _ => 0⟩] (fun _ => 0)
      { Keyboard.State.boot with isFirstPhrase := false, shmemBase := 0x1000000 } = some (n, t) ∧ n 2 = 0x11 := by
  let s : Keyboard.State := { Keyboard.State.boot with isFirstPhrase := false, shmemBase := 0x1000000 }
  let e : Entry := ⟨0, 0x11, 0, 0xff, fun _ => 0, 0, fun _ => 0, fun _ => 0⟩
  have entered : enterAll (transparent 16) [e] (fun _ => 0) s =
      some ((enableSse ⟨0, 0x11, 0, fun _ => 0⟩).memory, s) := by
    rw [enterAll, enter, Keyboard.supervisor_pass (transparent 16) _ rfl (by decide) (by decide) (by decide)]
    rfl
  refine ⟨_, _, entered, ?_⟩
  rw [(low_memory_after_smis entered).2 2 (by
    intro k small
    simp only [s, shmSize] at *
    omega)]
  decide

end Aurora.Smm.EnableSse
