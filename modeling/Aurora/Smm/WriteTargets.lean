import Aurora.Smm.EnableSse
import Aurora.Smm.Interception
import Aurora.Smm.Usb

/-! Where SMM writes on behalf of addresses it takes from the OS: the base of
the shared region at 0x64, the report pointer at 0x100, and the receive ring
behind the NIC's init block. SMRAM is safe exactly as long as those lead
elsewhere; `is_within_smram` looks at none of them. -/
namespace Aurora.Smm.WriteTargets
open Lib

/-- The three supervisors, with their static variables. -/
inductive Firmware where
  | network (s : Network.State)
  | keyboard (s : Keyboard.State)
  | usb (s : Usb.State)

inductive Image where
  | network
  | keyboard
  | usb
deriving DecidableEq, Repr

def Image.boot : Image → Firmware
  | network => .network .boot
  | keyboard => .keyboard .boot
  | usb => .usb .boot

/-- `shmem_base`, once the first SMI has set it. -/
def Firmware.base : Firmware → Option Nat
  | network s => if s.isFirstPhrase then none else some s.shmemBase
  | keyboard s => if s.isFirstPhrase then none else some s.shmemBase
  | usb s => if s.isSupervisorOn then some s.shmemBase else none

/-- What a supervisor serves after `enable_sse`, with everything it reads. `getOut` is
a call of `get_out_buffer` as the transmit path makes it, in whichever image that path
is compiled in. -/
inductive Request where
  | network (smi : Network.Smi)
  | keyboard (smi : Keyboard.Smi) (io : IoApic)
  | usb (memory : Memory)
  | getOut (message : Nat) (reply : Reply) (memory : Memory)

namespace Request

def memory : Request → Memory
  | network smi => smi.memory
  | keyboard smi _ => smi.memory
  | usb memory => memory
  | getOut _ _ memory => memory

def withMemory (memory : Memory) : Request → Request
  | network smi => .network { smi with memory }
  | keyboard smi io => .keyboard { smi with memory } io
  | usb _ => .usb memory
  | getOut message reply _ => .getOut message reply memory

end Request

/-- An SMI: the request, in the memory that it finds, and CR0. -/
structure Smi where
  cr0 : BitVec 32
  request : Request

def Smi.withMemory (memory : Memory) (smi : Smi) : Smi := { smi with request := smi.request.withMemory memory }

/-- The stores of `enable_sse`. -/
def Smi.sse (smi : Smi) : List Store := EnableSse.stores smi.cr0 smi.request.memory

/-- What the rest of the supervisor works on. -/
def Smi.started (smi : Smi) : Request := smi.request.withMemory (smi.request.memory.apply smi.sse)

def Firmware.serve (aead : Aead 16) : Firmware → Request → Option (Firmware × List Store)
  | network s, .network smi => (Network.supervisor aead smi s).map fun r => (.network r.1, r.2)
  | keyboard s, .keyboard smi io =>
    (Keyboard.supervisor aead smi io s).map fun r => (.keyboard r.1, r.2.2)
  | usb s, .usb memory => some (.usb (Usb.supervisor memory s).1, (Usb.supervisor memory s).2)
  | firmware, .getOut message reply memory => firmware.base.map fun base =>
    (firmware, rebase 32 base (Aurora.Network.getOutBuffer aead.decrypt message reply
      (region memory base)).2.2)
  | _, _ => none

/-- The firmware afterwards and the stores outside its own variables. -/
def Firmware.enter (aead : Aead 16) (s : Firmware) (smi : Smi) : Option (Firmware × List Store) :=
  (s.serve aead smi.started).map fun r => (r.1, smi.sse ++ r.2)

/-- The region, wrapped at 4 GiB, does not meet SMRAM. -/
def BaseClear (base : Nat) : Prop := smramEnd ≤ base ∧ base + shmSize ≤ 2 ^ 32 + smramStart

/-- None of these bytes, wrapped at 4 GiB, is in SMRAM. -/
def RangeClear (start size : Nat) : Prop := ∀ k < size, ¬ InSmram ((start + k) % 2 ^ 32)

/-- None of the addresses that a request takes from the OS leads into SMRAM. -/
def RequestClear : Firmware → Request → Prop
  | .network s, .network smi =>
    if s.isFirstPhrase then BaseClear (publishedBase smi.memory)
    else (smi.csr 0).toNat.testBit Network.rxInt →
      RangeClear (Network.rxRing smi.memory s.initBlock) (Network.rxRingSize * Network.rxDescSize)
  | .keyboard s, .keyboard smi _ => s.isFirstPhrase → BaseClear (publishedBase smi.memory)
  | .usb s, .usb memory =>
    if s.isSupervisorOn then ¬ InSmram (Usb.keys s.data) else BaseClear (publishedBase memory)
  | _, _ => True

/-- What the OS must see to before an SMI. -/
def Clear (s : Firmware) (smi : Smi) : Prop := RequestClear s smi.started

inductive Step (aead : Aead 16) (allowed : Firmware → Smi → Prop) :
    Firmware → List Store → Firmware → Prop where
  | smi (smi : Smi) : allowed s smi → s.enter aead smi = some (t, stores) →
      Step aead allowed s stores t

def Spared (stores : List Store) : Prop := ∀ store ∈ stores, ¬ InSmram store.addr

theorem Spared.append (first : Spared stores) (second : Spared more) : Spared (stores ++ more) := by
  intro store member
  rcases List.mem_append.mp member with early | late
  · exact first store early
  · exact second store late

theorem base_range (clear : BaseClear base) : RangeClear base shmSize := by
  intro k small inside
  simp only [BaseClear, InSmram, smramStart, smramEnd, smramSize, shmSize] at *
  omega

theorem range_spared (clear : RangeClear start size) (inside : ∀ s ∈ stores, s.addr < size) :
    Spared (rebase 32 start stores) := by
  intro store member
  obtain ⟨s, original, rfl⟩ := mem_rebase member
  exact clear _ (inside s original)

section Receive
variable {aead : Aead 16} {base ring i : Nat} {stack : Network.Stack} {m : Memory} {stores : List Store}

/-- One descriptor: the put stays in the region, the clear in the ring. -/
theorem processRxPacket_spared (region : BaseClear base)
    (clear : RangeClear ring (Network.rxRingSize * Network.rxDescSize)) (bound : i < Network.rxRingSize)
    (processed : Network.processRxPacket aead base stack i m
      ((ring + i * Network.rxDescSize) % 2 ^ 32) = some stores) : Spared stores := by
  unfold Network.processRxPacket Network.dispatchRxPackets at processed
  split at processed
  · split at processed
    · cases processed
      simp [Spared]
    split at processed
    · cases processed
    · cases processed
      refine (range_spared (base_range region) fun t => put_extent).append ?_
      intro store member
      obtain ⟨t, original, rfl⟩ := mem_rebase member
      have small := (mem_fill original).2
      have wrapped : ((ring + i * Network.rxDescSize) % 2 ^ 32 + t.addr) % 2 ^ 32 =
          (ring + (i * Network.rxDescSize + t.addr)) % 2 ^ 32 := by
        rw [Nat.mod_add_mod, Nat.add_assoc]
      rw [wrapped]
      refine clear _ ?_
      simp only [Network.rxRingSize, Network.rxDescSize] at *
      omega
  · cases processed
    simp [Spared]

theorem processFrom_spared (region : BaseClear base)
    (clear : RangeClear ring (Network.rxRingSize * Network.rxDescSize))
    (span : i + remaining ≤ Network.rxRingSize)
    (processed : Network.processFrom aead base stack ring remaining i m = some stores) :
    Spared stores := by
  induction remaining generalizing i m stores with
  | zero =>
    cases processed
    simp [Spared]
  | succ remaining ih =>
    simp only [Network.processFrom] at processed
    split at processed
    · cases processed
    · rename_i one first
      obtain ⟨rest, others, rfl⟩ := Option.map_eq_some_iff.mp processed
      exact (processRxPacket_spared region clear (by omega) first).append (ih (by omega) others)

end Receive

/-- The region the firmware has taken does not meet SMRAM. -/
def Latched (s : Firmware) : Prop := ∀ base ∈ s.base, BaseClear base

theorem Latched.of_base {s : Firmware} (taken : s.base = some base) (clear : BaseClear base) :
    Latched s := by
  intro other member
  cases taken.symm.trans member
  exact clear

theorem initRingBuffer_spared (clear : BaseClear base) : Spared (rebase 32 base initRingBuffer) :=
  range_spared (base_range clear) fun _ => initRingBuffer_extent

theorem network_spared {aead : Aead 16} {s : Network.State} {smi : Network.Smi}
    (latched : Latched (.network s)) (clear : RequestClear (.network s) (.network smi))
    (entered : Network.supervisor aead smi s = some r) : Latched (.network r.1) ∧ Spared r.2 := by
  obtain ⟨first, later, base, stores⟩ | ⟨later, same, handled⟩ := Network.supervisor_cases entered
  · simp only [RequestClear, first, if_true] at clear
    refine ⟨.of_base ?_ clear, stores ▸ initRingBuffer_spared clear⟩
    simp only [Firmware.base, later, Bool.false_eq_true, if_false, base]
  · refine ⟨same ▸ latched, ?_⟩
    simp only [RequestClear, later, Bool.false_eq_true, if_false] at clear
    have region : BaseClear s.shmemBase := latched _ (by simp [Firmware.base, later])
    unfold Network.pcnet32Handler at handled
    split at handled
    · rename_i interrupted
      exact processFrom_spared region (clear interrupted) (Nat.le_refl _) handled
    · rw [← Option.some.inj handled]
      simp [Spared]

theorem keyboard_spared {aead : Aead 16} {s : Keyboard.State} {smi : Keyboard.Smi} {io : IoApic}
    (latched : Latched (.keyboard s)) (clear : RequestClear (.keyboard s) (.keyboard smi io))
    (entered : Keyboard.supervisor aead smi io s = some r) :
    Latched (.keyboard r.1) ∧ Spared r.2.2 := by
  obtain ⟨later, base⟩ := Keyboard.supervisor_latch aead io entered
  have region : BaseClear r.1.shmemBase := by
    rw [base]
    cases first : s.isFirstPhrase with
    | true => exact clear first
    | false => exact latched _ (by simp [Firmware.base, first])
  constructor
  · exact .of_base (by simp [Firmware.base, later]) region
  · obtain ⟨stores, same, inside⟩ := Keyboard.supervisor_stores aead io entered
    exact same ▸ range_spared (base_range region) inside

theorem usb_spared {s : Usb.State} {memory : Memory} (latched : Latched (.usb s))
    (clear : RequestClear (.usb s) (.usb memory)) :
    Latched (.usb (Usb.supervisor memory s).1) ∧ Spared (Usb.supervisor memory s).2 := by
  cases on : s.isSupervisorOn with
  | true =>
    simp only [RequestClear, on, if_true] at clear
    simp only [Usb.supervisor, on, Bool.true_eq_false, if_false]
    refine ⟨latched, ?_⟩
    intro store member
    cases List.mem_singleton.mp member
    exact clear
  | false =>
    simp only [RequestClear, on, Bool.false_eq_true, if_false] at clear
    simp only [Usb.supervisor, on, if_true]
    exact ⟨.of_base rfl clear, initRingBuffer_spared clear⟩

theorem serve_spared {aead : Aead 16} {s t : Firmware} {request : Request} {stores : List Store}
    (latched : Latched s) (clear : RequestClear s request) (entered : s.serve aead request = some (t, stores)) :
    Latched t ∧ Spared stores := by
  cases request with
  | getOut message reply memory =>
    have taken : ∃ base, s.base = some base ∧ t = s ∧ stores = rebase 32 base
        (Aurora.Network.getOutBuffer aead.decrypt message reply (region memory base)).2.2 := by
      cases s <;>
      · obtain ⟨base, taken, same⟩ := Option.map_eq_some_iff.mp entered
        cases same
        exact ⟨base, taken, rfl, rfl⟩
    obtain ⟨base, taken, rfl, rfl⟩ := taken
    exact ⟨latched, range_spared (base_range (latched base taken)) fun _ => get_extent⟩
  | network smi =>
    cases s with
    | network s =>
      obtain ⟨r, supervised, same⟩ := Option.map_eq_some_iff.mp entered
      cases same
      exact network_spared latched clear supervised
    | keyboard s | usb s => cases entered
  | keyboard smi io =>
    cases s with
    | keyboard s =>
      obtain ⟨r, supervised, same⟩ := Option.map_eq_some_iff.mp entered
      cases same
      exact keyboard_spared latched clear supervised
    | network s | usb s => cases entered
  | usb memory =>
    cases s with
    | usb s =>
      cases entered
      exact usb_spared latched clear
    | network s | keyboard s => cases entered

/-- `enable_sse` stays below 64 KiB. -/
theorem sse_spared (smi : Smi) : Spared smi.sse := by
  intro store member inside
  have low := EnableSse.stores_low member
  simp only [InSmram, smramStart] at inside
  omega

/-- One SMI under the condition keeps the taken region and the stores clear. -/
theorem enter_spared {aead : Aead 16} {s t : Firmware} {smi : Smi} {stores : List Store}
    (latched : Latched s) (clear : Clear s smi) (entered : s.enter aead smi = some (t, stores)) :
    Latched t ∧ Spared stores := by
  obtain ⟨r, served, same⟩ := Option.map_eq_some_iff.mp entered
  cases same
  obtain ⟨latched, spared⟩ := serve_spared latched clear served
  exact ⟨latched, (sse_spared smi).append spared⟩

theorem boot_base (image : Image) : image.boot.base = none := by
  cases image <;> rfl

theorem run_spared {aead : Aead 16} {image : Image} {stores : List Store} {s : Firmware}
    (run : Run (Step aead Clear) image.boot stores s) : Latched s ∧ Spared stores := by
  refine run.invariant (P := fun stores s => Latched s ∧ Spared stores) ?_ ?_
  · simp [Latched, Spared, boot_base]
  · rintro stores s emitted t ⟨latched, spared⟩ ⟨smi, clear, entered⟩
    obtain ⟨latched, more⟩ := enter_spared latched clear entered
    exact ⟨latched, spared.append more⟩

/-- The other way round for the region: a first SMI that finds any other base
clears SMRAM along with it. -/
theorem init_hits_smram (m : Memory) (unclear : ¬ BaseClear (publishedBase m)) :
    ¬ Spared (rebase 32 (publishedBase m) initRingBuffer) := by
  have bound : publishedBase m < 2 ^ 32 := Nat.mod_lt _ (Nat.two_pow_pos 32)
  generalize publishedBase m = base at unclear bound
  obtain ⟨k, small, inside⟩ : ∃ k < shmSize, InSmram ((base + k) % 2 ^ 32) := by
    simp only [BaseClear, InSmram, smramStart, smramEnd, smramSize, shmSize] at *
    by_cases below : base < 0xb0000
    · exact ⟨max base 0xa0000 - base, by omega, by omega⟩
    · exact ⟨2 ^ 32 + 0xa0000 - base, by omega, by omega⟩
  have written : (⟨0 + k, 0⟩ : Store) ∈ initRingBuffer :=
    List.mem_append_left _ (List.mem_append_left _ (fill_mem 0 0 small))
  rw [Nat.zero_add] at written
  intro spared
  exact spared _ (List.mem_map.mpr ⟨_, written, rfl⟩) inside

theorem first_hits_smram {aead : Aead 16} {s t : Firmware} {request : Request} {stores : List Store}
    (fresh : s.base = none) (unclear : ¬ RequestClear s request)
    (served : s.serve aead request = some (t, stores)) : ¬ Spared stores := by
  cases s with
  | network s =>
    cases request with
    | network smi =>
      have first : s.isFirstPhrase = true := by simpa [Firmware.base] using fresh
      simp only [RequestClear, first, if_true] at unclear
      obtain ⟨r, supervised, same⟩ := Option.map_eq_some_iff.mp served
      cases same
      obtain ⟨_, _, _, stores⟩ | ⟨later, _⟩ := Network.supervisor_cases supervised
      · rw [stores]
        exact init_hits_smram smi.memory unclear
      · simp [first] at later
    | keyboard _ _ | usb _ | getOut _ _ _ => exact absurd trivial unclear
  | keyboard s =>
    cases request with
    | keyboard smi io =>
      have first : s.isFirstPhrase = true := by simpa [Firmware.base] using fresh
      rw [Firmware.serve, Keyboard.supervisor_first aead io first] at served
      obtain ⟨_, same⟩ := Prod.mk.inj (Option.some.inj served)
      dsimp only at same
      rw [← same]
      exact init_hits_smram smi.memory fun clear => unclear fun _ => clear
    | network _ | usb _ | getOut _ _ _ => exact absurd trivial unclear
  | usb s =>
    cases request with
    | usb memory =>
      have off : s.isSupervisorOn = false := by simpa [Firmware.base] using fresh
      simp only [RequestClear, off, Bool.false_eq_true, if_false] at unclear
      cases served
      simp only [Usb.supervisor, off, if_true]
      exact init_hits_smram memory unclear
    | network _ | keyboard _ _ | getOut _ _ _ => exact absurd trivial unclear

theorem report_hits_smram {aead : Aead 16} {s : Usb.State} {t : Firmware} {request : Request}
    {stores : List Store} (on : s.isSupervisorOn = true) (unclear : ¬ RequestClear (.usb s) request)
    (served : (Firmware.usb s).serve aead request = some (t, stores)) : ¬ Spared stores := by
  cases request with
  | usb memory =>
    simp only [RequestClear, on, if_true, not_not] at unclear
    cases served
    simp only [Usb.supervisor, on, Bool.true_eq_false, if_false]
    exact fun spared => spared _ List.mem_cons_self unclear
  | network _ | keyboard _ _ | getOut _ _ _ => exact absurd trivial unclear

/-- What hits SMRAM in the rest of a supervisor does so in the whole of it. -/
theorem enter_hits_smram {aead : Aead 16} {s t : Firmware} {smi : Smi} {stores : List Store}
    (hit : ∀ t stores, s.serve aead smi.started = some (t, stores) → ¬ Spared stores)
    (entered : s.enter aead smi = some (t, stores)) : ¬ Spared stores := by
  obtain ⟨r, served, same⟩ := Option.map_eq_some_iff.mp entered
  cases same
  exact fun spared => hit _ _ served fun store member => spared store (List.mem_append_right _ member)

/-! Runs of the three images with the region at 16 MiB. -/
section Work

/-- The first SMI of the keyboard image, whatever the OS has published. -/
theorem keyboard_first (aead : Aead 16) (cr0 : BitVec 32) (smi : Keyboard.Smi) (io : IoApic) (s : Keyboard.State)
    (first : s.isFirstPhrase = true) :
    ∃ t : Keyboard.State, (Firmware.keyboard s).enter aead ⟨cr0, .keyboard smi io⟩ =
        some (.keyboard t, EnableSse.stores cr0 smi.memory ++ rebase 32 (publishedBase smi.memory) initRingBuffer) ∧
      t.isFirstPhrase = false ∧ t.i = s.i ∧ t.shmemBase = publishedBase smi.memory := by
  have base : publishedBase (smi.memory.apply (EnableSse.stores cr0 smi.memory)) = publishedBase smi.memory :=
    EnableSse.publishedBase_stores cr0 smi.memory
  let t : Keyboard.State := { s.clearBuffer with
    isFirstPhrase := false
    kbdVec := io hijackedIrq
    nicVec := io (ioredtbl nicIrq) % 256
    shmemBase := publishedBase smi.memory }
  refine ⟨t, ?_, rfl, rfl, rfl⟩
  rw [Firmware.enter, Smi.started, Smi.sse, Request.withMemory, Request.memory, Firmware.serve,
    Keyboard.supervisor_first aead io first, Option.map_some, Option.map_some]
  dsimp only
  rw [base]

/-- An OS that has published this region, and a report at 0x3000. -/
def published (base : Nat) : Memory :=
  Memory.apply (fun a => if a = 0x101 then 0x30 else 0) (blit 0x64 (littleEndian 8 base))

theorem publishedBase_published {base : Nat} (fits : base < 2 ^ 32) : publishedBase (published base) = base := by
  rw [publishedBase, published, Memory.word_apply_littleEndian _ _ _ (fits.trans (by decide))]
  exact Nat.mod_eq_of_lt fits

theorem enter_served {aead : Aead 16} {s t : Firmware} {smi : Smi} {request : Request} {stores : List Store}
    (started : smi.started = request) (served : s.serve aead request = some (t, stores)) :
    s.enter aead smi = some (t, smi.sse ++ stores) := by
  rw [Firmware.enter, started, served, Option.map_some]

theorem step_served {aead : Aead 16} {s t : Firmware} {smi : Smi} {request : Request} {stores : List Store}
    (started : smi.started = request) (clear : RequestClear s request)
    (served : s.serve aead request = some (t, stores)) : Step aead Clear s (smi.sse ++ stores) t :=
  .smi smi (show RequestClear s smi.started from started ▸ clear) (enter_served started served)

/-- Memory as `enable_sse` leaves it. -/
def enabled (m : Memory) : Memory := m.apply (EnableSse.stores 0x11 m)

theorem enabled_other (m : Memory) {a : Nat} (apart : 6 ≤ a ∧ a < 0xfffb ∨ 0xffff ≤ a) : enabled m a = m a := by
  rw [enabled, EnableSse.apply_stores]
  exact EnableSse.overwrite_other apart _ _

theorem enabled_base : publishedBase (enabled (published 0x1000000)) = 0x1000000 := by
  rw [enabled, EnableSse.publishedBase_stores, publishedBase_published (by decide)]

theorem high_base_clear : BaseClear 0x1000000 := by
  rw [BaseClear]
  decide

/-- A put into an empty ring takes the first slot. -/
theorem put_first (aead : Aead 16) (message : List UInt8) {shm : Memory}
    (free : shm (Direction.inbound.owner 0) = Direction.inbound.sender) :
    ⟨0x1000000, inSgx⟩ ∈ rebase 32 0x1000000 (putMessage aead .inbound message shm).2 := by
  rw [putMessage, search_first free]
  exact List.mem_map.mpr ⟨flip .inbound 0 inSgx, List.mem_append_right _ (List.mem_singleton_self _), rfl⟩

/-- The first SMI of the network image, with the NIC where the driver has set it up. -/
theorem supervisor_probed (aead : Aead 16) {smi : Network.Smi} {s : Network.State} (first : s.isFirstPhrase = true)
    (taken : smi.ioApic (ioredtbl nicIrq) % 256 = 0x3b) (present : smi.hasIoaddr = true) :
    Network.supervisor aead smi s = some (⟨false, publishedBase smi.memory, 0x3b,
      ((smi.csr 2).toNat * 2 ^ 16 + (smi.csr 1).toNat) % 2 ^ 32⟩,
        rebase 32 (publishedBase smi.memory) initRingBuffer) := by
  simp only [Network.supervisor, first, if_true, taken, Network.pcnet32Probe, present]

theorem serve_network {aead : Aead 16} {smi : Network.Smi} {s t : Network.State} {stores : List Store}
    (supervised : Network.supervisor aead smi s = some (t, stores)) :
    (Firmware.network s).serve aead (.network smi) = some (.network t, stores) := by
  rw [Firmware.serve, supervised, Option.map_some]

theorem serve_keyboard {aead : Aead 16} {smi : Keyboard.Smi} {io after : IoApic} {s t : Keyboard.State}
    {stores : List Store} (supervised : Keyboard.supervisor aead smi io s = some (t, after, stores)) :
    (Firmware.keyboard s).serve aead (.keyboard smi io) = some (.keyboard t, stores) := by
  rw [Firmware.serve, supervised, Option.map_some]

/-- The stores of a round begin with those for its first descriptor. -/
theorem processFrom_first {aead : Aead 16} {base ring n : Nat} {stack : Network.Stack} {m : Memory}
    {stores : List Store} (ran : Network.processFrom aead base stack ring (n + 1) 0 m = some stores) :
    ∃ first rest, Network.processRxPacket aead base stack 0 m (Network.rxDesc ring 0) = some first ∧
      stores = first ++ rest := by
  rw [Network.processFrom] at ran
  split at ran
  · contradiction
  · rename_i first visit
    obtain ⟨rest, _, same⟩ := Option.map_eq_some_iff.mp ran
    exact ⟨first, rest, visit, same.symm⟩

theorem clear_keyboard (cr0 : BitVec 32) {smi : Keyboard.Smi} (io : IoApic) (s : Keyboard.State)
    (clear : BaseClear (publishedBase smi.memory)) : Clear (.keyboard s) ⟨cr0, .keyboard smi io⟩ := by
  rw [← EnableSse.publishedBase_stores cr0 smi.memory] at clear
  exact fun _ => clear

theorem clear_later (cr0 : BitVec 32) (smi : Keyboard.Smi) (io : IoApic) {s : Keyboard.State}
    (later : s.isFirstPhrase = false) : Clear (.keyboard s) ⟨cr0, .keyboard smi io⟩ :=
  fun first => absurd (later.symm.trans first) (by decide)

/-- Enter is released, and the text goes into the ring. -/
theorem keyboard_puts : ∃ stores s, Run (Step (transparent 16) Clear) Image.keyboard.boot stores s ∧
    ⟨0x1000000, inSgx⟩ ∈ stores := by
  let smi : Keyboard.Smi := ⟨published 0x1000000, 0, fun _ => 0, 0, fun _ => 0⟩
  let key : Keyboard.Smi := ⟨fun _ => 0, 0x9c, fun _ => 0, smramStart, fun _ => 0⟩
  obtain ⟨s, entered, later, active, base⟩ := keyboard_first (transparent 16) 0x11 smi (fun _ => 0) .boot rfl
  have found : publishedBase smi.memory = 0x1000000 := publishedBase_published (by decide)
  rw [found] at base
  have first : Run (Step (transparent 16) Clear) Image.keyboard.boot _ (.keyboard s) :=
    .single (.smi ⟨0x11, .keyboard smi fun _ => 0⟩ (clear_keyboard 0x11 _ _ (found ▸ high_base_clear)) entered)
  have pressed : Keyboard.supervisor (transparent 16) { key with memory := enabled key.memory } (fun _ => 0) s = _ :=
    Keyboard.supervisor_enter (transparent 16) (fun _ => 0) later (by rw [active]; decide) rfl
  have second : Step (transparent 16) Clear (.keyboard s) _ _ :=
    @step_served _ _ _ ⟨0x11, .keyboard key fun _ => 0⟩ _ _ rfl (clear_later 0x11 key _ later)
      (serve_keyboard pressed)
  have free : region (enabled key.memory) 0x1000000 (Direction.inbound.owner 0) = inSmm :=
    enabled_other _ (by decide)
  refine ⟨_, _, first.next second, List.mem_append_right _ (List.mem_append_right _ ?_)⟩
  rw [base, Aurora.Keyboard.putInBuffer, put, Keyboard.accept_text]
  dsimp only
  exact put_first _ _ free

/-- A packet in the first descriptor of the ring at 0x2000, and the first slot free: the
slot is handed over and the descriptor cleared. -/
theorem first_taken {aead : Aead 16} {m : Memory} {n : Nat} {stores : List Store}
    (passes : Network.intercepted m (Network.rxDesc 0x2000 0) = true)
    (short : 14 ≤ Network.rxMsgLength m (Network.rxDesc 0x2000 0) ∧
      Network.rxMsgLength m (Network.rxDesc 0x2000 0) ≤ 1610)
    (free : (Network.inSlot m 0x1000000 0).1 = inSmm)
    (ran : Network.processFrom aead 0x1000000 Network.smmStack 0x2000 (n + 1) 0 m = some stores) :
    ⟨0x1000000, inSgx⟩ ∈ stores ∧ ⟨0x2006, 0⟩ ∈ stores := by
  obtain ⟨visit, rest, visited, rfl⟩ := processFrom_first ran
  obtain ⟨skipped, _⟩ | ⟨_, long, _⟩ | ⟨_, _, taken⟩ :=
    Network.processRxPacket_cases aead 0x1000000 Network.smmStack 0 m (Network.rxDesc 0x2000 0)
  · exact absurd (skipped.symm.trans passes) (by decide)
  · exact absurd long (Nat.not_lt.mpr (Network.copy_fits_iff.mpr short))
  have stored := Option.some.inj (visited.symm.trans taken)
  constructor
  · refine List.mem_append_left _ ?_
    rw [stored, Network.putPacket, Aurora.Network.putInBuffer, put,
      show isWithinSmram Network.smmStack.smmTmpBuf 4032 = true by decide, Network.accept_packet]
    exact List.mem_append_left _ (put_first _ _ free)
  · refine List.mem_append_left _ ?_
    rw [stored]
    have status : ⟨0 + 6, 0⟩ ∈ fill 0 Network.rxDescSize 0 := fill_mem 0 0 (by decide)
    exact List.mem_append_right _ (List.mem_map.mpr ⟨_, status, rfl⟩)

/-- The frame is not where `enable_sse` stores. -/
theorem enabled_frame : ∃ m, enabled (Network.oneFrame 60 inSmm) = m ∧ Network.rxRing m 0x1000 = 0x2000 ∧
    Network.intercepted m (Network.rxDesc 0x2000 0) = true ∧
    (∀ j < Network.rxRingSize, Network.rxStatus m (Network.rxDesc 0x2000 j) = 0x340 →
      14 ≤ Network.rxMsgLength m (Network.rxDesc 0x2000 j) ∧
        Network.rxMsgLength m (Network.rxDesc 0x2000 j) ≤ 1610) ∧
    ∀ k < maxEntry, (Network.inSlot m 0x1000000 k).1 = inSmm := by
  refine ⟨_, EnableSse.apply_stores _ _, by decide, by decide, by decide, fun k bound => ?_⟩
  revert bound k
  decide

/-- A frame arrives, and its packet goes into the ring. -/
theorem network_puts : ∃ stores s, Run (Step (transparent 16) Clear) Image.network.boot stores s ∧
    ⟨0x1000000, inSgx⟩ ∈ stores ∧ ⟨0x2006, 0⟩ ∈ stores := by
  let probed : Network.Smi := ⟨published 0x1000000, fun _ => 0x3b, fun n => if n = 1 then 0x1000 else 0, true,
    Network.smmStack⟩
  have took : Network.supervisor (transparent 16) { probed with memory := enabled probed.memory } .boot = _ :=
    supervisor_probed (transparent 16) rfl rfl rfl
  dsimp only [probed] at took
  rw [enabled_base] at took
  have first : Step (transparent 16) Clear Image.network.boot _ _ :=
    @step_served _ _ _ ⟨0x11, .network probed⟩ _ _ rfl
      (show BaseClear (publishedBase _) from enabled_base ▸ high_base_clear) (serve_network took)
  obtain ⟨m, same, ring, passes, lengths, empty⟩ := enabled_frame
  have admissible : Network.Admissible (transparent 16) 0x1000000 Network.smmStack 0x2000 m :=
    Network.admissible_of_empty Network.far_ring_apart (by decide) lengths empty
  obtain ⟨stores, ran⟩ := Option.isSome_iff_exists.mp (admissible.ran Network.rxRingSize (Nat.le_refl _))
  let received : Network.Smi := ⟨Network.oneFrame 60 inSmm, fun _ => 0, fun _ => 0x0400, true, Network.smmStack⟩
  have handled : Network.supervisor (transparent 16) { received with memory := enabled received.memory }
      ⟨false, 0x1000000, 0x3b, 0x1000⟩ = some (⟨false, 0x1000000, 0x3b, 0x1000⟩, stores) := by
    rw [Network.supervisor, if_neg Bool.false_ne_true, Network.pcnet32Handler, if_pos (by decide),
      Network.processRxPackets, same, ring, ran, Option.map_some]
  have clear : RangeClear (Network.rxRing (enabled (Network.oneFrame 60 inSmm)) 0x1000)
      (Network.rxRingSize * Network.rxDescSize) := by
    rw [same, ring]
    intro k small
    simp only [InSmram, smramStart, smramEnd, smramSize, Network.rxRingSize, Network.rxDescSize] at *
    omega
  have second : Step (transparent 16) Clear (.network ⟨false, 0x1000000, 0x3b, 0x1000⟩) _ _ :=
    @step_served _ _ _ ⟨0x11, .network received⟩ _ _ rfl (fun _ => clear) (serve_network handled)
  obtain ⟨flipped, cleared⟩ := first_taken passes
    (lengths 0 (by decide) (Network.intercepted_status passes)) (empty 0 (by decide)) ran
  refine ⟨_, _, (Run.single first).next second, ?_, ?_⟩
  · exact List.mem_append_right _ (List.mem_append_right _ flipped)
  · exact List.mem_append_right _ (List.mem_append_right _ cleared)

/-- The report that the OS has published is wiped. -/
theorem usb_wipes : ∃ stores s, Run (Step (transparent 16) Clear) Image.usb.boot stores s ∧
    ⟨0x3002, 0⟩ ∈ stores := by
  have report : ((enabled (published 0x1000000)).apply (rebase 32 0x1000000 initRingBuffer)).word 0x100 4 = 0x3000 := by
    rw [Memory.word_congr fun k bound => (Memory.apply_frame _ ?_).trans (enabled_other _ (by omega))]
    · decide
    · intro store member
      obtain ⟨t, cleared, rfl⟩ := mem_rebase member
      have small := initRingBuffer_extent cleared
      simp only [shmSize] at small ⊢
      omega
  have first : Step (transparent 16) Clear Image.usb.boot _ (.usb ⟨true, 0x1000000, 0x3000⟩) :=
    @step_served _ _ _ ⟨0x11, .usb (published 0x1000000)⟩ (.usb (enabled (published 0x1000000)))
      (rebase 32 0x1000000 initRingBuffer) rfl
      (show BaseClear (publishedBase _) from enabled_base ▸ high_base_clear) (by
        simp only [Image.boot, Firmware.serve, Usb.supervisor, Usb.State.boot, if_true, enabled_base, report])
  have second : Step (transparent 16) Clear (.usb ⟨true, 0x1000000, 0x3000⟩) _ (.usb ⟨true, 0x1000000, 0x3000⟩) :=
    @step_served _ _ _ ⟨0x11, .usb fun _ => 0⟩ (.usb (enabled fun _ => 0)) [⟨0x3002, 0⟩] rfl
      (show ¬ InSmram 0x3002 by decide) rfl
  refine ⟨_, _, (Run.single first).next second, List.mem_append_right _ (List.mem_append_right _ ?_)⟩
  exact List.mem_singleton_self _

end Work

/-- A run of SMIs that all find clear addresses writes no byte of SMRAM. For the
region and the USB report the condition is exact: an SMI that fails it does. -/
theorem smram_spared (aead : Aead 16) (image : Image) :
    (∀ stores s, Run (Step aead Clear) image.boot stores s → Spared stores) ∧
    (∀ smi t stores, ¬ Clear image.boot smi → image.boot.enter aead smi = some (t, stores) →
      ¬ Spared stores) ∧
    (∀ (s : Usb.State) smi t stores, s.isSupervisorOn = true → ¬ Clear (.usb s) smi →
      (Firmware.usb s).enter aead smi = some (t, stores) → ¬ Spared stores) := by
  refine ⟨fun _ _ run => (run_spared run).2, fun _ _ _ unclear => ?_, fun _ _ _ _ on unclear => ?_⟩
  · exact enter_hits_smram fun _ _ => first_hits_smram (boot_base image) unclear
  · exact enter_hits_smram fun _ _ => report_hits_smram on unclear

/-- The OS publishes the start of SMRAM as the base of the shared region. -/
theorem smram_published_as_base :
    ∃ smi s, publishedBase smi.request.memory = smramStart ∧
      Image.keyboard.boot.enter (transparent 16) smi =
        some (s, smi.sse ++ rebase 32 smramStart initRingBuffer) ∧
      ¬ Spared (rebase 32 smramStart initRingBuffer) := by
  let smi : Keyboard.Smi := ⟨published smramStart, 0, fun _ => 0, 0, fun _ => 0⟩
  have base : publishedBase smi.memory = smramStart := publishedBase_published (by decide)
  obtain ⟨s, entered, _⟩ := keyboard_first (transparent 16) 0x11 smi (fun _ => 0) .boot rfl
  have hit := init_hits_smram smi.memory (by rw [base, BaseClear]; decide)
  rw [base] at entered hit
  exact ⟨⟨0x11, .keyboard smi fun _ => 0⟩, .keyboard s, base, entered, hit⟩

/-- Each image takes the region, and then the keyboard puts a text, the network puts a
packet and clears its descriptor, and the USB image wipes a report. -/
theorem smram_spared_high_base :
    (∃ stores s, Run (Step (transparent 16) Clear) Image.keyboard.boot stores s ∧
      ⟨0x1000000, inSgx⟩ ∈ stores ∧ Spared stores) ∧
    (∃ stores s, Run (Step (transparent 16) Clear) Image.network.boot stores s ∧
      ⟨0x1000000, inSgx⟩ ∈ stores ∧ ⟨0x2006, 0⟩ ∈ stores ∧ Spared stores) ∧
    ∃ stores s, Run (Step (transparent 16) Clear) Image.usb.boot stores s ∧
      ⟨0x3002, 0⟩ ∈ stores ∧ Spared stores := by
  obtain ⟨keyboard, s, typed, text⟩ := keyboard_puts
  obtain ⟨network, t, received, packet, cleared⟩ := network_puts
  obtain ⟨usb, u, wiped, report⟩ := usb_wipes
  exact ⟨⟨keyboard, s, typed, text, (smram_spared _ .keyboard).1 _ s typed⟩,
    ⟨network, t, received, packet, cleared, (smram_spared _ .network).1 _ t received⟩,
    usb, u, wiped, report, (smram_spared _ .usb).1 _ u wiped⟩

end Aurora.Smm.WriteTargets
