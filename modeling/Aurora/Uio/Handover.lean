import Aurora.Lib.Transition
import Aurora.Smm.Keyboard

/-! Handing the shared region from the kernel module to SMM: `aurora_init`
publishes the region's physical address in low memory, `aurora_exit` wipes it,
and the supervisor picks it up on its first SMI only, into 32 bits. -/
namespace Aurora.Uio
open Lib Smm

def svmOffset : Nat := 0x64
def svmCapacity : Nat := 0x100

/-- `taint`: clear the low page area and publish `virt_to_phys(svm_vmem)`. -/
def taint (svmVmem : UInt64) : List Store :=
  fill 0 svmCapacity 0 ++ blit svmOffset (littleEndian 8 svmVmem.toNat)

/-- `sweep` -/
def sweep : List Store := fill 0 svmCapacity 0

/-- How `aurora_init` can end. If no PCI driver can be registered it returns 1,
which the kernel takes for success although no region was allocated. Every
other failure leaves the module unloaded and low memory as it was. -/
inductive Load where
  | failed
  | bare
  | published (svmVmem : UInt64)
deriving DecidableEq, Repr

inductive Module where
  | absent
  | bare
  | loaded (svmVmem : UInt64)
deriving DecidableEq, Repr

def Load.module : Load → Module
  | failed => .absent
  | bare => .bare
  | published svmVmem => .loaded svmVmem

def Load.stores : Load → List Store
  | failed | bare => []
  | published svmVmem => fill svmVmem.toNat shmSize 0 ++ taint svmVmem

inductive Event where
  | load (outcome : Load)
  | unload
  | smi
deriving DecidableEq, Repr

structure Machine where
  module : Module
  smm : Keyboard.State
  ioApic : IoApic
  memory : Memory
  /-- An SMI was handled since the module was loaded. -/
  smiSince : Bool

def Machine.boot (memory : Memory) (ioApic : IoApic) : Machine := ⟨.absent, .boot, ioApic, memory, false⟩

inductive Step (aead : Aead 16) : Machine → List Event → Machine → Prop where
  | load (outcome : Load) : s.module = .absent →
      Step aead s [.load outcome]
        { s with
          module := outcome.module
          memory := s.memory.apply outcome.stores
          smiSince := false }
  | unload : s.module = .loaded svmVmem →
      Step aead s [.unload] { s with module := .absent, memory := s.memory.apply sweep }
  | smi (smi : Keyboard.Smi) : smi.memory = s.memory →
      Keyboard.supervisor aead smi s.ioApic s.smm = some (smm, ioApic, stores) →
      Step aead s [.smi] ⟨s.module, smm, ioApic, s.memory.apply stores, true⟩

/-- SMM uses the region the module has allocated. -/
def Agrees (s : Machine) : Prop :=
  ∀ svmVmem, s.module = .loaded svmVmem → s.smiSince = true → s.smm.shmemBase = svmVmem.toNat

/-- What the kernel's side of a history says, without looking at SMM: what
stands at 0x64, and what stood there at the first SMI. -/
structure History where
  published : Nat
  first : Option Nat
  module : Module
  smiSince : Bool
deriving DecidableEq, Repr

def History.next (h : History) : Event → History
  | .load outcome =>
    { h with
      published := match outcome with
        | .published svmVmem => svmVmem.toNat
        | .failed | .bare => h.published
      module := outcome.module
      smiSince := false }
  | .unload => { h with published := 0, module := .absent }
  | .smi => { h with first := some (h.first.getD h.published), smiSince := true }

def history (boot : Memory) (events : List Event) : History :=
  events.foldl History.next ⟨boot.word svmOffset 8, none, .absent, false⟩

/-- The current load, once an SMI has seen it, has the address that was
published when the first of all SMIs came, and it fits 32 bits. -/
def HandedOver (h : History) : Prop :=
  ∀ svmVmem, h.module = .loaded svmVmem → h.smiSince = true →
    ∀ w, h.first = some w → svmVmem.toNat = w % 2 ^ 32

/-- The history describes the machine. -/
structure Describes (h : History) (s : Machine) : Prop where
  module : h.module = s.module
  smiSince : h.smiSince = s.smiSince
  latched : match h.first with
    | none => s.smm.isFirstPhrase = true ∧ s.memory.word svmOffset 8 = h.published ∧ h.smiSince = false
    | some w => s.smm.isFirstPhrase = false ∧ s.smm.shmemBase = w % 2 ^ 32

theorem taint_published (m : Memory) (svmVmem : UInt64) :
    (m.apply (taint svmVmem)).word svmOffset 8 = svmVmem.toNat := by
  rw [taint, Memory.apply_append]
  exact Memory.word_apply_littleEndian _ _ _ svmVmem.toNat_lt

theorem sweep_published (m : Memory) : (m.apply sweep).word svmOffset 8 = 0 := by
  have cleared : (m.apply sweep).word svmOffset 8 = Memory.word (fun _ => 0) svmOffset 8 := by
    refine Memory.word_congr fun k bound => ?_
    rw [← Nat.zero_add (svmOffset + k)]
    exact m.apply_fill_get 0 0 (by simp only [svmOffset, svmCapacity]; omega)
  rw [cleared]
  decide

theorem Describes.step {aead : Aead 16} {h : History} {s t : Machine} {emitted : List Event}
    (held : Describes h s) (step : Step aead s emitted t) : Describes (emitted.foldl History.next h) t := by
  obtain ⟨module, smiSince, latched⟩ := held
  cases step with
  | load outcome absent =>
    refine ⟨rfl, rfl, ?_⟩
    simp only [List.foldl_cons, List.foldl_nil, History.next]
    cases first : h.first with
    | some w => rwa [first] at latched
    | none =>
      simp only [first] at latched
      obtain ⟨fresh, word, _⟩ := latched
      refine ⟨fresh, ?_, trivial⟩
      cases outcome with
      | failed | bare => exact word
      | published svmVmem =>
        simp only [Load.stores, Memory.apply_append]
        exact taint_published _ svmVmem
  | unload loaded =>
    refine ⟨rfl, smiSince, ?_⟩
    simp only [List.foldl_cons, List.foldl_nil, History.next]
    cases first : h.first with
    | some w => rwa [first] at latched
    | none =>
      simp only [first] at latched
      exact ⟨latched.1, sweep_published s.memory, latched.2.2⟩
  | smi smi found entered =>
    refine ⟨module, rfl, ?_⟩
    obtain ⟨later, base⟩ := Keyboard.supervisor_latch aead s.ioApic entered
    simp only [List.foldl_cons, List.foldl_nil, History.next]
    refine ⟨later, ?_⟩
    cases first : h.first with
    | some w =>
      simp only [first] at latched
      rw [base, latched.1]
      exact latched.2
    | none =>
      simp only [first] at latched
      rw [base, latched.1, publishedBase, found]
      simp only [if_true, Option.getD_none]
      rw [← latched.2.1, svmOffset]

theorem run_describes {aead : Aead 16} {boot : Memory} {ioApic : IoApic} {events : List Event}
    {s : Machine} (run : Run (Step aead) (.boot boot ioApic) events s) :
    Describes (history boot events) s := by
  refine run.invariant (P := fun events s => Describes (history boot events) s) ⟨rfl, rfl, ?_⟩ ?_
  · exact ⟨rfl, rfl, rfl⟩
  · intro events s emitted t held step
    rw [history, List.foldl_append]
    exact held.step step

theorem Describes.agrees_iff {h : History} {s : Machine} (held : Describes h s) :
    Agrees s ↔ HandedOver h := by
  obtain ⟨module, smiSince, latched⟩ := held
  unfold Agrees HandedOver
  rw [module, smiSince]
  cases first : h.first with
  | none =>
    simp only [first, smiSince] at latched
    simp [latched.2.2]
  | some w =>
    simp only [first] at latched
    rw [latched.2]
    constructor
    · rintro agrees svmVmem loaded seen _ ⟨⟩
      exact (agrees svmVmem loaded seen).symm
    · intro handed svmVmem loaded seen
      exact (handed svmVmem loaded seen w rfl).symm

/-- An SMI that brings no key is possible in every state. -/
theorem quiet_smi (aead : Aead 16) (s : Machine) : ∃ t, Step aead s [.smi] t ∧ t.module = s.module := by
  let smi : Keyboard.Smi := ⟨s.memory, 0xff, fun _ => 0, 0, fun _ => 0⟩
  have defined : ∃ r, Keyboard.supervisor aead smi s.ioApic s.smm = some r := by
    cases first : s.smm.isFirstPhrase with
    | true => exact ⟨_, Keyboard.supervisor_first aead _ first⟩
    | false =>
      by_cases ended : s.smm.i = -1
      · exact ⟨_, Keyboard.supervisor_rearm aead _ first ended⟩
      · have key : smi.data ≠ 0x9c := show (0xff : UInt8) ≠ 0x9c by decide
        have high : ¬ smi.data ≤ 0x6f := show ¬ (0xff : UInt8) ≤ 0x6f by decide
        exact ⟨_, Keyboard.supervisor_pass aead _ first ended key high⟩
  obtain ⟨⟨smm, ioApic, stores⟩, entered⟩ := defined
  exact ⟨_, .smi smi rfl entered, rfl⟩

/-- The module is loaded, used, unloaded, and loaded again. -/
theorem reload (aead : Aead 16) (boot : Memory) (ioApic : IoApic) (before after : UInt64) :
    ∃ s, Run (Step aead) (.boot boot ioApic)
      [.load (.published before), .smi, .unload, .load (.published after), .smi] s := by
  have loaded : Run (Step aead) (.boot boot ioApic) _ _ := .single (.load (.published before) rfl)
  obtain ⟨_, used, kept⟩ := quiet_smi aead _
  have again := ((loaded.next used).next (.unload kept)).next (.load (.published after) rfl)
  obtain ⟨s, last, _⟩ := quiet_smi aead _
  exact ⟨s, again.next last⟩

/-- In every run and in every state it reaches, SMM and the kernel agree on the
region exactly when the module's region is the one that was published, below
4 GiB, at the time of the first SMI. -/
theorem smm_agrees_iff_handed_over (aead : Aead 16) (boot : Memory) (ioApic : IoApic)
    {events : List Event} {s : Machine} (run : Run (Step aead) (.boot boot ioApic) events s) :
    Agrees s ↔ HandedOver (history boot events) :=
  (run_describes run).agrees_iff

theorem reloaded_region_is_missed :
    ∃ events s, Run (Step (transparent 16)) (.boot (fun _ => 0) fun _ => 0x31) events s ∧ ¬ Agrees s := by
  obtain ⟨s, run⟩ := reload (transparent 16) (fun _ => 0) (fun _ => 0x31) 0x1000000 0x2000000
  refine ⟨_, s, run, ?_⟩
  rw [(run_describes run).agrees_iff]
  intro handed
  exact absurd (handed 0x2000000 rfl rfl 0x1000000 rfl) (by decide)

theorem smm_agrees_iff_handed_over_same_address :
    ∃ events s, Run (Step (transparent 16)) (.boot (fun _ => 0) fun _ => 0x31) events s ∧
      s.smiSince = true ∧ Agrees s := by
  obtain ⟨s, run⟩ := reload (transparent 16) (fun _ => 0) (fun _ => 0x31) 0x1000000 0x1000000
  refine ⟨_, s, run, (run_describes run).smiSince.symm, (smm_agrees_iff_handed_over _ _ _ run).mpr ?_⟩
  rintro _ ⟨⟩ _ _ ⟨⟩
  decide

end Aurora.Uio
