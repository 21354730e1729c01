import Aurora.Smm.Dispatch

/-! What SMIs resume, over whole runs: SMIs raised by a write of the command port or by
a device, and whatever happens outside SMM in between. -/
namespace Aurora.Smm.Dispatch
open Lib WriteTargets

/-- One SMI of a run; `written` is the command if a write raised it. -/
structure Served where
  written : Option UInt8
  saved : SaveState
  input : Smi
  start : Machine
  final : Machine

def Served.resumed (e : Served) : SaveState := captured e.final.memory (buildSmmAddr + cpu)

def Machine.write (m : Machine) (written : Option UInt8) : Machine := { m with cmd := written.getD m.cmd }

/-- What `handle_smi` finds. -/
def Machine.raise (m : Machine) (written : Option UInt8) (saved : SaveState) : Machine :=
  (m.write written).interrupt buildSmmAddr saved

/-- What the supervisor finds, if it is called. -/
def Served.found (e : Served) : Smi := e.input.withMemory (e.start.raise e.written e.saved).memory

/-- SMRAM is closed to everything outside SMM; `allowed` is a condition on what the
supervisor finds. -/
inductive Step (aead : Aead 16) (allowed : Firmware → Smi → Prop) : Machine → List Served → Machine → Prop where
  | smi (written : Option UInt8) (saved : SaveState) (input : Smi) :
      (written.getD s.cmd = supervisorCmd → allowed s.firmware (input.withMemory (s.raise written saved).memory)) →
      handleSmi aead input buildSmmAddr (s.raise written saved) = some t →
      Step aead allowed s [⟨written, saved, input, s, t⟩] t
  | outside (stores : List Store) (a20 : UInt8) : Spared stores →
      Step aead allowed s [] { s with memory := s.memory.apply stores, a20 }

/-- The last command written and the last call that entered 32-bit code. -/
structure History where
  cmd : UInt8
  enter : Option Served

def History.next (h : History) (e : Served) : History where
  cmd := e.written.getD h.cmd
  enter :=
    match call (e.written.getD h.cmd) e.saved with
    | some (_, .enter) => some e
    | _ => h.enter

/-- The setup wrote 0. -/
def history (before : List Served) : History := before.foldl History.next ⟨0, none⟩

/-- The state that a return goes back to. -/
def History.caller (boot : SaveState) (h : History) : SaveState := h.enter.elim boot Served.saved

/-- What the interrupted program and the OS see of one SMI. -/
structure Resumes (aead : Aead 16) (boot : SaveState) (before : List Served) (e : Served) : Prop where
  program : e.resumed =
    match call (e.written.getD (history before).cmd) e.saved with
    | none => e.saved
    | some (f, .enter) => boot.transfer f e.saved
    | some (f, .leave) => ((history before).caller boot).transfer f e.saved
  gate : match call (e.written.getD (history before).cmd) e.saved with
    | none => e.final.a20 = e.start.a20
    | some (_, .enter) => e.final.a20 = (setA20 true e.start.a20).1
    | some (_, .leave) => ∀ enter, (history before).enter = some enter →
      e.final.a20 = if (setA20 true enter.start.a20).2 then e.start.a20 else (setA20 false e.start.a20).1
  unsupervised : e.written.getD (history before).cmd ≠ supervisorCmd →
    e.final.firmware = e.start.firmware ∧ ∀ a, ¬ InSmram a → e.final.memory a = e.start.memory a
  supervised : e.written.getD (history before).cmd = supervisorCmd →
    ∃ stores, e.start.firmware.enter aead e.found = some (e.final.firmware, stores) ∧
      ∀ a, ¬ InSmram a → e.final.memory a = e.start.memory.apply stores a

/-- A machine that the setup of one of the images has left, with the state that its
boot SMI resumed. -/
inductive Booted (aead : Aead 16) : SaveState → Machine → Prop where
  | setup (image : Image) (entry : Nat) (saved : SaveState) (input : Smi) (m : Machine) :
      m.firmware = image.boot → format (saved.byte.word smmRev 4) = some f →
      smmSetup aead entry saved input m = some s → Booted aead (saved.relocated f) s

section Runs
variable {aead : Aead 16} {boot : SaveState} {events : List Served} {s t : Machine}

/-- SMRAM holds the boot state, the state of the last caller and its gate. -/
structure Kept (aead : Aead 16) (boot : SaveState) (events : List Served) (s : Machine) : Prop where
  past : Justified (Resumes aead boot) events
  cmd : s.cmd = (history events).cmd
  first : captured s.memory (buildSmmAddr + backup1) = boot
  second : captured s.memory (buildSmmAddr + backup2) = (history events).caller boot
  gate : ∀ enter, (history events).enter = some enter →
    s.memory.word (buildSmmAddr + backupA20) 4 = (setA20 true enter.start.a20).2.toNat
  latched : Latched s.firmware

theorem history_concat (events : List Served) (e : Served) : history (events ++ [e]) = (history events).next e :=
  List.foldl_concat _ _ _ _

/-- What the invariant says about SMRAM is about its first bytes. -/
theorem Kept.low (kept : Kept aead boot events s)
    (same : ∀ a, buildSmmAddr ≤ a → a < buildSmmAddr + codeentry → t.memory a = s.memory a) :
    captured t.memory (buildSmmAddr + backup1) = boot ∧
    captured t.memory (buildSmmAddr + backup2) = (history events).caller boot ∧
    ∀ enter, (history events).enter = some enter →
      t.memory.word (buildSmmAddr + backupA20) 4 = (setA20 true enter.start.a20).2.toNat := by
  have layout := layout
  refine ⟨?_, ?_, fun enter last => ?_⟩
  · rw [← kept.first]
    exact captured_congr _ _ fun k bound => same _ (by omega) (by omega)
  · rw [← kept.second]
    exact captured_congr _ _ fun k bound => same _ (by omega) (by omega)
  · rw [← kept.gate enter last]
    exact Memory.word_congr fun k bound => same _ (by omega) (by omega)

theorem Resumes.quiet {e : Served} (none : call (e.written.getD (history events).cmd) e.saved = none)
    (program : e.resumed = e.saved) (gate : e.final.a20 = e.start.a20)
    (unsupervised : e.written.getD (history events).cmd ≠ supervisorCmd →
      e.final.firmware = e.start.firmware ∧ ∀ a, ¬ InSmram a → e.final.memory a = e.start.memory a)
    (supervised : e.written.getD (history events).cmd = supervisorCmd →
      ∃ stores, e.start.firmware.enter aead e.found = some (e.final.firmware, stores) ∧
        ∀ a, ¬ InSmram a → e.final.memory a = e.start.memory.apply stores a) :
    Resumes aead boot events e := by
  refine ⟨?_, ?_, unsupervised, supervised⟩
  · simp only [none, program]
  · simp only [none, gate]

/-- Everything but a call leaves the last caller as it was. -/
theorem Kept.quiet (kept : Kept aead boot events s) {e : Served}
    (same : ∀ a, buildSmmAddr ≤ a → a < buildSmmAddr + codeentry → t.memory a = s.memory a)
    (none : call (e.written.getD s.cmd) e.saved = none) (cmd : t.cmd = e.written.getD s.cmd)
    (latched : Latched t.firmware) (last : Resumes aead boot events e) : Kept aead boot (events ++ [e]) t := by
  rw [kept.cmd] at none cmd
  have entered : (history (events ++ [e])).enter = (history events).enter := by
    rw [history_concat, History.next]
    simp only [none]
  obtain ⟨first, second, gate⟩ := kept.low same
  refine ⟨kept.past.concat last, ?_, first, ?_, ?_, latched⟩
  · rw [cmd, history_concat, History.next]
  · rw [second, History.caller, History.caller, entered]
  · rw [entered]
    exact gate

/-- A call, from the machine `p` that the processor's store has left. -/
theorem Kept.called (kept : Kept aead boot events s) {e : Served} {p : Machine} {f : Format} {way : Call}
    (called : call (e.written.getD s.cmd) e.saved = some (f, way)) (other : e.written.getD s.cmd ≠ supervisorCmd)
    (start : e.start = s) (final : e.final = trampoline f buildSmmAddr p)
    (area : captured p.memory (buildSmmAddr + cpu) = e.saved)
    (apart : ∀ a, a < buildSmmAddr + cpu ∨ buildSmmAddr + cpu + stateSize ≤ a → p.memory a = s.memory a)
    (cmd : p.cmd = e.written.getD s.cmd) (firmware : p.firmware = s.firmware) (a20 : p.a20 = s.a20) :
    Kept aead boot (events ++ [e]) e.final := by
  have layout := layout
  have asked := call_asked called
  obtain ⟨sameCmd, sameFirmware⟩ := trampoline_ports f buildSmmAddr p
  obtain ⟨first, second, gate⟩ := kept.low fun a low high => apart a (Or.inl (by omega))
  have outside (a : Nat) (clear : ¬ InSmram a) : e.final.memory a = e.start.memory a := by
    unfold InSmram at clear
    rw [final, start, trampoline_other f _ p (by omega) (by omega), apart a (by omega)]
  have backup : captured e.final.memory (buildSmmAddr + backup1) = boot := by
    rw [final, ← first]
    exact captured_congr _ _ fun k bound => trampoline_other f _ p (by omega) (by omega)
  have now : (history (events ++ [e])).cmd = e.final.cmd := by
    rw [final, sameCmd, cmd, history_concat, History.next, kept.cmd]
  have latched : Latched e.final.firmware := by
    rw [final, sameFirmware, firmware]
    exact kept.latched
  rw [← area] at asked
  rw [kept.cmd] at called other
  cases way with
  | enter =>
    obtain ⟨program, caller, stored, raised⟩ := trampoline_enter f buildSmmAddr p asked
    rw [area] at program caller
    have entered : (history (events ++ [e])).enter = some e := by
      rw [history_concat, History.next]
      simp only [called]
    refine ⟨kept.past.concat ⟨?_, ?_, ?_, ?_⟩, now.symm, backup, ?_, ?_, latched⟩
    · simp only [called, Served.resumed, final, program, first]
    · simp only [called, final, raised, start, a20]
    · exact fun _ => ⟨by rw [final, sameFirmware, firmware, start], outside⟩
    · exact fun supervised => absurd supervised other
    · rw [final, caller, History.caller, entered, Option.elim_some]
    · rintro enter last
      cases entered.symm.trans last
      rw [final, stored, a20, start]
  | leave =>
    obtain ⟨program, low, dropped⟩ := trampoline_leave f buildSmmAddr p asked
    rw [area] at program
    have entered : (history (events ++ [e])).enter = (history events).enter := by
      rw [history_concat, History.next]
      simp only [called]
    refine ⟨kept.past.concat ⟨?_, ?_, ?_, ?_⟩, now.symm, backup, ?_, ?_, latched⟩
    · simp only [called, Served.resumed, final, program, second]
    · simp only [called]
      intro enter last
      rw [final, dropped, gate enter last, start, a20]
      cases (setA20 true enter.start.a20).2 <;> simp
    · exact fun _ => ⟨by rw [final, sameFirmware, firmware, start], outside⟩
    · exact fun supervised => absurd supervised other
    · rw [final, History.caller, entered, ← History.caller, ← second]
      exact captured_congr _ _ fun k bound => low _ (by omega)
    · rw [entered]
      intro enter last
      rw [← gate enter last, final]
      exact Memory.word_congr fun k bound => low _ (by omega)

section Raised
variable {written : Option UInt8} {saved : SaveState} {input : Smi}

theorem raise_cmd (m : Machine) (written : Option UInt8) (saved : SaveState) :
    (m.raise written saved).cmd = written.getD m.cmd := by
  rw [Machine.raise, interrupt_cmd, Machine.write]

theorem raise_firmware (m : Machine) (written : Option UInt8) (saved : SaveState) :
    (m.raise written saved).firmware = m.firmware := by
  rw [Machine.raise, interrupt_firmware, Machine.write]

theorem raise_a20 (m : Machine) (written : Option UInt8) (saved : SaveState) :
    (m.raise written saved).a20 = m.a20 := by
  rw [Machine.raise, interrupt_a20, Machine.write]

/-- The processor stores nowhere but in the save area. -/
theorem raise_other (m : Machine) (written : Option UInt8) (saved : SaveState) {a : Nat}
    (apart : a < buildSmmAddr + cpu ∨ buildSmmAddr + cpu + stateSize ≤ a) :
    (m.raise written saved).memory a = m.memory a :=
  interrupt_other (m.write written) buildSmmAddr saved apart

theorem raise_outside (m : Machine) (written : Option UInt8) (saved : SaveState) {a : Nat} (clear : ¬ InSmram a) :
    (m.raise written saved).memory a = m.memory a := by
  have layout := layout
  unfold InSmram at clear
  exact raise_other m written saved (by omega)

/-- The supervisor, whose stores are not in SMRAM. -/
theorem Kept.supervised (kept : Kept aead boot events s) {stores : List Store}
    (asked : written.getD s.cmd = supervisorCmd)
    (clear : Clear s.firmware (input.withMemory (s.raise written saved).memory))
    (entered : s.firmware.enter aead (input.withMemory (s.raise written saved).memory) =
      some (t.firmware, stores))
    (memory : t.memory = (s.raise written saved).memory.apply stores)
    (cmd : t.cmd = written.getD s.cmd) (a20 : t.a20 = s.a20) :
    Kept aead boot (events ++ [⟨written, saved, input, s, t⟩]) t := by
  have layout := layout
  have none : call (written.getD s.cmd) saved = none := asked ▸ call_supervisor saved
  obtain ⟨latched, spared⟩ := enter_spared kept.latched clear entered
  have inside {a : Nat} (inside : InSmram a) : t.memory a = (s.raise written saved).memory a := by
    rw [memory]
    exact Memory.apply_frame _ fun store member hit => spared store member (hit ▸ inside)
  refine kept.quiet ?_ none cmd latched (.quiet (kept.cmd ▸ none) ?_ a20 ?_ ?_)
  · intro a low high
    rw [inside ⟨by omega, by omega⟩, raise_other s written saved (Or.inl (by omega))]
  · rw [Served.resumed, captured_congr _ _ fun k bound => inside ⟨by omega, by omega⟩]
    exact captured_interrupt _ _ _
  · rw [← kept.cmd]
    exact fun other => absurd asked other
  · refine fun _ => ⟨stores, entered, fun a clear => ?_⟩
    rw [memory]
    exact Memory.apply_at stores (raise_outside s written saved clear)

/-- An SMI for nobody. -/
theorem Kept.unserved (kept : Kept aead boot events s) (other : written.getD s.cmd ≠ supervisorCmd)
    (none : call (written.getD s.cmd) saved = none) :
    Kept aead boot (events ++ [⟨written, saved, input, s, s.raise written saved⟩]) (s.raise written saved) := by
  have layout := layout
  refine kept.quiet ?_ none (raise_cmd s written saved) ?_ (.quiet (kept.cmd ▸ none) ?_ ?_ ?_ ?_)
  · exact fun a low high => raise_other s written saved (Or.inl (by omega))
  · rw [raise_firmware]
    exact kept.latched
  · exact captured_interrupt _ _ _
  · exact raise_a20 s written saved
  · exact fun _ => ⟨raise_firmware s written saved, fun a clear => raise_outside s written saved clear⟩
  · rw [← kept.cmd]
    exact fun supervised => absurd supervised other

/-- One SMI keeps the invariant: only a call touches the backups. -/
theorem Kept.smi (kept : Kept aead boot events s)
    (clear : written.getD s.cmd = supervisorCmd →
      Clear s.firmware (input.withMemory (s.raise written saved).memory))
    (served : handleSmi aead input buildSmmAddr (s.raise written saved) = some t) :
    Kept aead boot (events ++ [⟨written, saved, input, s, t⟩]) t := by
  obtain ⟨asked, stores, entered, memory, cmd, a20⟩ | ⟨other, none, same⟩ | ⟨other, f, way, called, same⟩ :=
    handleSmi_cases served
  · exact kept.supervised asked (clear asked) entered memory cmd a20
  · exact same ▸ kept.unserved other none
  · have done := @Kept.called _ _ _ _ kept ⟨written, saved, input, s, t⟩ _ _ _ called other rfl same
      (captured_interrupt _ _ _) (fun a apart => raise_other s written saved apart) (raise_cmd s written saved)
      (raise_firmware s written saved) (raise_a20 s written saved)
    exact done

end Raised

theorem Kept.step (kept : Kept aead boot events s) {emitted : List Served} (step : Step aead Clear s emitted t) :
    Kept aead boot (events ++ emitted) t := by
  cases step with
  | smi written saved input clear served => exact kept.smi clear served
  | outside stores a20 spared =>
    rw [List.append_nil]
    have same {a : Nat} (inside : InSmram a) : s.memory.apply stores a = s.memory a :=
      s.memory.apply_frame fun store member hit => spared store member (hit ▸ inside)
    have layout := layout
    obtain ⟨first, second, gate⟩ := @Kept.low _ _ _ _ { s with memory := s.memory.apply stores, a20 } kept
      fun a low high => same ⟨by omega, by omega⟩
    exact ⟨kept.past, kept.cmd, first, second, gate, kept.latched⟩

theorem Booted.kept (booted : Booted aead boot s) : Kept aead boot [] s := by
  obtain ⟨image, entry, saved, input, m, fresh, known, returned⟩ := booted
  have installed := smmSetup_cases m aead entry saved input
  rw [known] at installed
  obtain ⟨t, same, installed⟩ := installed
  cases same.symm.trans returned
  refine ⟨.nil _, installed.cmd, installed.first, installed.second, ?_, ?_⟩
  · rintro enter ⟨⟩
  · intro base taken
    rw [installed.firmware, fresh, boot_base] at taken
    cases taken

theorem run_kept (booted : Booted aead boot s) (run : Run (Step aead Clear) s events t) : Kept aead boot events t :=
  run.invariant booted.kept fun kept step => kept.step step

theorem handleSmi_returns (aead : Aead 16) (input : Smi) (smm : Nat) {m : Machine} (other : m.cmd ≠ supervisorCmd) :
    ∃ t, handleSmi aead input smm m = some t := by
  unfold handleSmi supervise
  rw [if_neg other]
  exact ⟨_, rfl⟩

/-! A session: keys for the supervisor, and then a call and its return. -/
section Session

/-- A 32-bit program, with this first byte and the id of a call in `ecx`. -/
def callingState (first : UInt8) (way : Call) : SaveState := fun k =>
  if (k : Nat) = 0 then first
  else if (k : Nat) = 0xfe then 2
  else if (k : Nat) = 0x1d4 then UInt8.ofNat way.id
  else if (k : Nat) = 0x1d5 then UInt8.ofNat (way.id / 256)
  else 0

theorem callingState_word (first : UInt8) (way : Call) {offset width : Nat} (later : 0 < offset) :
    (callingState first way).byte.word offset width = (callingState 0 way).byte.word offset width := by
  refine Memory.word_congr fun k _ => ?_
  have positive : offset + k ≠ 0 := by omega
  simp only [SaveState.byte, callingState, if_neg positive]

theorem call_callingState (first : UInt8) (way : Call) :
    call call32smmCmdid (callingState first way) = some (.i32, way) := by
  have known : format ((callingState first way).byte.word smmRev 4) = some .i32 := by
    rw [callingState_word first way (by decide)]
    cases way <;> decide
  have asked : (callingState first way).byte.word (Format.cx .i32) 4 = way.id := by
    rw [callingState_word first way (by decide)]
    cases way <;> decide
  cases way <;> simp [call, known, asked, Call.id, call32smmReturnid, call32smmEnterid]

/-- The bytes of a 32-bit save area; the revision is at 0xfc. -/
def plainState : SaveState := fun k => if (k : Nat) = 0xfe then 2 else 0

/-- The keyboard image, with a region that the OS has published. -/
theorem exists_booted : ∃ s, Booted (transparent 16) (plainState.relocated .i32) s ∧
    s.firmware = Image.keyboard.boot ∧ publishedBase s.memory = 0x1000000 := by
  let m : Machine := ⟨Image.keyboard.boot, published 0x1000000, 0, 0, 0, false⟩
  let input : Smi := ⟨0x11, .usb fun _ => 0⟩
  have installed := smmSetup_cases m (transparent 16) 0 plainState input
  have known : format (plainState.byte.word smmRev 4) = some .i32 := by decide
  rw [known] at installed
  obtain ⟨s, returned, installed⟩ := installed
  refine ⟨s, .setup .keyboard 0 plainState input m rfl known returned, installed.firmware, ?_⟩
  have kept (k : Nat) (bound : k < 8) : s.memory (0x64 + k) = published 0x1000000 (0x64 + k) :=
    installed.outside _ fun inside => by
      simp only [InSmram, smramStart] at inside
      omega
  rw [publishedBase, Memory.word_congr kept, ← publishedBase, publishedBase_published (by decide)]

theorem handleSmi_supervised (input : Smi) {m : Machine} {firmware : Firmware} {stores : List Store}
    (asked : m.cmd = supervisorCmd)
    (entered : m.firmware.enter aead (input.withMemory m.memory) = some (firmware, stores)) :
    ∃ t, handleSmi aead input buildSmmAddr m = some t ∧ t.cmd = supervisorCmd ∧ t.firmware = firmware := by
  have other : m.cmd ≠ call32smmCmdid := by
    rw [asked]
    decide
  refine ⟨{ m with firmware, memory := m.memory.apply stores }, ?_, asked, rfl⟩
  simp only [handleSmi, supervise, if_pos asked, entered, Option.map_some,
    if_neg (show buildSmmAddr ≠ buildSmmInitAddr by decide), if_neg other]

/-- The first SMI takes the region. -/
theorem first_served (fresh : s.firmware = Image.keyboard.boot) (base : publishedBase s.memory = 0x1000000) :
    ∃ e t k, Step (transparent 16) Clear s [e] t ∧ e.written = some supervisorCmd ∧ e.saved = plainState ∧
      t.cmd = supervisorCmd ∧ t.firmware = .keyboard k ∧ k.isFirstPhrase = false ∧ k.i = 0 := by
  let p := s.raise (some supervisorCmd) plainState
  have asked : p.cmd = supervisorCmd := raise_cmd _ _ _
  have same : p.firmware = .keyboard .boot := (raise_firmware _ _ _).trans fresh
  have found : publishedBase p.memory = 0x1000000 := by
    rw [← base]
    refine congrArg (· % 2 ^ 32) (Memory.word_congr fun k bound => raise_other _ _ _ (Or.inl ?_))
    have layout := layout
    omega
  let smi : Keyboard.Smi := ⟨p.memory, 0, fun _ => 0, 0, fun _ => 0⟩
  obtain ⟨k, entered, later, start, _⟩ := keyboard_first (transparent 16) 0x11 smi (fun _ => 0) .boot rfl
  rw [← same] at entered
  obtain ⟨t, served, cmd, firmware⟩ := handleSmi_supervised ⟨0x11, .keyboard smi fun _ => 0⟩ asked entered
  refine ⟨_, t, k, .smi (some supervisorCmd) plainState _ (fun _ => ?_) served, rfl, rfl, cmd, firmware, later, start⟩
  have clear : BaseClear (publishedBase smi.memory) := by
    rw [found]
    exact high_base_clear
  rw [fresh]
  exact clear_keyboard 0x11 (fun _ => 0) .boot clear

/-- The keyboard image takes a key, in whatever memory. -/
theorem key_entered {k : Keyboard.State} (later : k.isFirstPhrase = false) (start : k.i = 0) (memory : Memory) :
    ∃ after stores, (Firmware.keyboard k).enter (transparent 16)
      ⟨0x11, .keyboard ⟨memory, 0x1e, fun _ => 0, 0, fun _ => 0⟩ fun _ => 0⟩ = some (after, stores) := by
  let key : Keyboard.Smi := ⟨memory, 0x1e, fun _ => 0, 0, fun _ => 0⟩
  have typed : Keyboard.supervisor (transparent 16)
      { key with memory := memory.apply (EnableSse.stores 0x11 memory) } (fun _ => 0) k = _ :=
    Keyboard.supervisor_make (transparent 16) (fun _ => 0) later (by omega) (by omega)
      (show (0x1e : UInt8) ≤ 0x6f by decide)
  have entered : (Firmware.keyboard k).enter (transparent 16) ⟨0x11, .keyboard key fun _ => 0⟩ = _ :=
    enter_served rfl (serve_keyboard typed)
  exact ⟨_, _, entered⟩

/-- A key, which the I/O APIC raises as an SMI. -/
theorem key_served {k : Keyboard.State} (asked : s.cmd = supervisorCmd) (running : s.firmware = .keyboard k)
    (later : k.isFirstPhrase = false) (start : k.i = 0) :
    ∃ e t, Step (transparent 16) Clear s [e] t ∧ e.written = none ∧ e.saved = plainState := by
  have still : (s.raise none plainState).cmd = supervisorCmd := (raise_cmd s none plainState).trans asked
  have same : (s.raise none plainState).firmware = .keyboard k := (raise_firmware _ _ _).trans running
  obtain ⟨after, stores, entered⟩ := key_entered later start (s.raise none plainState).memory
  rw [← same] at entered
  let key : Keyboard.Smi := ⟨(s.raise none plainState).memory, 0x1e, fun _ => 0, 0, fun _ => 0⟩
  obtain ⟨t, served, _⟩ := handleSmi_supervised ⟨0x11, .keyboard key fun _ => 0⟩ still entered
  refine ⟨_, t, .smi none plainState _ (fun _ => ?_) served, rfl, rfl⟩
  rw [running]
  exact clear_later 0x11 key (fun _ => 0) later

theorem call_served (s : Machine) (way : Call) :
    ∃ e t, Step (transparent 16) Clear s [e] t ∧ e.written = some call32smmCmdid ∧ e.saved = callingState 0 way := by
  have other : (s.raise (some call32smmCmdid) (callingState 0 way)).cmd ≠ supervisorCmd := by
    rw [raise_cmd, Option.getD_some]
    decide
  obtain ⟨t, served⟩ := handleSmi_returns (transparent 16) ⟨0, .usb fun _ => 0⟩ buildSmmAddr other
  exact ⟨_, t, .smi (some call32smmCmdid) (callingState 0 way) _
    (fun supervised => absurd supervised (show call32smmCmdid ≠ supervisorCmd by decide)) served, rfl, rfl⟩

end Session

end Runs

section Stale
variable {aead : Aead 16} {boot : SaveState} {events : List Served} {s t : Machine}

/-- An SMI of a device resumes every program as it was, if what the supervisor finds, in
case it is called, does not lead into SMRAM. -/
def DevicesTransparent (aead : Aead 16) (t : Machine) : Prop :=
  ∀ saved input u, (t.cmd = supervisorCmd → Clear t.firmware (input.withMemory (t.raise none saved).memory)) →
    handleSmi aead input buildSmmAddr (t.raise none saved) = some u →
    captured u.memory (buildSmmAddr + cpu) = saved

/-- An SMI of a device is served under the last command. -/
theorem Kept.device (kept : Kept aead boot events t) {saved : SaveState} {input : Smi} {u : Machine}
    (clear : t.cmd = supervisorCmd → Clear t.firmware (input.withMemory (t.raise none saved).memory))
    (served : handleSmi aead input buildSmmAddr (t.raise none saved) = some u) :
    Resumes aead boot events ⟨none, saved, input, t, u⟩ := by
  have next := kept.smi (show (none : Option UInt8).getD t.cmd = supervisorCmd → _ from clear) served
  exact next.past events _ [] rfl

theorem transfer_first (boot saved : SaveState) (f : Format) :
    boot.transfer f saved ⟨0, by decide⟩ = boot ⟨0, by decide⟩ := by
  have below : 0 < f.ip ∧ 0 < f.regs := by cases f <;> decide
  simp only [SaveState.transfer, SaveState.set]
  rw [dif_neg (by omega), dif_neg (by omega)]

end Stale

end Aurora.Smm.Dispatch
