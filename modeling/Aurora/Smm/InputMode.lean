import Aurora.Smm.Keyboard

/-! Trusted-input mode over whole runs of SMIs. The supervisor keeps the mode
in a buffer index; the automaton below is the mode by itself, and the supervisor
follows it with the interrupt redirection and the saved vector in step. -/
namespace Aurora.Smm.Keyboard
open Lib

inductive Mode where
  | unhooked
  | idle
  | armed (captured : Nat)
deriving DecidableEq, Repr

/-- An SMI in session either ends it (Enter released), captures a make code, or
passes. A session has room for 256 make codes. -/
def Mode.next : Mode → UInt8 → Option Mode
  | unhooked, _ | idle, _ => some (armed 0)
  | armed captured, data =>
    if data = 0x9c then some idle
    else if data ≤ 0x6f then if captured < 256 then some (armed (captured + 1)) else none
    else some (armed captured)

/-- No session of these SMIs captures more than 256 make codes. -/
def Bounded (smis : List Smi) : Prop :=
  ((smis.map (·.data)).foldlM Mode.next .unhooked).isSome

/-- SMIs in order, with nobody else writing the I/O APIC. -/
def enter (aead : Aead 16) : List Smi → State × IoApic → Option (State × IoApic)
  | [], r => some r
  | smi :: rest, (s, io) =>
    match supervisor aead smi io s with
    | none => none
    | some (s, io, _) => enter aead rest (s, io)

/-- The supervisor's variables and the redirection register in each mode. -/
def Mode.Matches (v : Nat) : Mode → State × IoApic → Prop
  | unhooked, (s, io) => s.isFirstPhrase = true ∧ s.i = 0 ∧ io hijackedIrq = v
  | idle, (s, io) => s.isFirstPhrase = false ∧ s.i = -1 ∧ io hijackedIrq = v ∧ s.kbdVec = v
  | armed captured, (s, io) =>
    s.isFirstPhrase = false ∧ s.i = captured ∧ io hijackedIrq = apicDmSmi ∧ s.kbdVec = v

theorem Mode.Matches.step {mode next : Mode} (held : mode.Matches v (s, io))
    (aead : Aead 16) (smi : Smi) (moved : mode.next smi.data = some next) :
    ∃ r, supervisor aead smi io s = some r ∧ next.Matches v (r.1, r.2.1) := by
  cases mode with
  | unhooked =>
    obtain ⟨first, start, same⟩ := held
    cases moved
    exact ⟨_, supervisor_first aead io first, rfl, start,
      Function.update_self hijackedIrq apicDmSmi io, same⟩
  | idle =>
    obtain ⟨later, ended, same, _⟩ := held
    cases moved
    exact ⟨_, supervisor_rearm aead io later ended, later, rfl,
      Function.update_self hijackedIrq apicDmSmi io, same⟩
  | armed captured =>
    obtain ⟨later, index, hooked, saved⟩ := held
    have active : s.i ≠ -1 := by omega
    simp only [Mode.next] at moved
    split at moved
    · rename_i enter
      cases moved
      exact ⟨_, supervisor_enter aead io later active enter, later, rfl,
        (Function.update_self hijackedIrq s.kbdVec io).trans saved, saved⟩
    rename_i key
    split at moved
    · rename_i make
      split at moved
      · rename_i room
        cases moved
        refine ⟨_, supervisor_make aead io later (by omega) (by omega) make, later, ?_, hooked, saved⟩
        dsimp only
        omega
      · contradiction
    · rename_i high
      cases moved
      exact ⟨_, supervisor_pass aead io later active key high, later, index, hooked, saved⟩

/-- A run stays defined and follows the automaton, from any mode. -/
theorem Mode.Matches.run {mode last : Mode} {r : State × IoApic} (held : mode.Matches v r)
    (aead : Aead 16) {smis : List Smi}
    (moved : (smis.map (·.data)).foldlM Mode.next mode = some last) :
    ∃ t, enter aead smis r = some t ∧ last.Matches v t := by
  induction smis generalizing mode r with
  | nil =>
    cases moved
    exact ⟨r, rfl, held⟩
  | cons smi rest ih =>
    rw [List.map_cons, List.foldlM_cons] at moved
    obtain ⟨next, first, others⟩ := Option.bind_eq_some_iff.mp moved
    obtain ⟨result, stepped, followed⟩ := held.step aead smi first
    obtain ⟨t, reached, final⟩ := ih followed others
    refine ⟨t, ?_, final⟩
    rw [enter, stepped]
    exact reached

/-- No SMI leads back to the mode before the first one. -/
theorem Mode.next_hooked {mode next : Mode} {data : UInt8} (moved : mode.next data = some next) :
    next ≠ .unhooked := by
  rintro rfl
  cases mode with
  | unhooked | idle => simp [Mode.next] at moved
  | armed captured =>
    simp only [Mode.next] at moved
    split at moved
    · simp at moved
    split at moved
    · split at moved <;> simp at moved
    · simp at moved

theorem Mode.run_hooked {mode last : Mode} {smis : List Smi}
    (moved : (smis.map (·.data)).foldlM Mode.next mode = some last) (entered : smis ≠ []) :
    last ≠ .unhooked := by
  induction smis generalizing mode with
  | nil => contradiction
  | cons smi rest ih =>
    rw [List.map_cons, List.foldlM_cons] at moved
    obtain ⟨next, first, others⟩ := Option.bind_eq_some_iff.mp moved
    cases rest with
    | nil =>
      cases others
      exact Mode.next_hooked first
    | cons second rest => exact ih others (List.cons_ne_nil second rest)

/-- In every bounded run, after every SMI: the keyboard interrupt is redirected
to SMM exactly while a session is active, it is back at its own vector exactly
while none is, and the saved vector is the original one throughout. -/
theorem input_mode_register (aead : Aead 16) (io : IoApic) (foreign : io hijackedIrq ≠ apicDmSmi)
    (smis : List Smi) (entered : smis ≠ []) (bounded : Bounded smis) :
    ∃ s last, enter aead smis (.boot, io) = some (s, last) ∧
      (last hijackedIrq = apicDmSmi ↔ s.isFirstPhrase = false ∧ 0 ≤ s.i) ∧
      (last hijackedIrq = io hijackedIrq ↔ s.i = -1) ∧ s.kbdVec = io hijackedIrq := by
  obtain ⟨mode, moved⟩ := Option.isSome_iff_exists.mp bounded
  have begun : Mode.unhooked.Matches (io hijackedIrq) (.boot, io) := ⟨rfl, rfl, rfl⟩
  obtain ⟨⟨s, last⟩, reached, held⟩ := begun.run aead moved
  refine ⟨s, last, reached, ?_⟩
  cases mode with
  | unhooked =>
    exact absurd rfl (Mode.run_hooked moved entered)
  | idle =>
    obtain ⟨_, ended, restored, saved⟩ := held
    refine ⟨⟨fun hooked => absurd (restored.symm.trans hooked) foreign, by omega⟩, ?_, saved⟩
    exact ⟨fun _ => ended, fun _ => restored⟩
  | armed captured =>
    obtain ⟨later, index, hooked, saved⟩ := held
    refine ⟨⟨fun _ => ⟨later, by omega⟩, fun _ => hooked⟩, ?_, saved⟩
    exact ⟨fun restored => absurd (restored.symm.trans hooked) foreign, by omega⟩

theorem input_mode_register_session :
    let smi := fun data => (⟨fun _ => 0, data, fun _ => 0, 0xa8000, fun _ => 0⟩ : Smi)
    Bounded [smi 0, smi 0x1e, smi 0x9c, smi 0] ∧
    ∃ s last, enter (transparent 16) [smi 0, smi 0x1e, smi 0x9c, smi 0] (.boot, fun _ => 0x31) =
        some (s, last) ∧
      (last hijackedIrq = apicDmSmi ↔ s.isFirstPhrase = false ∧ 0 ≤ s.i) ∧
      (last hijackedIrq = 0x31 ↔ s.i = -1) ∧ s.kbdVec = 0x31 :=
  ⟨rfl, input_mode_register (transparent 16) (fun _ => 0x31) (by decide) _ (List.cons_ne_nil _ _) rfl⟩

end Aurora.Smm.Keyboard
