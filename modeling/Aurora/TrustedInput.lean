import Aurora.Ring.Order
import Aurora.Smm.InputMode
import Aurora.Enclave.SecureInput

/-! Trusted keyboard input from end to end: scan codes read by the keyboard
supervisor, the text it hands over when Enter is released, and the passphrase
the client makes of it. -/
namespace Aurora.TrustedInput
open Lib Smm Smm.Keyboard SecureInput

/-- The make codes among the bytes of some SMIs. -/
def captured (smis : List Smi) : List UInt8 := (smis.map (·.data)).filter (· ≤ 0x6f)

/-- The region after a session: key bytes, and the release of Enter. -/
def session (aead : Aead 16) (keys : List Smi) (last : Smi) (s : State) (io : IoApic) : Option Memory :=
  match enter aead keys (s, io) with
  | none => none
  | some (s, io) =>
    match supervisor aead last io s with
    | none => none
    | some (_, _, stores) => some (region (last.memory.apply stores) s.shmemBase)

/-- The passphrase the client gets, if nobody else touches the region. -/
def passphrase (aead : Aead 16) (fuel : Nat) (beyond : Memory) (keys : List Smi) (last : Smi)
    (s : State) (io : IoApic) : Option (List UInt8) := do
  let shm ← session aead keys last s io
  let pass ← secureInput aead.decrypt fuel shm beyond
  readPassphrase pass

/-- A session in progress: the text so far fills the front of the buffer. -/
structure Typed (text : List UInt8) (s : State) : Prop where
  later : s.isFirstPhrase = false
  index : s.i = text.length
  buffer : s.kbdBuffer = text ++ List.replicate (256 - text.length) 0

namespace Typed
variable {text : List UInt8} {s : State}

theorem length_le (typed : Typed text s) : text.length ≤ 256 := by
  have sized := s.sized
  rw [typed.buffer, List.length_append, List.length_replicate] at sized
  omega

theorem make (typed : Typed text s) (aead : Aead 16) (io : IoApic) {smi : Smi}
    (make : smi.data ≤ 0x6f) (room : text.length < 256) :
    ∃ t, supervisor aead smi io s = some (t, io, []) ∧ Typed (text ++ [xlate smi.data]) t ∧
      t.shmemBase = s.shmemBase := by
  obtain ⟨later, index, buffer⟩ := typed
  refine ⟨_, supervisor_make aead io later (by omega) (by omega) make, ⟨later, ?_, ?_⟩, rfl⟩
  · simp only [index, List.length_append, List.length_singleton]
    omega
  · obtain ⟨free, same⟩ : ∃ free, 256 - text.length = free + 1 := ⟨255 - text.length, by omega⟩
    have fewer : 256 - (text ++ [xlate smi.data]).length = free := by
      simp only [List.length_append, List.length_singleton]
      omega
    simp only [buffer, index, Int.toNat_natCast, same, fewer, List.replicate_succ]
    rw [List.set_append_right text.length _ (Nat.le_refl _), Nat.sub_self, List.set_cons_zero,
      List.append_assoc, List.singleton_append]

theorem pass (typed : Typed text s) (aead : Aead 16) (io : IoApic) {smi : Smi}
    (key : smi.data ≠ 0x9c) (high : ¬ smi.data ≤ 0x6f) : supervisor aead smi io s = some (s, io, []) :=
  supervisor_pass aead io typed.later (by rw [typed.index]; omega) key high

/-- Key bytes of a session append their translations, and touch nothing else. -/
theorem keys (typed : Typed text s) (aead : Aead 16) (io : IoApic) {keys : List Smi}
    (held : ∀ smi ∈ keys, smi.data ≠ 0x9c) (room : text.length + (captured keys).length ≤ 256) :
    ∃ t, enter aead keys (s, io) = some (t, io) ∧ Typed (text ++ (captured keys).map xlate) t ∧
      t.shmemBase = s.shmemBase := by
  induction keys generalizing text s with
  | nil => exact ⟨s, rfl, by simpa [captured] using typed, rfl⟩
  | cons smi rest ih =>
    have others : ∀ smi ∈ rest, smi.data ≠ 0x9c :=
      fun key member => held key (List.mem_cons_of_mem _ member)
    by_cases make : smi.data ≤ 0x6f
    · have split : captured (smi :: rest) = smi.data :: captured rest := by simp [captured, make]
      rw [split, List.length_cons] at room
      obtain ⟨next, stepped, typed, first⟩ := typed.make aead io make (by omega)
      obtain ⟨t, reached, final, base⟩ := ih typed others (by simp; omega)
      refine ⟨t, ?_, ?_, base.trans first⟩
      · simpa only [enter, stepped] using reached
      · simpa [split] using final
    · have split : captured (smi :: rest) = captured rest := by simp [captured, make]
      rw [split] at room ⊢
      obtain ⟨t, reached, final⟩ := ih typed others room
      refine ⟨t, ?_, final⟩
      simpa only [enter, typed.pass aead io (held smi List.mem_cons_self) make] using reached

/-- The plaintext handed over starts with the text and a zero byte. -/
theorem plaintext (typed : Typed text s) (smi : Smi) (room : text.length < 256) :
    ∃ rest, padded (s.text smi) 4080 smi.random = text ++ 0 :: rest ∧
      (text ++ 0 :: rest).length = msgSize := by
  have front : (s.text smi).byte.read 0 256 = s.kbdBuffer := by
    have same : (s.text smi).byte.read 0 256 = Memory.read (fun k => s.kbdBuffer.getD k 0) 0 256 :=
      Memory.read_congr fun k bound => by
        rw [Nat.zero_add]
        exact if_pos bound
    rw [same, ← s.sized]
    exact Memory.read_getD s.kbdBuffer
  obtain ⟨free, zeros⟩ : ∃ free, 256 - text.length = free + 1 := ⟨255 - text.length, by omega⟩
  have whole : padded (s.text smi) 4080 smi.random = text ++ 0 :: (List.replicate free 0 ++
      (s.text smi).byte.read (0 + 256) 3824 ++ smi.random.read 0 (msgSize - 4080)) := by
    rw [padded, show 4080 = 256 + 3824 from rfl, Memory.read_append, front, typed.buffer, zeros,
      List.replicate_succ]
    simp only [List.append_assoc, List.cons_append]
  exact ⟨_, whole, whole ▸ padded_length (by decide)⟩

end Typed

/-- One waiting message: the loop takes it and ends on the empty ring. -/
theorem drain_single {aead : Aead 16} {shm : Memory}
    (queue : Order.Queue aead .inbound shm 0 [message]) (reply : Reply) (fuel : Nat) :
    drain aead.decrypt true (fuel + 2) reply shm =
      some (⟨message, msgSize⟩, [flip .inbound 0 Direction.inbound.sender]) := by
  obtain ⟨received, popped⟩ := queue.get
  have first : get aead.decrypt .inbound true shm = _ := received
  have second : get aead.decrypt .inbound true
      (shm.apply [flip .inbound 0 Direction.inbound.sender]) = _ := popped.get_empty
  simp only [drain, first, second]
  rfl

/-- The release of Enter puts the text of the session into the ring. -/
theorem Typed.session_end {text : List UInt8} {t : State} (typed : Typed text t) (aead : Aead 16)
    (io : IoApic) {last : Smi} (released : last.data = 0x9c) :
    ∃ r, supervisor aead last io t = some r ∧ r.2.2 = rebase 32 t.shmemBase
      (putMessage aead .inbound (padded (t.text last) 4080 last.random)
        (region last.memory t.shmemBase)).2 := by
  have active : t.i ≠ -1 := by
    rw [typed.index]
    omega
  refine ⟨_, supervisor_enter aead io typed.later active released, ?_⟩
  simp only [Aurora.Keyboard.putInBuffer, put, accept_text]

/-- The receiving end, for one waiting message. -/
theorem secureInput_single {aead : Aead 16} {shm : Memory}
    (queue : Order.Queue aead .inbound shm 0 [message]) (whole : message.length = msgSize)
    (beyond : Memory) (fuel : Nat) :
    secureInput aead.decrypt (fuel + 2) shm beyond = some ((cString message).take 1024 ++
      List.replicate (1024 - ((cString message).take 1024).length) 0) := by
  rw [secureInput, drain_single queue, Option.map_some, Option.some.injEq]
  exact pass_eq whole beyond

/-- What the user typed: the translations, without keys that have none and
without the final carriage return. -/
def typed (keys : List Smi) : List UInt8 := (((captured keys).map xlate).filter (· != 0)).dropLast

section EndToEnd
variable (aead : Aead 16) {s : State} (io : IoApic) {keys : List Smi} {last : Smi} (beyond : Memory)
  (later : s.isFirstPhrase = false) (armed : s.i = 0) (zeroed : s.kbdBuffer = List.replicate 256 0)
  (held : ∀ smi ∈ keys, smi.data ≠ 0x9c) (released : last.data = 0x9c)
  (fits : (captured keys).length ≤ 255)
  (empty : ∀ i < maxEntry, region last.memory s.shmemBase (Direction.inbound.owner i) = inSmm)
include later armed zeroed held released fits empty

/-- The passphrase is the translated text up to its first zero byte, without
its last character. -/
theorem passphrase_eq (fuel : Nat) :
    passphrase aead (fuel + 2) beyond keys last s io =
      if cString ((captured keys).map xlate) = [] then none
      else some (cString ((captured keys).map xlate)).dropLast := by
  have start : Typed [] s := ⟨later, armed, zeroed⟩
  obtain ⟨t, entered, text, base⟩ := start.keys aead io held (by simpa using fits.trans (by decide))
  rw [List.nil_append] at text
  have short : ((captured keys).map xlate).length < 256 := by
    rw [List.length_map]
    omega
  obtain ⟨rest, plain, whole⟩ := text.plaintext last short
  obtain ⟨r, ended, stores⟩ := text.session_end aead io released
  rw [plain, base] at stores
  have queue := Order.Queue.put_window aead last.memory s.shmemBase whole empty
  have taken : (cString ((captured keys).map xlate)).take 1024 = cString ((captured keys).map xlate) := by
    refine List.take_of_length_le ?_
    have bound := (cString_starts ((captured keys).map xlate)).length_le
    omega
  have received := secureInput_single queue whole beyond fuel
  rw [cString_append_zero, taken] at received
  simp only [passphrase, session, region, entered, ended, base, stores, Option.bind_eq_bind,
    Option.bind_some, received]
  refine readPassphrase_eq cString_nonzero ?_
  have bound := (cString_starts ((captured keys).map xlate)).length_le
  omega

/-- The user's text arrives exactly when no captured key translates to zero. -/
theorem trusted_input_iff_no_zero (final : (captured keys).getLast? = some 0x1c) (fuel : Nat)
    (enough : 2 ≤ fuel) :
    passphrase aead fuel beyond keys last s io = some (typed keys) ↔
      ∀ code ∈ captured keys, xlate code ≠ 0 := by
  obtain ⟨extra, rfl⟩ := Nat.exists_eq_add_of_le' enough
  rw [passphrase_eq aead io beyond later armed zeroed held released fits empty]
  obtain ⟨codes, split⟩ := List.getLast?_eq_some_iff.mp final
  have last : xlate 0x1c ≠ 0 := by decide
  unfold typed
  rw [split, List.map_append, List.map_singleton]
  constructor
  · intro arrived
    by_contra some
    obtain ⟨code, member, zero⟩ : ∃ code ∈ codes ++ [0x1c], xlate code = 0 := by simpa using some
    have early : 0 ∈ codes.map xlate := by
      rcases List.mem_append.mp member with earlier | final
      · exact zero ▸ List.mem_map_of_mem earlier
      · cases List.mem_singleton.mp final
        exact absurd zero last
    have shorter := cString_length_lt early last
    split at arrived
    · contradiction
    · rename_i text
      have lengths := congrArg List.length (Option.some.inj arrived)
      have positive := List.length_pos_iff.mpr text
      simp only [List.length_dropLast] at lengths
      omega
  · intro nonzero
    have same : ∀ byte ∈ codes.map xlate ++ [xlate 0x1c], byte ≠ 0 := by
      rw [← List.map_singleton, ← List.map_append]
      exact List.forall_mem_map.mpr nonzero
    have kept : (codes.map xlate ++ [xlate 0x1c]).filter (· != 0) = codes.map xlate ++ [xlate 0x1c] :=
      List.filter_eq_self.mpr (by simpa using same)
    rw [cString_eq_self same, kept, if_neg (by simp)]

end EndToEnd

/-- An armed session at a region of zeros, as `init_ring_buffer` leaves the IN
ring, with the i8042 delivering these bytes. -/
def armedState : State :=
  { State.boot with isFirstPhrase := false, kbdVec := 0x31, shmemBase := 0x1000000 }

def keystroke (data : UInt8) : Smi := ⟨fun _ => 0, data, fun _ => 0, 0xa8000, fun _ => 0⟩

/-- `a`, left shift, `b`, Enter: the shift key ends the text, and the string cut
there loses its only character. -/
theorem shift_key_truncates :
    passphrase (transparent 16) 2 (fun _ => 0) [keystroke 0x1e, keystroke 0x2a, keystroke 0x30,
      keystroke 0x1c] (keystroke 0x9c) armedState (fun _ => apicDmSmi) = some [] ∧
    typed [keystroke 0x1e, keystroke 0x2a, keystroke 0x30, keystroke 0x1c] = [0x61, 0x62] := by
  refine ⟨?_, by decide⟩
  exact (passphrase_eq (transparent 16) (fun _ => apicDmSmi) (fun _ => 0) rfl rfl rfl (by decide) rfl
    (by decide) (fun _ _ => rfl) 0).trans (by decide)

theorem trusted_input_iff_no_zero_plain_text :
    passphrase (transparent 16) 2 (fun _ => 0) [keystroke 0x1e, keystroke 0x9e, keystroke 0x1c]
      (keystroke 0x9c) armedState (fun _ => apicDmSmi) =
        some (typed [keystroke 0x1e, keystroke 0x9e, keystroke 0x1c]) := by
  have codes : captured [keystroke 0x1e, keystroke 0x9e, keystroke 0x1c] = [0x1e, 0x1c] := by decide
  refine (trusted_input_iff_no_zero (transparent 16) (fun _ => apicDmSmi) (fun _ => 0) rfl rfl rfl
    (by decide) rfl (by decide) (fun _ _ => rfl) (by decide) 2 (Nat.le_refl 2)).mpr ?_
  rw [codes, List.forall_mem_cons, List.forall_mem_singleton]
  decide

end Aurora.TrustedInput
