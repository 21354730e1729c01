import Aurora.TrustedInput

/-! Trusted-input sessions over whole histories of SMIs. Between two SMIs
anybody may reprogram the I/O APIC, so each entry of the supervisor finds a
redirection table of its own. What is in the buffer is read off the history:
the make codes since the SMI that armed the session. -/
namespace Aurora.Sessions
open Lib Smm Smm.Keyboard TrustedInput

/-- An SMI and the I/O APIC it finds. -/
abbrev Entry := Smi × IoApic

def entry (aead : Aead 16) (s : State) (e : Entry) : Option State :=
  (supervisor aead e.1 e.2 s).map (·.1)

def entries (aead : Aead 16) (history : List Entry) (s : State) : Option State :=
  history.foldlM (entry aead) s

/-! Which branch of the supervisor an SMI takes. -/

def Arms (s : State) : Prop := s.isFirstPhrase = true ∨ s.i = -1

/-- `put_in_buffer(kbd_buffer, 4080)` is called. -/
def Puts (smi : Smi) (s : State) : Prop := s.isFirstPhrase = false ∧ s.i ≠ -1 ∧ smi.data = 0x9c

/-- `kbd_buffer[i] = pckbd_sysrq_xlate[kbd_data]` is executed. -/
def Captures (smi : Smi) (s : State) : Prop := s.isFirstPhrase = false ∧ s.i ≠ -1 ∧ smi.data ≤ 0x6f

/-- The make codes a stretch of a history delivers. -/
def codes (history : List Entry) : List UInt8 := captured (history.map (·.1))

/-- The supervisor's variables after a history, by mode. In a session the
buffer holds what was captured since the SMI that armed it. -/
def Follows (aead : Aead 16) (history : List Entry) : Mode → State → Prop
  | .unhooked, s => s.isFirstPhrase = true ∧ s.i = 0
  | .idle, s => s.isFirstPhrase = false ∧ s.i = -1
  | .armed count, s => ∃ earlier arming session, history = earlier ++ arming :: session ∧
      (∃ before, entries aead earlier .boot = some before ∧ Arms before) ∧
      (∀ e ∈ session, e.1.data ≠ 0x9c) ∧
      Typed ((codes session).map xlate) s ∧ (codes session).length = count

theorem codes_concat (history : List Entry) (e : Entry) :
    codes (history ++ [e]) = codes history ++ if e.1.data ≤ 0x6f then [e.1.data] else [] := by
  simp only [codes, captured, List.map_append, List.filter_append, List.map_singleton]
  split <;> simp [*]

theorem entries_concat (aead : Aead 16) (history : List Entry) (e : Entry) (s : State) :
    entries aead (history ++ [e]) s = (entries aead history s).bind (entry aead · e) := by
  simp only [entries, List.foldlM_append, List.foldlM_cons, List.foldlM_nil, Option.bind_eq_bind,
    Option.pure_def, Option.bind_fun_some]

section Step
variable {aead : Aead 16} {history : List Entry} {mode : Mode} {s : State}

/-- Either the supervisor follows the automaton, or both stop at a full buffer. -/
theorem Follows.step (reached : entries aead history .boot = some s)
    (follows : Follows aead history mode s) (e : Entry) :
    (∃ next t, mode.next e.1.data = some next ∧ entry aead s e = some t ∧
      entries aead (history ++ [e]) .boot = some t ∧ Follows aead (history ++ [e]) next t ∧
      (Captures e.1 s → 0 ≤ s.i ∧ s.i < 256)) ∨
    mode.next e.1.data = none ∧ Captures e.1 s ∧ s.i = 256 := by
  obtain ⟨smi, io⟩ := e
  have longer : ∀ t, entry aead s (smi, io) = some t →
      entries aead (history ++ [(smi, io)]) .boot = some t := by
    intro t entered
    rw [entries_concat, reached, Option.bind_some, entered]
  cases mode with
  | unhooked =>
    obtain ⟨first, start⟩ := follows
    have entered : entry aead s (smi, io) = some _ := congrArg _ (supervisor_first aead io first)
    refine Or.inl ⟨.armed 0, _, rfl, entered, longer _ entered, ?_, fun captures => ?_⟩
    · exact ⟨history, _, [], rfl, ⟨s, reached, Or.inl first⟩, by simp, ⟨rfl, start, rfl⟩, rfl⟩
    · exact absurd (first.symm.trans captures.1) (by decide)
  | idle =>
    obtain ⟨later, ended⟩ := follows
    have entered : entry aead s (smi, io) = some _ := congrArg _ (supervisor_rearm aead io later ended)
    refine Or.inl ⟨.armed 0, _, rfl, entered, longer _ entered, ?_, fun captures => ?_⟩
    · exact ⟨history, _, [], rfl, ⟨s, reached, Or.inr ended⟩, by simp, ⟨later, rfl, rfl⟩, rfl⟩
    · exact absurd ended captures.2.1
  | armed count =>
    obtain ⟨earlier, arming, session, rfl, armed, held, typed, counted⟩ := follows
    have index : s.i = count := by rw [typed.index, List.length_map, counted]
    have active : s.i ≠ -1 := by omega
    by_cases enter : smi.data = 0x9c
    · have entered : entry aead s (smi, io) = some _ :=
        congrArg _ (supervisor_enter aead io typed.later active enter)
      refine Or.inl ⟨.idle, _, by simp [Mode.next, enter], entered, longer _ entered,
        ⟨typed.later, rfl⟩, fun captures => ?_⟩
      exact absurd (enter ▸ captures.2.2) (by decide)
    have grown : earlier ++ arming :: session ++ [(smi, io)] =
        earlier ++ arming :: (session ++ [(smi, io)]) := by simp
    have still : ∀ e ∈ session ++ [(smi, io)], e.1.data ≠ 0x9c :=
      List.forall_mem_append.mpr ⟨held, List.forall_mem_singleton.mpr enter⟩
    by_cases make : smi.data ≤ 0x6f
    · by_cases room : count < 256
      · obtain ⟨t, stored, more, _⟩ := typed.make aead io make (by simpa [counted] using room)
        have entered : entry aead s (smi, io) = some t := congrArg _ stored
        refine Or.inl ⟨.armed (count + 1), t, by simp [Mode.next, enter, make, room], entered,
          longer _ entered, ⟨earlier, arming, _, grown, armed, still, ?_, ?_⟩, fun _ => by omega⟩
        · simpa [codes_concat, make] using more
        · simp [codes_concat, make, counted]
      · have full := typed.length_le
        rw [List.length_map, counted] at full
        exact Or.inr ⟨by simp [Mode.next, enter, make, room], ⟨typed.later, active, make⟩, by omega⟩
    · have entered : entry aead s (smi, io) = some s := congrArg _ (typed.pass aead io enter make)
      refine Or.inl ⟨.armed count, s, by simp [Mode.next, enter, make], entered, longer _ entered,
        ⟨earlier, arming, _, grown, armed, still, ?_, ?_⟩, fun captures => absurd captures.2.2 make⟩
      · simpa [codes_concat, make] using typed
      · simpa [codes_concat, make] using counted

/-- A run stays defined and follows the automaton. -/
theorem Follows.run (reached : entries aead history .boot = some s)
    (follows : Follows aead history mode s) {more : List Entry} {last : Mode}
    (moved : ((more.map (·.1)).map (·.data)).foldlM Mode.next mode = some last) :
    ∃ t, entries aead more s = some t ∧ Follows aead (history ++ more) last t := by
  induction more generalizing history mode s with
  | nil =>
    cases moved
    exact ⟨s, rfl, by simpa using follows⟩
  | cons e rest ih =>
    rw [List.map_cons, List.map_cons, List.foldlM_cons] at moved
    obtain ⟨next, first, others⟩ := Option.bind_eq_some_iff.mp moved
    obtain ⟨_, t, same, entered, longer, grown, _⟩ | ⟨stuck, _⟩ := follows.step reached e
    · cases same.symm.trans first
      obtain ⟨u, further, final⟩ := ih longer grown others
      refine ⟨u, ?_, by simpa using final⟩
      simpa [entries, entered] using further
    · cases stuck.symm.trans first

end Step

/-- At every execution of the capture in these SMIs, the index is in bounds. -/
def IndexInBounds (aead : Aead 16) : List Entry → State → Prop
  | [], _ => True
  | e :: rest, s => (Captures e.1 s → 0 ≤ s.i ∧ s.i < 256) ∧
      ∀ t, entry aead s e = some t → IndexInBounds aead rest t

theorem Follows.inBounds_iff {aead : Aead 16} {history : List Entry} {mode : Mode} {s : State}
    (reached : entries aead history .boot = some s) (follows : Follows aead history mode s)
    (more : List Entry) :
    IndexInBounds aead more s ↔ (((more.map (·.1)).map (·.data)).foldlM Mode.next mode).isSome := by
  induction more generalizing history mode s with
  | nil => simp [IndexInBounds]
  | cons e rest ih =>
    rw [IndexInBounds, List.map_cons, List.map_cons, List.foldlM_cons]
    obtain ⟨next, t, first, entered, longer, grown, inside⟩ | ⟨stuck, captures, full⟩ :=
      follows.step reached e
    · rw [first, Option.bind_eq_bind, Option.bind_some, ← ih longer grown]
      constructor
      · intro bounded
        exact bounded.2 t entered
      · intro bounded
        refine ⟨inside, fun u same => ?_⟩
        cases entered.symm.trans same
        exact bounded
    · rw [stuck]
      refine ⟨fun bounded => ?_, fun none => absurd none (by simp)⟩
      have inside := (bounded.1 captures).2
      omega

/-- For every sequence of SMIs, whatever the i8042 delivers: the index is in
bounds at every capture exactly if no session captures more than 256 make codes. -/
theorem capture_index_bounded_iff (aead : Aead 16) (history : List Entry) :
    IndexInBounds aead history .boot ↔ Bounded (history.map (·.1)) := by
  have booted : Follows aead [] .unhooked .boot := ⟨rfl, rfl⟩
  exact booted.inBounds_iff rfl history

theorem repeated_key {data : UInt8} (make : data ≤ 0x6f) {count more : Nat} (room : count ≤ 256)
    (many : 256 < count + more) :
    (List.replicate more data).foldlM Mode.next (.armed count) = none := by
  have key : data ≠ 0x9c := by
    rintro rfl
    exact absurd make (by decide)
  induction more generalizing count with
  | zero => omega
  | succ more ih =>
    rw [List.replicate_succ, List.foldlM_cons, Mode.next, if_neg key, if_pos make]
    by_cases below : count < 256
    · rw [if_pos below]
      exact ih below (by omega)
    · rw [if_neg below]
      rfl

/-- A key held down: its make code repeats, and the 257th one of the session is
stored behind the buffer. -/
theorem held_key_overruns :
    ¬ IndexInBounds (transparent 16) (List.replicate 258 (keystroke 0x1e, fun _ => 0x31)) .boot := by
  have booted : Follows (transparent 16) [] .unhooked .boot := ⟨rfl, rfl⟩
  have make : (0x1e : UInt8) ≤ 0x6f := by decide
  have stuck := repeated_key make (Nat.zero_le 256) (show 256 < 0 + 257 by decide)
  rw [booted.inBounds_iff rfl, List.map_replicate, List.map_replicate, List.replicate_succ,
    List.foldlM_cons, Mode.next, Option.bind_eq_bind, Option.bind_some, keystroke, stuck]
  decide

/-- Whenever the supervisor hands a text over, the buffer holds the translations
of the make codes read since the session was armed, in order, and then zeros:
nothing of an earlier session, and nothing of the bytes in between. -/
theorem session_isolation (aead : Aead 16) (history : List Entry) (last : Entry)
    (bounded : Bounded ((history ++ [last]).map (·.1))) :
    ∃ s, entries aead history .boot = some s ∧
      (Puts last.1 s → ∃ earlier arming session, history = earlier ++ arming :: session ∧
        (∃ before, entries aead earlier .boot = some before ∧ Arms before) ∧
        (∀ e ∈ session, e.1.data ≠ 0x9c) ∧
        s.kbdBuffer = (codes session).map xlate ++
          List.replicate (256 - (codes session).length) 0) := by
  have booted : Follows aead [] .unhooked .boot := ⟨rfl, rfl⟩
  obtain ⟨mode, moved⟩ : ∃ mode, ((history.map (·.1)).map (·.data)).foldlM Mode.next .unhooked =
      some mode := by
    rw [Bounded, List.map_append, List.map_append, List.foldlM_append] at bounded
    obtain ⟨_, whole⟩ := Option.isSome_iff_exists.mp bounded
    obtain ⟨mode, moved, _⟩ := Option.bind_eq_some_iff.mp whole
    exact ⟨mode, moved⟩
  obtain ⟨s, reached, follows⟩ := booted.run rfl moved
  refine ⟨s, reached, fun ⟨later, active, _⟩ => ?_⟩
  cases mode with
  | unhooked => exact absurd (follows.1.symm.trans later) (by decide)
  | idle => exact absurd follows.2 active
  | armed count =>
    obtain ⟨earlier, arming, session, split, armed, held, typed, _⟩ := follows
    refine ⟨earlier, arming, session, split, armed, held, ?_⟩
    rw [typed.buffer, List.length_map]

/-- A second session after one in which `a` was typed, with `b` pressed and released. -/
theorem session_isolation_second_session :
    let history := [0, 0x1e, 0x9c, 0, 0x30, 0xb0].map fun data => (keystroke data, fun _ => 0x31)
    ∃ s, entries (transparent 16) history .boot = some s ∧ Puts (keystroke 0x9c) s ∧
      ∃ earlier arming session, history = earlier ++ arming :: session ∧
        (∀ e ∈ session, e.1.data ≠ 0x9c) ∧
        s.kbdBuffer = (codes session).map xlate ++
          List.replicate (256 - (codes session).length) 0 := by
  intro history
  have booted : Follows (transparent 16) [] .unhooked .boot := ⟨rfl, rfl⟩
  have moved : ((history.map (·.1)).map (·.data)).foldlM Mode.next .unhooked = some (.armed 1) := rfl
  obtain ⟨t, ready, _, _, _, _, _, _, typed, counted⟩ := booted.run rfl moved
  obtain ⟨s, reached, isolated⟩ :=
    session_isolation (transparent 16) history (keystroke 0x9c, fun _ => 0x31) rfl
  cases ready.symm.trans reached
  have index := typed.index
  rw [List.length_map, counted] at index
  have puts : Puts (keystroke 0x9c) t := ⟨typed.later, by omega, rfl⟩
  obtain ⟨earlier, arming, session, split, _, held, buffer⟩ := isolated puts
  exact ⟨t, reached, puts, earlier, arming, session, split, held, buffer⟩

end Aurora.Sessions
