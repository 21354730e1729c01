import Aurora.Lib.Transition

/-! Registers behind an index port and a data port, shared by a client that may be
interrupted between the two and a server that runs without interruption. The server
is a program over the registers; it need not know that they are behind ports, but
it leaves its last index in the port. -/
namespace Lib
variable {I D S A B T : Type}

/-- What selecting, reading and writing a register does to all of them. -/
structure Bank (I D S : Type) where
  select : S → S
  read : I → S → D × S
  write : I → D → S → S

structure Ports (I S : Type) where
  index : I
  regs : S

namespace Ports

def select (bank : Bank I D S) (p : Ports I S) (i : I) : Ports I S := ⟨i, bank.select p.regs⟩

def input (bank : Bank I D S) (p : Ports I S) : D × Ports I S :=
  ((bank.read p.index p.regs).1, { p with regs := (bank.read p.index p.regs).2 })

def output (bank : Bank I D S) (p : Ports I S) (value : D) : Ports I S :=
  { p with regs := bank.write p.index value p.regs }

end Ports

/-- A program over registers that ends with a result. -/
inductive Access (I D A : Type) where
  | done (result : A)
  | read (i : I) (rest : D → Access I D A)
  | write (i : I) (value : D) (rest : Access I D A)

namespace Access

def bind : Access I D A → (A → Access I D B) → Access I D B
  | done result, f => f result
  | read i rest, f => .read i fun value => (rest value).bind f
  | write i value rest, f => .write i value (rest.bind f)

instance : Monad (Access I D) where
  pure := done
  bind := bind

section Meaning
variable (bank : Bank I D S)

/-- The program on the registers themselves. -/
def direct : Access I D A → S → A × S
  | done result, s => (result, s)
  | read i rest, s => (rest (bank.read i (bank.select s)).1).direct (bank.read i (bank.select s)).2
  | write i value rest, s => rest.direct (bank.write i value (bank.select s))

/-- The program through the ports, each access a selection and a transfer. -/
def run : Access I D A → Ports I S → A × Ports I S
  | done result, p => (result, p)
  | read i rest, p => (rest ((p.select bank i).input bank).1).run ((p.select bank i).input bank).2
  | write i value rest, p => rest.run ((p.select bank i).output bank value)

/-- The last register it accesses, if it accesses any. -/
def left : Access I D A → S → Option I
  | done _, _ => none
  | read i rest, s =>
    ((rest (bank.read i (bank.select s)).1).left (bank.read i (bank.select s)).2).or (some i)
  | write i value rest, s => (rest.left (bank.write i value (bank.select s))).or (some i)

/-- Through the ports a program does what it does to the registers, and leaves its
last index behind. -/
theorem run_eq (program : Access I D A) (p : Ports I S) :
    program.run bank p = ((program.direct bank p.regs).1,
      ⟨(program.left bank p.regs).getD p.index, (program.direct bank p.regs).2⟩) := by
  induction program generalizing p with
  | done result => rfl
  | read i rest ih =>
    rw [run, ih]
    simp only [Ports.select, Ports.input, direct, left]
    cases (rest (bank.read i (bank.select p.regs)).1).left bank (bank.read i (bank.select p.regs)).2 <;> rfl
  | write i value rest ih =>
    rw [run, ih]
    simp only [Ports.select, Ports.output, direct, left]
    cases rest.left bank (bank.write i value (bank.select p.regs)) <;> rfl

@[simp] theorem direct_pure (result : A) (s : S) : (pure result : Access I D A).direct bank s = (result, s) := rfl

@[simp] theorem left_pure (result : A) (s : S) : (pure result : Access I D A).left bank s = none := rfl

@[simp] theorem direct_bind (program : Access I D A) (f : A → Access I D B) (s : S) :
    (program >>= f).direct bank s = (f (program.direct bank s).1).direct bank (program.direct bank s).2 := by
  change (program.bind f).direct bank s = _
  induction program generalizing s with
  | done result => rfl
  | read i rest ih => exact ih _ _
  | write i value rest ih => exact ih _

@[simp] theorem left_bind (program : Access I D A) (f : A → Access I D B) (s : S) :
    (program >>= f).left bank s =
      ((f (program.direct bank s).1).left bank (program.direct bank s).2).or (program.left bank s) := by
  change (program.bind f).left bank s = _
  induction program generalizing s with
  | done result =>
    rw [left, Option.or_none]
    rfl
  | read i rest ih =>
    rw [bind, left, ih, direct, left, Option.or_assoc]
  | write i value rest ih =>
    rw [bind, left, ih, direct, left, Option.or_assoc]

end Meaning

/-- A single access. -/
def get (i : I) : Access I D D := .read i .done

def set (i : I) (value : D) : Access I D Unit := .write i value (.done ())

section Single
variable (bank : Bank I D S)

@[simp] theorem direct_get (i : I) (s : S) :
    (get i : Access I D D).direct bank s = bank.read i (bank.select s) := rfl

@[simp] theorem left_get (i : I) (s : S) : (get i : Access I D D).left bank s = some i := rfl

@[simp] theorem direct_set (i : I) (value : D) (s : S) :
    (set i value).direct bank s = ((), bank.write i value (bank.select s)) := rfl

@[simp] theorem left_set (i : I) (value : D) (s : S) : (set i value).left bank s = some i := rfl

end Single

end Access

/-! The client selects and transfers in two steps, and the server may come between. -/

structure Shared (I S T : Type) where
  ports : Ports I S
  /-- The register that the client last selected. -/
  asked : Option I
  server : T

/-- What happens: a selection, a transfer with its value and the registers around it, or
a server's program that left its last index. -/
inductive Transfer (I D S : Type) where
  | select (i : I)
  | input (asked : I) (value : D) (start final : S)
  | output (asked : I) (value : D) (start final : S)
  | served (left : Option I)

namespace Transfer

/-- The register that data is meant for. -/
def asked : Transfer I D S → Option I
  | input i _ _ _ | output i _ _ _ => some i
  | select _ | served _ => none

/-- The data came from or went to this register. -/
def At (bank : Bank I D S) (hit : I) : Transfer I D S → Prop
  | input _ value start final => bank.read hit start = (value, final)
  | output _ value start final => final = bank.write hit value start
  | select _ | served _ => True

end Transfer

inductive Shared.Step (bank : Bank I D S) (serves : T → Access I D T → Prop) :
    Shared I S T → List (Transfer I D S) → Shared I S T → Prop where
  | select (i : I) :
      Step bank serves c [.select i] { c with ports := c.ports.select bank i, asked := some i }
  | input : c.asked = some i →
      Step bank serves c [.input i (c.ports.input bank).1 c.ports.regs (c.ports.input bank).2.regs]
        { c with ports := (c.ports.input bank).2 }
  | output (value : D) : c.asked = some i →
      Step bank serves c [.output i value c.ports.regs (c.ports.output bank value).regs]
        { c with ports := c.ports.output bank value }
  | serve (program : Access I D T) : serves c.server program →
      Step bank serves c [.served (program.left bank c.ports.regs)]
        { c with ports := (program.run bank c.ports).2, server := (program.run bank c.ports).1 }

/-- The client's last selection, and the index that servers have left since. -/
structure Outstanding (I : Type) where
  asked : Option I
  touched : Option I

def Outstanding.next (p : Outstanding I) : Transfer I D S → Outstanding I
  | .select i => ⟨some i, none⟩
  | .input _ _ _ _ | .output _ _ _ _ => p
  | .served left => ⟨p.asked, left.or p.touched⟩

def outstanding (history : List (Transfer I D S)) : Outstanding I := history.foldl Outstanding.next ⟨none, none⟩

/-- A transfer reaches the register selected for it, or the one that a server has
left in the port since. -/
def Reaches (bank : Bank I D S) (before : List (Transfer I D S)) (e : Transfer I D S) : Prop :=
  ∀ asked, e.asked = some asked →
    (outstanding before).asked = some asked ∧ e.At bank ((outstanding before).touched.getD asked)

section Runs
variable {bank : Bank I D S} {serves : T → Access I D T → Prop} {c d : Shared I S T}

theorem outstanding_concat (history : List (Transfer I D S)) (e : Transfer I D S) :
    outstanding (history ++ [e]) = (outstanding history).next e :=
  List.foldl_concat _ _ _ _

/-- From the first selection on the port holds what the history says. -/
structure Tracks (bank : Bank I D S) (history : List (Transfer I D S)) (d : Shared I S T) : Prop where
  past : Justified (Reaches bank) history
  asked : d.asked = (outstanding history).asked
  index : ∀ i, d.asked = some i → d.ports.index = (outstanding history).touched.getD i

/-- A transfer leaves the port alone. -/
theorem Tracks.data {history : List (Transfer I D S)} (tracks : Tracks bank history c) {e : Transfer I D S} {i : I}
    (selected : c.asked = some i) (meant : e.asked = some i) (hit : e.At bank c.ports.index)
    (still : (outstanding history).next e = outstanding history) {ports : Ports I S}
    (same : ports.index = c.ports.index) : Tracks bank (history ++ [e]) { c with ports := ports } := by
  refine ⟨tracks.past.concat ?_, ?_, ?_⟩
  · intro asked data
    cases meant.symm.trans data
    exact ⟨tracks.asked ▸ selected, tracks.index i selected ▸ hit⟩
  · rw [outstanding_concat, still]
    exact tracks.asked
  · rw [outstanding_concat, still, same]
    exact tracks.index

theorem Tracks.step {history emitted : List (Transfer I D S)} (tracks : Tracks bank history c)
    (step : Shared.Step bank serves c emitted d) : Tracks bank (history ++ emitted) d := by
  cases step with
  | select i =>
    refine ⟨tracks.past.concat (fun _ silent => by cases silent), ?_, ?_⟩
    · rw [outstanding_concat]
      rfl
    · rintro j ⟨⟩
      rw [outstanding_concat]
      rfl
  | input selected =>
    refine tracks.data selected rfl ?_ rfl rfl
    rfl
  | output value selected =>
    refine tracks.data selected rfl ?_ rfl rfl
    rfl
  | serve program served =>
    refine ⟨tracks.past.concat (fun _ silent => by cases silent), ?_, ?_⟩
    · rw [outstanding_concat]
      exact tracks.asked
    · intro i selected
      rw [outstanding_concat, Access.run_eq]
      simp only [Outstanding.next]
      cases program.left bank c.ports.regs with
      | some j => rfl
      | none => exact tracks.index i selected

theorem Shared.reaches {history : List (Transfer I D S)} (idle : c.asked = none)
    (run : Run (Shared.Step bank serves) c history d) : Justified (Reaches bank) history := by
  have start : Tracks bank [] c := by
    refine ⟨.nil _, idle, fun i asked => ?_⟩
    rw [idle] at asked
    cases asked
  exact (run.invariant start fun tracks step => tracks.step step).past

/-- What servers leave in the port is what their programs may end with. -/
theorem Shared.touched {history : List (Transfer I D S)} {allowed : I → Prop}
    (only : ∀ t program s i, serves t program → program.left bank s = some i → allowed i)
    (run : Run (Shared.Step bank serves) c history d) :
    Justified (fun before _ => ∀ i, (outstanding before).touched = some i → allowed i) history := by
  have holds : Justified (fun before _ => ∀ i, (outstanding before).touched = some i → allowed i) history ∧
      ∀ i, (outstanding history).touched = some i → allowed i := by
    refine run.invariant (P := fun history _ =>
      Justified (fun before _ => ∀ i, (outstanding before).touched = some i → allowed i) history ∧
        ∀ i, (outstanding history).touched = some i → allowed i) ?_ ?_
    · exact ⟨.nil _, fun i left => by cases left⟩
    · rintro history s emitted t ⟨past, now⟩ step
      cases step with
      | select i =>
        refine ⟨past.concat now, fun j left => ?_⟩
        rw [outstanding_concat] at left
        cases left
      | input selected =>
        refine ⟨past.concat now, ?_⟩
        rw [outstanding_concat]
        exact now
      | output value selected =>
        refine ⟨past.concat now, ?_⟩
        rw [outstanding_concat]
        exact now
      | serve program served =>
        refine ⟨past.concat now, fun i left => ?_⟩
        rw [outstanding_concat] at left
        obtain last | ⟨_, earlier⟩ := Option.or_eq_some_iff.mp left
        · exact only _ program _ i served last
        · exact now i earlier
  exact holds.1

end Runs

end Lib
