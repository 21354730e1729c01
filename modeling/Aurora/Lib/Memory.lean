import Mathlib.Data.Nat.ModEq
import Mathlib.Tactic.Common

/-! Byte memories addressed by natural numbers, with explicit store lists.
A program fragment is modeled by the stores it issues, in program order; its
effect is the replay of that list. Footprints are therefore facts about a list
and hold whether or not a store changes the byte it hits. Machine addresses
enter through `window`, which reads a memory through a wrapping pointer. -/
namespace Lib

abbrev Memory := Nat → UInt8

structure Store where
  addr : Nat
  byte : UInt8
deriving DecidableEq, Repr

namespace Memory

def store (m : Memory) (s : Store) : Memory := fun a => if a = s.addr then s.byte else m a

/-- Replay stores from first to last. -/
def apply (m : Memory) (stores : List Store) : Memory := stores.foldl store m

def read (m : Memory) (start count : Nat) : List UInt8 :=
  (List.range count).map (fun k => m (start + k))

/-- A little-endian unsigned field of `width` bytes. -/
def word (m : Memory) (start : Nat) : Nat → Nat
  | 0 => 0
  | width + 1 => (m start).toNat + 256 * word m (start + 1) width

/-- The memory seen through a `bits`-wide pointer: offsets wrap with it. -/
def window (bits : Nat) (m : Memory) (pointer : Nat) : Memory :=
  fun offset => m ((pointer + offset) % 2 ^ bits)

end Memory

/-- The stores of `memcpy`, in ascending order. -/
def blit (start : Nat) (bytes : List UInt8) : List Store :=
  bytes.mapIdx (fun k byte => ⟨start + k, byte⟩)

/-- The stores of `memset`. -/
def fill (start count : Nat) (byte : UInt8) : List Store :=
  blit start (List.replicate count byte)

/-- Stores issued at offsets, as seen from the address space of the pointer. -/
def rebase (bits pointer : Nat) (stores : List Store) : List Store :=
  stores.map (fun s => ⟨(pointer + s.addr) % 2 ^ bits, s.byte⟩)

/-- The base-256 digits of an unsigned field, least significant first. -/
def littleEndian : Nat → Nat → List UInt8
  | 0, _ => []
  | width + 1, value => value.toUInt8 :: littleEndian width (value / 256)

namespace Memory

@[simp] theorem apply_nil (m : Memory) : m.apply [] = m := rfl

theorem apply_append (m : Memory) (first second : List Store) :
    m.apply (first ++ second) = (m.apply first).apply second :=
  List.foldl_append

theorem apply_concat (m : Memory) (stores : List Store) (s : Store) :
    m.apply (stores ++ [s]) = (m.apply stores).store s :=
  apply_append m stores [s]

theorem store_same (m : Memory) (s : Store) : m.store s s.addr = s.byte := by
  simp only [store, if_true]

theorem store_other (m : Memory) (s : Store) (different : a ≠ s.addr) : m.store s a = m a := by
  simp only [store, if_neg different]

theorem store_twice (m : Memory) (s : Store) : (m.store s).store s = m.store s := by
  funext a
  by_cases same : a = s.addr
  · rw [same, store_same, store_same]
  · rw [store_other _ s same]

/-- A byte no store is aimed at keeps its value. -/
theorem apply_frame (m : Memory) {stores : List Store}
    (outside : ∀ s ∈ stores, s.addr ≠ a) : m.apply stores a = m a := by
  induction stores generalizing m with
  | nil => rfl
  | cons s rest ih =>
    have step := ih (m.store s) (fun t member => outside t (List.mem_cons_of_mem s member))
    exact step.trans (m.store_other s (outside s List.mem_cons_self).symm)

/-- A byte that was stored to has the value of one of the stores. -/
theorem apply_cases (m : Memory) (stores : List Store) (a : Nat) :
    m.apply stores a = m a ∨ ∃ s ∈ stores, m.apply stores a = s.byte := by
  induction stores generalizing m with
  | nil => exact Or.inl rfl
  | cons s rest ih =>
    obtain kept | ⟨t, member, same⟩ := ih (m.store s)
    · by_cases here : a = s.addr
      · exact Or.inr ⟨s, List.mem_cons_self, kept.trans (here ▸ m.store_same s)⟩
      · exact Or.inl (kept.trans (m.store_other s here))
    · exact Or.inr ⟨t, List.mem_cons_of_mem s member, same⟩

/-- What a replay leaves at an address depends on nothing but what was there. -/
theorem apply_at {m n : Memory} (stores : List Store) (same : m a = n a) : m.apply stores a = n.apply stores a := by
  induction stores generalizing m n with
  | nil => exact same
  | cons s rest ih =>
    refine ih ?_
    simp only [store, same]

@[simp] theorem read_length (m : Memory) (start count : Nat) :
    (m.read start count).length = count := by
  simp only [read, List.length_map, List.length_range]

theorem read_congr {m n : Memory} {start other count : Nat}
    (same : ∀ k < count, m (start + k) = n (other + k)) :
    m.read start count = n.read other count := by
  apply List.map_congr_left
  intro k member
  exact same k (List.mem_range.mp member)

theorem read_inj {m n : Memory} {start other count : Nat}
    (same : m.read start count = n.read other count) {k : Nat} (bound : k < count) :
    m (start + k) = n (other + k) :=
  List.map_inj_left.mp same k (List.mem_range.mpr bound)

theorem read_eq_iff {m n : Memory} {start other count : Nat} :
    m.read start count = n.read other count ↔ ∀ k < count, m (start + k) = n (other + k) :=
  ⟨fun same _ bound => read_inj same bound, read_congr⟩

theorem read_take (m : Memory) {start count size : Nat} (within : count ≤ size) :
    (m.read start size).take count = m.read start count := by
  simp only [read, ← List.map_take, List.take_range, Nat.min_eq_left within]

theorem read_getD (bytes : List UInt8) :
    read (fun k => bytes.getD k 0) 0 bytes.length = bytes := by
  apply List.ext_getElem (by simp)
  intro k _ bound
  simp [read, bound]

theorem read_const {m : Memory} {start count : Nat} {byte : UInt8}
    (same : ∀ k < count, m (start + k) = byte) : m.read start count = List.replicate count byte := by
  refine List.eq_replicate_iff.mpr ⟨m.read_length start count, fun other member => ?_⟩
  obtain ⟨k, inside, rfl⟩ := List.mem_map.mp member
  exact same k (List.mem_range.mp inside)

theorem read_apply_frame (m : Memory) {stores : List Store} {start count : Nat}
    (outside : ∀ s ∈ stores, ∀ k < count, s.addr ≠ start + k) :
    (m.apply stores).read start count = m.read start count := by
  apply read_congr
  intro k bound
  exact m.apply_frame (fun s member => outside s member k bound)

end Memory

theorem mem_blit {start : Nat} {bytes : List UInt8} {s : Store} (member : s ∈ blit start bytes) :
    start ≤ s.addr ∧ s.addr < start + bytes.length := by
  obtain ⟨k, bound, rfl⟩ := List.mem_mapIdx.mp member
  exact ⟨Nat.le_add_right start k, Nat.add_lt_add_left bound start⟩

theorem mem_blit_byte {start : Nat} {bytes : List UInt8} {s : Store} (member : s ∈ blit start bytes) :
    s.byte ∈ bytes := by
  obtain ⟨k, bound, rfl⟩ := List.mem_mapIdx.mp member
  exact List.getElem_mem bound

theorem mem_fill {start count : Nat} {byte : UInt8} {s : Store} (member : s ∈ fill start count byte) :
    start ≤ s.addr ∧ s.addr < start + count := by
  simpa only [List.length_replicate] using mem_blit member

theorem blit_mem (start : Nat) {bytes : List UInt8} {k : Nat} (bound : k < bytes.length) :
    ⟨start + k, bytes[k]⟩ ∈ blit start bytes :=
  List.mem_mapIdx.mpr ⟨k, bound, rfl⟩

theorem fill_mem (start : Nat) {count k : Nat} (byte : UInt8) (bound : k < count) :
    ⟨start + k, byte⟩ ∈ fill start count byte := by
  have inside : k < (List.replicate count byte).length := by simpa using bound
  have member := blit_mem start inside
  rwa [List.getElem_replicate] at member

theorem blit_cons (start : Nat) (byte : UInt8) (rest : List UInt8) :
    blit start (byte :: rest) = ⟨start, byte⟩ :: blit (start + 1) rest := by
  simp only [blit, List.mapIdx_cons, Nat.add_zero, List.cons.injEq, true_and]
  congr 1
  funext k byte
  simp only [Store.mk.injEq, and_true]
  omega

theorem blit_append (start : Nat) (first second : List UInt8) :
    blit start (first ++ second) = blit start first ++ blit (start + first.length) second := by
  simp only [blit, List.mapIdx_append, Nat.add_assoc, Nat.add_comm first.length]

namespace Memory

theorem apply_blit_get (m : Memory) {bytes : List UInt8} (start : Nat) {k : Nat}
    (bound : k < bytes.length) :
    m.apply (blit start bytes) (start + k) = bytes[k] := by
  induction bytes generalizing m start k with
  | nil => simp at bound
  | cons byte rest ih =>
    rw [blit_cons]
    cases k with
    | zero =>
      have kept : (m.store ⟨start, byte⟩).apply (blit (start + 1) rest) start = _ :=
        apply_frame _ (fun s member => by have := mem_blit member; omega)
      exact kept.trans (store_same m ⟨start, byte⟩)
    | succ k =>
      have shifted := ih (m.store ⟨start, byte⟩) (start + 1) (Nat.lt_of_succ_lt_succ bound)
      rw [show start + (k + 1) = start + 1 + k by omega]
      exact shifted

theorem apply_fill_get (m : Memory) (start : Nat) {count k : Nat} (byte : UInt8) (bound : k < count) :
    m.apply (fill start count byte) (start + k) = byte := by
  have inside : k < (List.replicate count byte).length := by simpa using bound
  exact (m.apply_blit_get start inside).trans (List.getElem_replicate inside)

/-- What `memcpy` wrote is what the same range reads back. -/
theorem read_apply_blit (m : Memory) (start : Nat) (bytes : List UInt8) :
    (m.apply (blit start bytes)).read start bytes.length = bytes := by
  apply List.ext_getElem (by simp)
  intro k _ bound
  simp only [read, List.getElem_map, List.getElem_range]
  exact m.apply_blit_get start bound

theorem apply_blit (m : Memory) (start : Nat) (bytes : List UInt8) (a : Nat) :
    m.apply (blit start bytes) a =
      if h : start ≤ a ∧ a < start + bytes.length then bytes[a - start] else m a := by
  split
  · rename_i inside
    obtain ⟨k, rfl⟩ := Nat.exists_eq_add_of_le inside.1
    simp only [Nat.add_sub_cancel_left]
    exact m.apply_blit_get start (Nat.lt_of_add_lt_add_left inside.2)
  · rename_i outside
    refine m.apply_frame fun s member same => outside ?_
    have range := mem_blit member
    omega

/-- `memcpy` within one memory, the ranges apart. -/
def copy (m : Memory) (dest src count : Nat) : Memory := m.apply (blit dest (m.read src count))

theorem copy_get (m : Memory) (dest src count a : Nat) :
    m.copy dest src count a = if dest ≤ a ∧ a < dest + count then m (src + (a - dest)) else m a := by
  simp only [copy, apply_blit, read, List.length_map, List.length_range, List.getElem_map, List.getElem_range,
    dite_eq_ite]

theorem read_append (m : Memory) (start first second : Nat) :
    m.read start (first + second) = m.read start first ++ m.read (start + first) second := by
  simp only [read, List.range_add, List.map_append, List.map_map, Function.comp_def, Nat.add_assoc]

/-- `memcpy` to the start of a zeroed array. -/
theorem read_blit_zeroed {bytes : List UInt8} {size : Nat} (fits : bytes.length ≤ size) :
    (apply (fun _ => 0) (blit 0 bytes)).read 0 size =
      bytes ++ List.replicate (size - bytes.length) 0 := by
  obtain ⟨rest, rfl⟩ := Nat.exists_eq_add_of_le fits
  rw [read_append, read_apply_blit, Nat.add_sub_cancel_left, Nat.zero_add, List.append_cancel_left_eq]
  refine read_const fun k _ => ?_
  refine apply_frame _ fun s member => ?_
  have inside := (mem_blit member).2
  omega

end Memory

theorem littleEndian_length (width value : Nat) : (littleEndian width value).length = width := by
  induction width generalizing value with
  | zero => rfl
  | succ width ih => simp only [littleEndian, List.length_cons, ih]

namespace Memory

theorem word_congr {m n : Memory} {start other width : Nat}
    (same : ∀ k < width, m (start + k) = n (other + k)) :
    m.word start width = n.word other width := by
  induction width generalizing start other with
  | zero => rfl
  | succ width ih =>
    have head : m start = n other := same 0 (Nat.succ_pos width)
    have tail : m.word (start + 1) width = n.word (other + 1) width := by
      apply ih
      intro k bound
      have next := same (k + 1) (by omega)
      rwa [show start + (k + 1) = start + 1 + k by omega,
        show other + (k + 1) = other + 1 + k by omega] at next
    rw [word, word, head, tail]

theorem word_lt (m : Memory) (start width : Nat) : m.word start width < 256 ^ width := by
  induction width generalizing start with
  | zero => exact Nat.one_pos
  | succ width ih =>
    have digit := (m start).toNat_lt
    have rest := ih (start + 1)
    rw [word, Nat.pow_succ]
    omega

/-- A representable field that was just stored reads back as itself. -/
theorem word_apply_littleEndian (m : Memory) (start : Nat) {width : Nat} (value : Nat)
    (fits : value < 256 ^ width) :
    (m.apply (blit start (littleEndian width value))).word start width = value := by
  induction width generalizing m start value with
  | zero =>
    rw [Nat.pow_zero] at fits
    exact (Nat.lt_one_iff.mp fits).symm
  | succ width ih =>
    rw [Nat.pow_succ] at fits
    have tail := ih (m.store ⟨start, value.toUInt8⟩) (start + 1) (value / 256) (by omega)
    have head : (m.store ⟨start, value.toUInt8⟩).apply
        (blit (start + 1) (littleEndian width (value / 256))) start = _ :=
      apply_frame _ (fun s member => by have := mem_blit member; omega)
    rw [store_same m ⟨start, value.toUInt8⟩] at head
    have digit : value.toUInt8.toNat = value % 256 := rfl
    rw [littleEndian, blit_cons, word]
    change (((m.store ⟨start, value.toUInt8⟩).apply _) start).toNat +
      256 * ((m.store ⟨start, value.toUInt8⟩).apply _).word (start + 1) width = value
    rw [head, tail]
    change value.toUInt8.toNat + _ = _
    omega

/-- A field whose bytes are the digits of a representable value has that value. -/
theorem word_littleEndian {m : Memory} {start width value : Nat} (fits : value < 256 ^ width)
    (bytes : ∀ k < width, m (start + k) = (littleEndian width value).getD k 0) :
    m.word start width = value := by
  refine Eq.trans ?_ (word_apply_littleEndian (fun _ => 0) 0 value fits)
  refine word_congr fun k bound => ?_
  have size : k < (littleEndian width value).length := by rwa [littleEndian_length]
  rw [apply_blit_get _ 0 size, bytes k bound]
  simp [List.getD_eq_getElem?_getD, size]

end Memory

theorem mem_rebase {bits pointer : Nat} {stores : List Store} {s : Store}
    (member : s ∈ rebase bits pointer stores) :
    ∃ t ∈ stores, s = ⟨(pointer + t.addr) % 2 ^ bits, t.byte⟩ := by
  obtain ⟨t, inside, rfl⟩ := List.mem_map.mp member
  exact ⟨t, inside, rfl⟩

theorem wrap_injective {bits pointer extent i j : Nat} (small : extent ≤ 2 ^ bits)
    (left : i < extent) (right : j < extent)
    (same : (pointer + i) % 2 ^ bits = (pointer + j) % 2 ^ bits) : i = j := by
  have equal : Nat.ModEq (2 ^ bits) i j := Nat.ModEq.add_left_cancel' pointer same
  exact equal.eq_of_lt_of_lt (by omega) (by omega)

namespace Memory

/-- Stores inside an extent only transport agreement on that extent. -/
theorem apply_agree {m n : Memory} {stores : List Store} {extent a : Nat}
    (agree : ∀ b < extent, m b = n b) (bound : a < extent) :
    m.apply stores a = n.apply stores a := by
  induction stores generalizing m n with
  | nil => exact agree a bound
  | cons s rest ih =>
    apply ih
    intro b small
    simp only [store, agree b small]

theorem window_store (m : Memory) (s : Store) {bits pointer extent a : Nat}
    (small : extent ≤ 2 ^ bits) (target : s.addr < extent) (bound : a < extent) :
    window bits (m.store ⟨(pointer + s.addr) % 2 ^ bits, s.byte⟩) pointer a =
      (window bits m pointer).store s a := by
  by_cases same : a = s.addr
  · subst same
    simp only [window, store, if_true]
  · have different : (pointer + a) % 2 ^ bits ≠ (pointer + s.addr) % 2 ^ bits :=
      fun h => same (wrap_injective small bound target h)
    simp only [window, store, if_neg same, if_neg different]

/-- Inside an extent that does not wrap onto itself, stores through a pointer
act on its window as the same stores act on plain offsets. -/
theorem window_apply (m : Memory) {stores : List Store} {bits pointer extent a : Nat}
    (small : extent ≤ 2 ^ bits) (targets : ∀ s ∈ stores, s.addr < extent) (bound : a < extent) :
    window bits (m.apply (rebase bits pointer stores)) pointer a =
      (window bits m pointer).apply stores a := by
  induction stores generalizing m with
  | nil => rfl
  | cons s rest ih =>
    have step := ih (m.store ⟨(pointer + s.addr) % 2 ^ bits, s.byte⟩)
      (fun t member => targets t (List.mem_cons_of_mem s member))
    change window bits ((m.store _).apply (rebase bits pointer rest)) pointer a = _
    rw [step]
    have agree : ∀ b < extent,
        window bits (m.store ⟨(pointer + s.addr) % 2 ^ bits, s.byte⟩) pointer b =
          (window bits m pointer).store s b :=
      fun b small' => m.window_store s small (targets s List.mem_cons_self) small'
    exact apply_agree agree bound

end Memory
end Lib
