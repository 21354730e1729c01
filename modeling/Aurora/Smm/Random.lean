import Aurora.Lib.Bytes
import Aurora.Ring.Calls

/-! Random bytes of the firmware: the RDRAND instruction with its retries, the fill
of a buffer around its aligned words, and the padding of a ring message, where the
result of the fill is ignored. -/
namespace Aurora.Smm.Random
open Lib

/-- `supported` is what `RdRand_isSupported` finds: an Intel processor with the
feature bit. `attempt k` is the value of the `k`-th execution, none if the carry
flag stays clear; the register is zero then. -/
structure Processor where
  supported : Bool
  attempt : Nat → Option (BitVec 32)

/-- The result of a call, what `*x` holds after it if it was written, and the
number of instructions executed so far. -/
structure Draw where
  code : Int
  x : Option (BitVec 32)
  used : Nat
deriving DecidableEq, Repr

section Instruction
variable (p : Processor)

/-- The loop of `rdrand_32` with `limit` attempts left. -/
def retry : Nat → Nat → Option (BitVec 32) → Draw
  | 0, used, x => ⟨-1, x, used⟩
  | limit + 1, used, _ =>
    match p.attempt used with
    | some value => ⟨1, some value, used + 1⟩
    | none => retry limit (used + 1) (some 0#32)

/-- `rdrand_32(x, 1)` -/
def rdrand32 (used : Nat) : Draw := if p.supported then retry p 10 used none else ⟨-3, none, used⟩

/-- The inner loop of `rdrand_get_n_32`: again while the call returns zero. -/
def again (count used : Nat) : Draw :=
  let draw := rdrand32 p used
  if draw.code = 0 ∧ count < 10 then again (count + 1) draw.used else draw
termination_by 10 - count

/-- The four bytes of a word that was written. -/
def wordStores (dest : Nat) (x : Option (BitVec 32)) : List Store :=
  match x with
  | some value => blit dest (bytes 4 value)
  | none => []

structure Filled where
  code : Int
  stores : List Store
  used : Nat

/-- `rdrand_get_n_32` -/
def rdrandGetN32 : Nat → Nat → Nat → Filled
  | 0, _, used => ⟨1, [], used⟩
  | n + 1, dest, used =>
    let draw := again p 0 used
    if draw.code ≠ 1 then ⟨draw.code, wordStores dest draw.x, draw.used⟩
    else
      let rest := rdrandGetN32 n (dest + 4) draw.used
      ⟨rest.code, wordStores dest draw.x ++ rest.stores, rest.used⟩

/-- The distance to the next aligned word, zero on one. -/
def startlen (dest : Nat) : Nat := if dest % 4 = 0 then 0 else dest - dest % 4 + 4 - dest

/-- `count`, an `unsigned int`: it wraps where the buffer ends before the first
aligned word. -/
def count (n dest : Nat) : Nat := if dest % 4 = 0 then n else (n + 0x100000000 - (4 - dest % 4)) % 0x100000000

/-- `temprand` byte by byte: the low bytes of one word. -/
def lowStores (dest amount : Nat) (x : Option (BitVec 32)) : List Store :=
  blit dest ((bytes 4 (x.getD 0#32)).take amount)

/-- The aligned words and the residual bytes, from `blockstart` on. -/
def fillBlocks (length residual blockstart used : Nat) : Filled :=
  let body := rdrandGetN32 p length blockstart used
  if body.code ≠ 1 then body
  else if residual = 0 then body
  else
    let draw := rdrand32 p body.used
    if draw.code ≠ 1 then ⟨draw.code, body.stores, draw.used⟩
    else ⟨1, body.stores ++ lowStores (blockstart + 4 * length) residual draw.x, draw.used⟩

/-- `rdrand_get_bytes` on the 32-bit firmware. -/
def rdrandGetBytes (n dest used : Nat) : Filled :=
  let blockstart := dest + startlen dest
  let residual := count n dest % 4
  let length := count n dest / 4
  if startlen dest = 0 then fillBlocks p length residual blockstart used
  else
    let draw := rdrand32 p used
    if draw.code ≠ 1 then ⟨draw.code, [], draw.used⟩
    else
      let rest := fillBlocks p length residual blockstart draw.used
      ⟨rest.code, lowStores dest (startlen dest) draw.x ++ rest.stores, rest.used⟩

/-- `randombytes_buf`: the result is dropped. -/
def randombytesBuf (dest size used : Nat) : List Store := (rdrandGetBytes p size dest used).stores

end Instruction

section Draws
variable (p : Processor)

theorem retry_cases (limit used : Nat) (x : Option (BitVec 32)) :
    (∃ value next, retry p limit used x = ⟨1, some value, next⟩) ∨ (retry p limit used x).code = -1 := by
  induction limit generalizing used x with
  | zero => exact Or.inr rfl
  | succ limit ih =>
    rw [retry]
    cases p.attempt used with
    | some value => exact Or.inl ⟨value, used + 1, rfl⟩
    | none => exact ih (used + 1) (some 0#32)

/-- A call either succeeds with a word or reports a failure, which is never zero. -/
theorem rdrand32_cases (used : Nat) :
    (∃ value next, rdrand32 p used = ⟨1, some value, next⟩) ∨
      (rdrand32 p used).code = -1 ∨ (rdrand32 p used).code = -3 := by
  unfold rdrand32
  split
  · exact (retry_cases p 10 used none).imp_right Or.inl
  · exact Or.inr (Or.inr rfl)

theorem failed_code {code : Int} (failed : code = -1 ∨ code = -3) : code ≠ 1 ∧ code ≠ 0 := by
  omega

theorem again_eq (used : Nat) : again p 0 used = rdrand32 p used := by
  rw [again]
  obtain ⟨_, _, drawn⟩ | failed := rdrand32_cases p used
  · simp [drawn]
  · rw [if_neg (fun zero => (failed_code failed).2 zero.1)]

/-- The stores of a fill are consecutive from `dest`, stay within `n` bytes and
reach the end when it reports success. -/
def Covers (result : Filled) (dest n : Nat) : Prop :=
  ∃ written : List UInt8, result.stores = blit dest written ∧ written.length ≤ n ∧
    (result.code = 1 → written.length = n)

/-- Bytes before a covered stretch extend it. -/
theorem Covers.after {result : Filled} {dest n : Nat} {first : List UInt8}
    (covers : Covers result (dest + first.length) n) :
    Covers ⟨result.code, blit dest first ++ result.stores, result.used⟩ dest (first.length + n) := by
  obtain ⟨rest, same, short, full⟩ := covers
  refine ⟨first ++ rest, ?_, ?_, ?_⟩
  · rw [same, blit_append]
  · rw [List.length_append]
    omega
  · intro done
    rw [List.length_append, full done]

theorem wordStores_eq (dest : Nat) (x : Option (BitVec 32)) :
    ∃ written : List UInt8, wordStores dest x = blit dest written ∧ written.length ≤ 4 := by
  cases x with
  | none => exact ⟨[], rfl, by simp⟩
  | some value => exact ⟨bytes 4 value, rfl, by simp⟩

theorem rdrandGetN32_covers (n dest used : Nat) : Covers (rdrandGetN32 p n dest used) dest (4 * n) := by
  induction n generalizing dest used with
  | zero => exact ⟨[], rfl, Nat.zero_le _, fun _ => rfl⟩
  | succ n ih =>
    rw [rdrandGetN32, again_eq]
    obtain ⟨value, next, drawn⟩ | failed := rdrand32_cases p used
    · have rest := ih (dest + (bytes 4 value).length) next
      have whole := rest.after
      rw [bytes_length, show 4 + 4 * n = 4 * (n + 1) by omega] at whole
      simpa [drawn, wordStores] using whole
    · obtain ⟨written, same, short⟩ := wordStores_eq dest (rdrand32 p used).x
      have code := (failed_code failed).1
      rw [if_pos code]
      exact ⟨written, same, by omega, fun done => absurd done code⟩

theorem lowStores_some (dest : Nat) {amount : Nat} (value : BitVec 32) (small : amount ≤ 4) :
    ∃ written : List UInt8, lowStores dest amount (some value) = blit dest written ∧
      written.length = amount := by
  refine ⟨(bytes 4 value).take amount, rfl, ?_⟩
  rw [List.length_take, bytes_length]
  omega

theorem fillBlocks_covers (length : Nat) {residual : Nat} (small : residual < 4) (blockstart used : Nat) :
    Covers (fillBlocks p length residual blockstart used) blockstart (4 * length + residual) := by
  obtain ⟨written, same, short, full⟩ := rdrandGetN32_covers p length blockstart used
  unfold fillBlocks
  by_cases body : (rdrandGetN32 p length blockstart used).code = 1
  · simp only [body, ne_eq, not_true, if_false]
    by_cases none : residual = 0
    · rw [if_pos none, none]
      exact ⟨written, same, short, full⟩
    · rw [if_neg none]
      obtain ⟨value, next, drawn⟩ | failed := rdrand32_cases p (rdrandGetN32 p length blockstart used).used
      · obtain ⟨low, stored, exactly⟩ := lowStores_some (blockstart + 4 * length) value small.le
        rw [drawn]
        refine ⟨written ++ low, ?_, ?_, fun _ => ?_⟩
        · simp [same, stored, blit_append, full body]
        · rw [List.length_append, full body, exactly]
        · rw [List.length_append, full body, exactly]
      · have code := (failed_code failed).1
        rw [if_pos code]
        exact ⟨written, same, by omega, fun done => absurd done code⟩
  · simp only [ne_eq, body, not_false_eq_true, if_true]
    exact ⟨written, same, by omega, fun done => absurd done body⟩

theorem startlen_lt (dest : Nat) : startlen dest < 4 := by
  unfold startlen
  split <;> omega

theorem count_eq {n dest : Nat} (long : startlen dest ≤ n) (small : n < 0x100000000) :
    count n dest = n - startlen dest := by
  unfold count startlen at *
  split
  · rfl
  · rename_i misaligned
    rw [if_neg misaligned] at long
    omega

/-- A buffer that reaches its first aligned word is filled without a store outside it. -/
theorem rdrandGetBytes_covers {n dest : Nat} (long : startlen dest ≤ n) (small : n < 0x100000000) (used : Nat) :
    Covers (rdrandGetBytes p n dest used) dest n := by
  have counted := count_eq long small
  have blocks (used : Nat) : Covers (fillBlocks p (count n dest / 4) (count n dest % 4) (dest + startlen dest) used)
      (dest + startlen dest) (n - startlen dest) := by
    have covers := fillBlocks_covers p (count n dest / 4) (Nat.mod_lt (count n dest) (by decide))
      (dest + startlen dest) used
    rw [Nat.div_add_mod] at covers
    exact counted ▸ covers
  unfold rdrandGetBytes
  by_cases aligned : startlen dest = 0
  · simpa [aligned] using blocks used
  · simp only [if_neg aligned]
    obtain ⟨value, next, drawn⟩ | failed := rdrand32_cases p used
    · obtain ⟨low, stored, exactly⟩ := lowStores_some dest value (startlen_lt dest).le
      have rest := blocks next
      rw [← exactly] at rest
      have whole := rest.after
      rw [exactly, Nat.add_sub_cancel' long] at whole
      simpa [drawn, stored] using whole
    · have code := (failed_code failed).1
      rw [if_pos code]
      exact ⟨[], rfl, Nat.zero_le _, fun done => absurd done code⟩

/-- As soon as the first word is there, the stores stay inside the buffer exactly if
it reaches its first aligned word. A shorter one is overrun. -/
theorem fill_within_buffer_iff {n : Nat} (dest : Nat) {used : Nat} (small : n < 0x100000000)
    (ready : (rdrand32 p used).code = 1) :
    (∀ s ∈ (rdrandGetBytes p n dest used).stores, dest ≤ s.addr ∧ s.addr < dest + n) ↔ startlen dest ≤ n := by
  constructor
  · intro inside
    by_contra short
    obtain ⟨value, next, drawn⟩ | failed := rdrand32_cases p used
    · obtain ⟨low, stored, exactly⟩ := lowStores_some dest value (startlen_lt dest).le
      have last : startlen dest - 1 < low.length := by omega
      have outside := inside ⟨dest + (startlen dest - 1), low[startlen dest - 1]⟩ (by
        simp only [rdrandGetBytes, if_neg (show startlen dest ≠ 0 by omega), drawn, stored, ne_eq, not_true,
          if_false]
        exact List.mem_append_left _ (blit_mem dest last))
      simp only at outside
      omega
    · exact absurd ready (failed_code failed).1
  · intro long s member
    obtain ⟨written, same, short, _⟩ := rdrandGetBytes_covers p long small used
    rw [same] at member
    have range := mem_blit member
    omega

/-- A processor whose every execution delivers the same word. -/
def constant (word : BitVec 32) : Processor := ⟨true, fun _ => some word⟩

theorem fill_overruns_short_buffer :
    (1 < 0x100000000 ∧ (rdrand32 (constant 7) 0).code = 1) ∧
      ¬ ∀ s ∈ (rdrandGetBytes (constant 7) 1 0x1001 0).stores, 0x1001 ≤ s.addr ∧ s.addr < 0x1001 + 1 :=
  ⟨by decide, fun inside => absurd ((fill_within_buffer_iff (constant 7) 0x1001 (by decide) (by decide)).mp inside)
    (by decide)⟩

/-- The words of successive calls, if all of them succeed. -/
def drawn : Nat → Nat → Option (List (BitVec 32) × Nat)
  | 0, used => some ([], used)
  | k + 1, used =>
    match rdrand32 p used with
    | ⟨1, some value, next⟩ => (drawn k next).map fun rest => (value :: rest.1, rest.2)
    | _ => none

theorem drawn_succ {k used next : Nat} {words : List (BitVec 32)} (all : drawn p (k + 1) used = some (words, next)) :
    ∃ value rest middle, rdrand32 p used = ⟨1, some value, middle⟩ ∧ words = value :: rest ∧
      drawn p k middle = some (rest, next) := by
  rw [drawn] at all
  split at all
  · rename_i value middle one
    obtain ⟨⟨rest, last⟩, more, same⟩ := Option.map_eq_some_iff.mp all
    cases same
    exact ⟨value, rest, middle, one, rfl, more⟩
  · cases all

theorem rdrandGetN32_drawn {n used next : Nat} {words : List (BitVec 32)} (dest : Nat)
    (all : drawn p n used = some (words, next)) :
    rdrandGetN32 p n dest used = ⟨1, blit dest (words.flatMap (bytes 4)), next⟩ := by
  induction n generalizing dest used words with
  | zero =>
    cases all
    rfl
  | succ n ih =>
    obtain ⟨value, rest, middle, one, rfl, more⟩ := drawn_succ p all
    rw [rdrandGetN32, again_eq, one]
    simp [ih (dest + 4) more, wordStores, blit_append]

end Draws

/-! The padding of a put. The message array starts at an aligned address, and what
remains of it ends at one. -/
section Padding
variable (p : Processor)

/-- The bytes that the drawn words leave in the `n` bytes before an aligned end. -/
def padding (words : List (BitVec 32)) (n : Nat) : List UInt8 :=
  if n % 4 = 0 then words.flatMap (bytes 4)
  else match words with
    | [] => []
    | first :: rest => (bytes 4 first).take (n % 4) ++ rest.flatMap (bytes 4)

/-- What the put finds behind the `msgLen` bytes it copied, the array holding
whatever the stack held. -/
def tail (stack : Memory) (message msgLen used : Nat) : Memory := fun k =>
  stack.apply (randombytesBuf p (message + msgLen) (msgSize - msgLen) used) (message + msgLen + k)

theorem tail_read (stack : Memory) (message msgLen used : Nat) :
    (tail p stack message msgLen used).read 0 (msgSize - msgLen) =
      (stack.apply (randombytesBuf p (message + msgLen) (msgSize - msgLen) used)).read (message + msgLen)
        (msgSize - msgLen) := by
  refine Memory.read_congr fun k _ => ?_
  rw [tail, Nat.zero_add]

theorem drawn_length {k used next : Nat} {words : List (BitVec 32)} (all : drawn p k used = some (words, next)) :
    words.length = k := by
  induction k generalizing used words with
  | zero =>
    cases all
    rfl
  | succ k ih =>
    obtain ⟨_, rest, _, _, rfl, more⟩ := drawn_succ p all
    rw [List.length_cons, ih more]

theorem padding_length {words : List (BitVec 32)} {n : Nat} (enough : words.length = (n + 3) / 4) :
    (padding words n).length = n := by
  have whole (list : List (BitVec 32)) : (list.flatMap (bytes 4)).length = 4 * list.length := by
    simp [List.length_flatMap, Nat.mul_comm]
  unfold padding
  split
  · rw [whole]
    omega
  · cases words with
    | nil => simp only [List.length_nil] at *; omega
    | cons first rest =>
      simp only [List.length_cons, List.length_append, List.length_take, bytes_length, whole] at *
      omega

/-- Without the instruction nothing is stored at all. -/
theorem unsupported_stores (unsupported : p.supported = false) (n dest used : Nat) :
    randombytesBuf p dest n used = [] := by
  have refused (used : Nat) : rdrand32 p used = ⟨-3, none, used⟩ := by
    simp [rdrand32, unsupported]
  have words (n dest used : Nat) : (rdrandGetN32 p n dest used).stores = [] := by
    cases n with
    | zero => rfl
    | succ n => simp [rdrandGetN32, again_eq, refused, wordStores]
  have blocks (length residual dest used : Nat) : (fillBlocks p length residual dest used).stores = [] := by
    simp only [fillBlocks, refused]
    split
    · exact words length dest used
    · split <;> exact words length dest used
  unfold randombytesBuf rdrandGetBytes
  split <;> simp [refused, blocks]

/-- With this padding a put of the keyboard firmware encrypts this plaintext: its packet is
what the slot holds afterwards, unless none is free. -/
def Sends (aead : Aead 16) (raw : Buffer) (msgLen : Nat) (random : Memory) (plaintext : List UInt8) : Prop :=
  ∀ shm : Memory,
    (∀ i < maxEntry, shm (Direction.inbound.owner i) ≠ inSmm) ∧
      Keyboard.putInBuffer aead raw msgLen random shm = (.full plaintext, []) ∨
    ∃ i < maxEntry, ∃ stores, shm (Direction.inbound.owner i) = inSmm ∧
      Keyboard.putInBuffer aead raw msgLen random shm = (.stored i plaintext, stores) ∧
      (shm.apply stores).read (Direction.inbound.slot i) pktSize = aead.encrypt key nonce ad plaintext

variable {message msgLen : Nat} (aligned : message % 4 = 0) (fits : msgLen ≤ msgSize)
include aligned fits

theorem startlen_tail : startlen (message + msgLen) = (msgSize - msgLen) % 4 := by
  unfold startlen
  simp only [msgSize, pktSize] at *
  split <;> omega

theorem count_tail : count (msgSize - msgLen) (message + msgLen) / 4 = (msgSize - msgLen) / 4 ∧
    count (msgSize - msgLen) (message + msgLen) % 4 = 0 := by
  have start := startlen_tail aligned fits
  have counted : count (msgSize - msgLen) (message + msgLen) = msgSize - msgLen - startlen (message + msgLen) := by
    refine count_eq ?_ ?_
    · rw [start]
      exact Nat.mod_le _ _
    · simp only [msgSize, pktSize]
      omega
  omega

theorem rdrandGetBytes_drawn {used next : Nat} {words : List (BitVec 32)}
    (all : drawn p ((msgSize - msgLen + 3) / 4) used = some (words, next)) :
    (rdrandGetBytes p (msgSize - msgLen) (message + msgLen) used).stores =
      blit (message + msgLen) (padding words (msgSize - msgLen)) := by
  obtain ⟨length, residual⟩ := count_tail aligned fits
  simp only [rdrandGetBytes, length, residual, startlen_tail aligned fits, padding]
  by_cases whole : (msgSize - msgLen) % 4 = 0
  · rw [show (msgSize - msgLen + 3) / 4 = (msgSize - msgLen) / 4 by omega] at all
    simp only [whole, if_true, fillBlocks, rdrandGetN32_drawn p _ all]
    simp
  · rw [show (msgSize - msgLen + 3) / 4 = (msgSize - msgLen) / 4 + 1 by omega] at all
    obtain ⟨value, rest, middle, one, rfl, more⟩ := drawn_succ p all
    have amount : ((bytes 4 value).take ((msgSize - msgLen) % 4)).length = (msgSize - msgLen) % 4 := by
      rw [List.length_take, bytes_length]
      omega
    simp only [if_neg whole, fillBlocks, one, rdrandGetN32_drawn p _ more]
    simp [lowStores, blit_append, amount]

omit aligned in
/-- A put goes on to the scan with the padding it finds. -/
theorem sends_padded (aead : Aead 16) (raw : Buffer) (random : Memory) :
    Sends aead raw msgLen random (padded raw msgLen random) := by
  intro shm
  have whole : (padded raw msgLen random).length = msgSize := padded_length fits
  have accepted : Keyboard.putInBuffer aead raw msgLen random shm =
      putMessage aead .inbound (padded raw msgLen random) shm := by
    rw [Keyboard.putInBuffer, put, accept, if_neg (by decide), if_neg (by omega), if_neg (by omega)]
    rfl
  rw [accepted]
  obtain full | ⟨i, bound, free, _, stored⟩ := putMessage_cases aead .inbound (padded raw msgLen random) shm
  · exact Or.inl full
  · exact Or.inr ⟨i, bound, _, free, stored, stored_slot aead bound whole⟩

/-- Whatever the instruction does, a put with an aligned array fills its padding and
nothing else. With enough words the packet is that of the message padded with them, but
the put goes on without any: then the packet carries what the stack held. -/
theorem put_padding_filled_or_stale (aead : Aead 16) (stack : Memory) (raw : Buffer) (used : Nat) :
    (∀ a, a < message + msgLen ∨ message + msgSize ≤ a →
      stack.apply (randombytesBuf p (message + msgLen) (msgSize - msgLen) used) a = stack a) ∧
    (∀ words next, drawn p ((msgSize - msgLen + 3) / 4) used = some (words, next) →
      Sends aead raw msgLen (tail p stack message msgLen used)
        (raw.byte.read 0 msgLen ++ padding words (msgSize - msgLen))) ∧
    (p.supported = false →
      Sends aead raw msgLen (tail p stack message msgLen used)
        (raw.byte.read 0 msgLen ++ stack.read (message + msgLen) (msgSize - msgLen))) := by
  have long : startlen (message + msgLen) ≤ msgSize - msgLen := by
    rw [startlen_tail aligned fits]
    exact Nat.mod_le _ _
  have small : msgSize - msgLen < 0x100000000 := by
    simp only [msgSize, pktSize]
    omega
  have sends := sends_padded fits aead raw (tail p stack message msgLen used)
  rw [padded, tail_read] at sends
  obtain ⟨written, same, short, _⟩ := rdrandGetBytes_covers p long small used
  refine ⟨fun a outside => ?_, fun words next all => ?_, fun unsupported => ?_⟩
  · refine stack.apply_frame fun s member => ?_
    rw [randombytesBuf, same] at member
    have range := mem_blit member
    omega
  · have exactly := padding_length (drawn_length p all)
    have back := stack.read_apply_blit (message + msgLen) (padding words (msgSize - msgLen))
    rw [exactly] at back
    rwa [randombytesBuf, rdrandGetBytes_drawn p aligned fits all, back] at sends
  · rwa [unsupported_stores p unsupported] at sends

end Padding

theorem drawn_constant (word : BitVec 32) (k used : Nat) :
    drawn (constant word) k used = some (List.replicate k word, used + k) := by
  induction k generalizing used with
  | zero => rfl
  | succ k ih =>
    have one : rdrand32 (constant word) used = ⟨1, some word, used + 1⟩ := rfl
    rw [drawn, one]
    simp only
    rw [ih, Option.map_some, List.replicate_succ, Nat.add_assoc, Nat.add_comm 1]

/-- Ten bytes on a processor that always delivers, and on one without the instruction. -/
theorem put_padding_constant_or_stale :
    (0x1000 % 4 = 0 ∧ 10 ≤ msgSize) ∧
      Sends (transparent 16) ⟨10, fun _ => 1⟩ 10 (tail (constant 7) (fun _ => 0x41) 0x1000 10 0)
        (Memory.read (fun _ => 1) 0 10 ++ padding (List.replicate 1018 7) (msgSize - 10)) ∧
      Sends (transparent 16) ⟨10, fun _ => 1⟩ 10 (tail ⟨false, fun _ => none⟩ (fun _ => 0x41) 0x1000 10 0)
        (Memory.read (fun _ => 1) 0 10 ++ Memory.read (fun _ => 0x41) (0x1000 + 10) (msgSize - 10)) := by
  have fits : 10 ≤ msgSize := by decide
  have filled := put_padding_filled_or_stale (constant 7) (by decide : 0x1000 % 4 = 0) fits (transparent 16)
    (fun _ => 0x41) ⟨10, fun _ => 1⟩ 0
  have stale := put_padding_filled_or_stale ⟨false, fun _ => none⟩ (by decide : 0x1000 % 4 = 0) fits
    (transparent 16) (fun _ => 0x41) ⟨10, fun _ => 1⟩ 0
  exact ⟨⟨by decide, fits⟩, filled.2.1 _ _ (drawn_constant 7 _ 0), stale.2.2 rfl⟩

end Aurora.Smm.Random
