import Aurora.Lib.Bytes
import Aurora.Lib.Gf128

/-! Galois/Counter Mode over any cipher on 16-byte blocks, as the standard states
it: one counter block and one field product at a time. -/
namespace Lib

namespace Gcm

/-- A block cipher under a fixed key. -/
structure Cipher where
  run : List UInt8 → List UInt8
  run_length : ∀ b, (run b).length = 16

/-- A block as a field element: big-endian, zeros after the last byte. -/
def block (list : List UInt8) : BitVec 128 := load 128 ((List.range 16).map fun i => list.getD (15 - i) 0)

def unblock (v : BitVec 128) : List UInt8 := (bytes 16 v).reverse

def be32 (counter : BitVec 32) : List UInt8 := (bytes 4 counter).reverse

def be64 (value : Nat) : List UInt8 := (bytes 8 (BitVec.ofNat 64 value)).reverse

def blocks (list : List UInt8) : List (BitVec 128) :=
  if list = [] then [] else block (list.take 16) :: blocks (list.drop 16)
termination_by list.length
decreasing_by
  rename_i nonempty
  have := List.length_pos_iff.mpr nonempty
  rw [List.length_drop]
  omega

/-- The hash of a block sequence, continued from an accumulator. -/
def ghash (h acc : BitVec 128) (xs : List (BitVec 128)) : BitVec 128 :=
  xs.foldl (fun y x => Gf128.mul (y ^^^ x) h) acc

section Mode
variable (E : Cipher) (iv : List UInt8)

def keystream (counter : BitVec 32) : Nat → List UInt8
  | 0 => []
  | k + 1 => E.run (iv ++ be32 counter) ++ keystream (counter + 1) k

def gctr (counter : BitVec 32) (message : List UInt8) : List UInt8 :=
  xorBytes message (keystream E iv counter ((message.length + 15) / 16))

/-- The lengths of both parts in bits. -/
def lengths (ad cipher : List UInt8) : List UInt8 := be64 (8 * ad.length) ++ be64 (8 * cipher.length)

def hashed (ad cipher : List UInt8) : List (BitVec 128) :=
  blocks ad ++ blocks cipher ++ [block (lengths ad cipher)]

def tag (ad cipher : List UInt8) : List UInt8 :=
  xorBytes (E.run (iv ++ be32 1))
    (unblock (ghash (block (E.run (List.replicate 16 0))) 0#128 (hashed ad cipher)))

def encrypt (ad message : List UInt8) : List UInt8 :=
  gctr E iv 2 message ++ tag E iv ad (gctr E iv 2 message)

def decrypt (ad packet : List UInt8) : Option (List UInt8) :=
  if 16 ≤ packet.length ∧
      packet.drop (packet.length - 16) = tag E iv ad (packet.take (packet.length - 16))
  then some (gctr E iv 2 (packet.take (packet.length - 16))) else none

end Mode

section Blocks

theorem block_take (list : List UInt8) : block (list.take 16) = block list := by
  unfold block
  congr 1
  apply List.map_congr_left
  intro i _
  simp only [List.getD, List.getElem?_take, show 15 - i < 16 by omega, if_true]

theorem blocks_nil : blocks [] = [] := by
  rw [blocks, if_pos rfl]

theorem blocks_step {list : List UInt8} (more : 0 < list.length) :
    blocks list = block list :: blocks (list.drop 16) := by
  rw [blocks, if_neg (List.length_pos_iff.mp more), block_take]

theorem blocks_append {a : List UInt8} (b : List UInt8) {n : Nat} (whole : a.length = 16 * n) :
    blocks (a ++ b) = blocks a ++ blocks b := by
  induction n generalizing a with
  | zero =>
    rw [List.length_eq_zero_iff.mp whole, List.nil_append, blocks_nil, List.nil_append]
  | succ n ih =>
    have long : 16 ≤ a.length := by omega
    have head : block (a ++ b) = block a := by
      rw [← block_take, List.take_append_of_le_length long, block_take]
    rw [blocks_step (by rw [List.length_append]; omega), head, List.drop_append_of_le_length long,
      ih (by rw [List.length_drop]; omega), @blocks_step a (by omega), List.cons_append]

theorem blocks_take_drop (list : List UInt8) (k : Nat) :
    blocks list = blocks (list.take (16 * k)) ++ blocks (list.drop (16 * k)) := by
  by_cases long : 16 * k ≤ list.length
  · rw [← blocks_append _ (n := k) (by rw [List.length_take]; omega), List.take_append_drop]
  · rw [List.take_of_length_le (by omega), List.drop_eq_nil_of_le (by omega), blocks_nil, List.append_nil]

theorem blocks_length (list : List UInt8) : (blocks list).length = (list.length + 15) / 16 := by
  fun_induction blocks list with
  | case1 => rfl
  | case2 list nonempty ih =>
    have := List.length_pos_iff.mpr nonempty
    rw [List.length_cons, ih, List.length_drop]
    omega

theorem ghash_append (h acc : BitVec 128) (xs ys : List (BitVec 128)) :
    ghash h acc (xs ++ ys) = ghash h (ghash h acc xs) ys :=
  List.foldl_append

theorem ghash_nil (h acc : BitVec 128) : ghash h acc [] = acc := rfl

theorem ghash_cons (h acc x : BitVec 128) (xs : List (BitVec 128)) :
    ghash h acc (x :: xs) = ghash h (Gf128.mul (acc ^^^ x) h) xs := rfl

/-- The hash is linear in the blocks and the accumulator together. -/
theorem ghash_xor (h a b : BitVec 128) {xs ys : List (BitVec 128)} (same : xs.length = ys.length) :
    ghash h (a ^^^ b) (List.zipWith (· ^^^ ·) xs ys) = ghash h a xs ^^^ ghash h b ys := by
  induction xs generalizing a b ys with
  | nil =>
    cases ys with
    | nil => rfl
    | cons y ys => simp at same
  | cons x xs ih =>
    cases ys with
    | nil => simp at same
    | cons y ys =>
      have mixed : a ^^^ b ^^^ (x ^^^ y) = (a ^^^ x) ^^^ (b ^^^ y) := by ac_rfl
      rw [List.zipWith_cons_cons, ghash_cons, ghash_cons, ghash_cons, mixed, Gf128.xor_mul,
        ih _ _ (by simpa using same)]

theorem block_xor {a b : List UInt8} (same : a.length = b.length) :
    block (xorBytes a b) = block a ^^^ block b := by
  apply BitVec.eq_of_getLsbD_eq
  intro i small
  have index : i / 8 < 16 := by omega
  simp only [block, BitVec.getLsbD_xor, getLsbD_load, decide_eq_true small, Bool.true_and, List.getD,
    List.getElem?_map, List.getElem?_range index, Option.map_some, Option.getD_some]
  have byte := xorBytes_getD same (15 - i / 8)
  simp only [List.getD] at byte
  rw [byte, UInt8.toBitVec_xor, BitVec.getLsbD_xor]

theorem blocks_xor {a b : List UInt8} (same : a.length = b.length) :
    blocks (xorBytes a b) = List.zipWith (· ^^^ ·) (blocks a) (blocks b) := by
  have length : (xorBytes a b).length = a.length := by
    rw [xorBytes_length, ← same, Nat.min_self]
  fun_induction blocks a generalizing b with
  | case1 => simp [xorBytes, blocks_nil]
  | case2 a nonempty ih =>
    have positive := List.length_pos_iff.mpr nonempty
    have dropped : (xorBytes a b).drop 16 = xorBytes (a.drop 16) (b.drop 16) := List.drop_zipWith
    rw [blocks_step (by omega), @blocks_step b (by omega), List.zipWith_cons_cons, dropped,
      block_take, block_xor same, ih (by simp [same]) (by simp [xorBytes_length, same])]

end Blocks

section Mode
variable (E : Cipher) (iv : List UInt8)

@[simp] theorem keystream_length (counter : BitVec 32) (k : Nat) :
    (keystream E iv counter k).length = 16 * k := by
  induction k generalizing counter with
  | zero => rfl
  | succ k ih =>
    rw [keystream, List.length_append, E.run_length, ih]
    omega

theorem keystream_add (counter : BitVec 32) (j k : Nat) : keystream E iv counter (j + k) =
    keystream E iv counter j ++ keystream E iv (counter + BitVec.ofNat 32 j) k := by
  induction j generalizing counter with
  | zero => simp [keystream]
  | succ j ih =>
    have next : counter + 1 + BitVec.ofNat 32 j = counter + BitVec.ofNat 32 (j + 1) := by
      rw [BitVec.ofNat_add, BitVec.add_assoc, BitVec.add_comm 1]
      rfl
    rw [show j + 1 + k = j + k + 1 by omega, keystream, keystream, ih, List.append_assoc, next]

/-- Any number of blocks that covers the message gives the same result. -/
theorem gctr_eq {counter : BitVec 32} {message : List UInt8} {k : Nat} (enough : message.length ≤ 16 * k) :
    gctr E iv counter message = xorBytes message (keystream E iv counter k) := by
  have split : k = (message.length + 15) / 16 + (k - (message.length + 15) / 16) := by omega
  rw [gctr, split, keystream_add, xorBytes_append_right (by rw [keystream_length]; omega)]

theorem gctr_append (counter : BitVec 32) {a : List UInt8} (b : List UInt8) {k : Nat} (whole : a.length = 16 * k) :
    gctr E iv counter (a ++ b) = gctr E iv counter a ++ gctr E iv (counter + BitVec.ofNat 32 k) b := by
  rw [gctr_eq E iv (k := k + (b.length + 15) / 16) (by rw [List.length_append]; omega), keystream_add,
    xorBytes_append (by rw [whole, keystream_length]), ← gctr_eq E iv (Nat.le_of_eq whole)]
  rfl

theorem gctr_nil (counter : BitVec 32) : gctr E iv counter [] = [] := by
  simp [gctr, xorBytes]

theorem gctr_take_drop (counter : BitVec 32) (message : List UInt8) (k : Nat) :
    gctr E iv counter message = gctr E iv counter (message.take (16 * k)) ++
      gctr E iv (counter + BitVec.ofNat 32 k) (message.drop (16 * k)) := by
  by_cases long : 16 * k ≤ message.length
  · rw [← gctr_append E iv counter _ (k := k) (by rw [List.length_take]; omega), List.take_append_drop]
  · rw [List.take_of_length_le (by omega), List.drop_eq_nil_of_le (by omega), gctr_nil, List.append_nil]

@[simp] theorem gctr_length (counter : BitVec 32) (message : List UInt8) :
    (gctr E iv counter message).length = message.length := by
  rw [gctr, xorBytes_length, keystream_length]
  omega

theorem blocks_gctr (counter : BitVec 32) (message : List UInt8) (k : Nat) :
    blocks (gctr E iv counter message) = blocks (gctr E iv counter (message.take (16 * k))) ++
      blocks (gctr E iv (counter + BitVec.ofNat 32 k) (message.drop (16 * k))) := by
  by_cases long : 16 * k ≤ message.length
  · rw [gctr_take_drop E iv counter message k,
      blocks_append _ (n := k) (by rw [gctr_length, List.length_take]; omega)]
  · rw [List.take_of_length_le (by omega), List.drop_eq_nil_of_le (by omega), gctr_nil, blocks_nil,
      List.append_nil]

theorem gctr_gctr (counter : BitVec 32) (message : List UInt8) :
    gctr E iv counter (gctr E iv counter message) = message := by
  rw [gctr, gctr_length, gctr, xorBytes_self_right (by rw [keystream_length]; omega)]

@[simp] theorem tag_length (ad cipher : List UInt8) : (tag E iv ad cipher).length = 16 := by
  rw [tag, xorBytes_length, E.run_length, unblock, List.length_reverse, bytes_length, Nat.min_self]

@[simp] theorem encrypt_length (ad message : List UInt8) :
    (encrypt E iv ad message).length = message.length + 16 := by
  rw [encrypt, List.length_append, gctr_length, tag_length]

/-- Decryption opens exactly the packets that encryption makes. -/
theorem decrypt_eq_some (ad packet message : List UInt8) :
    decrypt E iv ad packet = some message ↔ packet = encrypt E iv ad message := by
  constructor
  · intro opened
    unfold decrypt at opened
    split at opened
    · rename_i valid
      cases opened
      rw [encrypt, gctr_gctr, ← valid.2, List.take_append_drop]
    · contradiction
  · rintro rfl
    have front : (encrypt E iv ad message).length - 16 = (gctr E iv 2 message).length := by
      rw [encrypt_length, gctr_length, Nat.add_sub_cancel]
    rw [decrypt, front, encrypt, List.drop_left, List.take_left, if_pos, gctr_gctr]
    exact ⟨by simp, rfl⟩

end Mode

/-! Under one nonce the mode is affine: the exclusive or of three packets of one
length is again a packet. -/
section Reuse
variable (E : Cipher) (iv : List UInt8)

def xor3 (a b c : List UInt8) : List UInt8 := xorBytes (xorBytes a b) c

theorem xor3_length {a b c : List UInt8} (left : a.length = b.length) (right : b.length = c.length) :
    (xor3 a b c).length = a.length := by
  rw [xor3, xorBytes_length, xorBytes_length]
  omega

theorem xor3_append {a b c a' b' c' : List UInt8} (left : a.length = b.length) (right : b.length = c.length) :
    xor3 (a ++ a') (b ++ b') (c ++ c') = xor3 a b c ++ xor3 a' b' c' := by
  rw [xor3, xorBytes_append left, xorBytes_append (by rw [xorBytes_length]; omega), xor3, xor3]

/-- A common mask survives three times. -/
theorem xor3_mask {a b c mask : List UInt8} (left : a.length = b.length) (right : b.length = c.length) :
    xor3 (xorBytes a mask) (xorBytes b mask) (xorBytes c mask) = xorBytes (xor3 a b c) mask := by
  apply List.ext_getElem
  · simp only [xor3, xorBytes_length]
    omega
  · intro i _ _
    simp only [xor3, xorBytes, List.getElem_zipWith]
    rw [show ∀ x y z m : UInt8, (x ^^^ m ^^^ (y ^^^ m)) ^^^ (z ^^^ m) = x ^^^ y ^^^ z ^^^ m from ?_]
    intro x y z m
    calc (x ^^^ m ^^^ (y ^^^ m)) ^^^ (z ^^^ m) = (x ^^^ y ^^^ z ^^^ m) ^^^ (m ^^^ m) := by ac_rfl
      _ = x ^^^ y ^^^ z ^^^ m := by rw [UInt8.xor_self, UInt8.xor_zero]

/-- A common mask cancels. -/
theorem xorBytes_mask {a b mask : List UInt8} (same : a.length = b.length) (long : a.length ≤ mask.length) :
    xorBytes (xorBytes a mask) (xorBytes b mask) = xorBytes a b := by
  apply List.ext_getElem
  · simp only [xorBytes_length]
    omega
  · intro i _ _
    simp only [xorBytes, List.getElem_zipWith]
    rw [show ∀ x y m : UInt8, x ^^^ m ^^^ (y ^^^ m) = x ^^^ y from ?_]
    intro x y m
    calc x ^^^ m ^^^ (y ^^^ m) = x ^^^ y ^^^ (m ^^^ m) := by ac_rfl
      _ = x ^^^ y := by rw [UInt8.xor_self, UInt8.xor_zero]

theorem gctr_xor (counter : BitVec 32) {a b : List UInt8} (same : a.length = b.length) :
    xorBytes (gctr E iv counter a) (gctr E iv counter b) = xorBytes a b := by
  rw [gctr, gctr, ← same, xorBytes_mask same (by rw [keystream_length]; omega)]

theorem gctr_xor3 (counter : BitVec 32) {a b c : List UInt8} (left : a.length = b.length)
    (right : b.length = c.length) : gctr E iv counter (xor3 a b c) =
      xor3 (gctr E iv counter a) (gctr E iv counter b) (gctr E iv counter c) := by
  rw [gctr, gctr, gctr, gctr, xor3_length left right, ← left.trans right, ← left, xor3_mask left right]

theorem unblock_xor (x y : BitVec 128) : unblock (x ^^^ y) = xorBytes (unblock x) (unblock y) := by
  rw [unblock, bytes_xor, xorBytes, List.reverse_zipWith (by simp)]
  rfl

theorem zipWith_xor3_self (xs : List (BitVec 128)) :
    List.zipWith (· ^^^ ·) (List.zipWith (· ^^^ ·) xs xs) xs = xs := by
  apply List.ext_getElem
  · simp
  · intro i _ _
    simp

/-- Data and lengths that the three packets share are unchanged by the sum. -/
theorem hashed_xor3 (ad : List UInt8) {a b c : List UInt8} (left : a.length = b.length)
    (right : b.length = c.length) : hashed ad (xor3 a b c) =
      List.zipWith (· ^^^ ·) (List.zipWith (· ^^^ ·) (hashed ad a) (hashed ad b)) (hashed ad c) := by
  have first : lengths ad b = lengths ad a := by rw [lengths, lengths, left]
  have second : lengths ad c = lengths ad a := by rw [lengths, lengths, left, right]
  have sum : lengths ad (xor3 a b c) = lengths ad a := by rw [lengths, lengths, xor3_length left right]
  have middle : blocks (xor3 a b c) =
      List.zipWith (· ^^^ ·) (List.zipWith (· ^^^ ·) (blocks a) (blocks b)) (blocks c) := by
    rw [xor3, blocks_xor (by rw [xorBytes_length]; omega), blocks_xor left]
  have sizes : (blocks a).length = (blocks b).length ∧ (blocks b).length = (blocks c).length := by
    simp only [blocks_length, left, right, and_self]
  simp only [hashed, first, second, sum, middle]
  rw [List.zipWith_append (by simp [sizes.1]), List.zipWith_append rfl,
    List.zipWith_append (by simp [sizes.1, sizes.2]), List.zipWith_append (by simp), zipWith_xor3_self,
    zipWith_xor3_self]

theorem tag_xor3 (ad : List UInt8) {a b c : List UInt8} (left : a.length = b.length)
    (right : b.length = c.length) :
    tag E iv ad (xor3 a b c) = xor3 (tag E iv ad a) (tag E iv ad b) (tag E iv ad c) := by
  have sizes : (hashed ad a).length = (hashed ad b).length ∧
      (List.zipWith (· ^^^ ·) (hashed ad a) (hashed ad b)).length = (hashed ad c).length := by
    simp [hashed, blocks_length, left, right]
  simp only [tag]
  generalize block (E.run (List.replicate 16 0)) = h
  generalize E.run (iv ++ be32 1) = first
  have digest : ghash h 0#128 (hashed ad (xor3 a b c)) = ghash h 0#128 (hashed ad a) ^^^
      ghash h 0#128 (hashed ad b) ^^^ ghash h 0#128 (hashed ad c) := by
    rw [hashed_xor3 ad left right, ← ghash_xor h 0#128 0#128 sizes.1, BitVec.xor_self,
      ← ghash_xor h 0#128 0#128 sizes.2, BitVec.xor_self]
  rw [digest, unblock_xor, unblock_xor, xorBytes_comm first, xorBytes_comm first, xorBytes_comm first,
    xorBytes_comm first, xor3_mask (by simp [unblock]) (by simp [unblock]), xor3]

theorem encrypt_xor3 (ad : List UInt8) {a b c : List UInt8} (left : a.length = b.length)
    (right : b.length = c.length) :
    encrypt E iv ad (xor3 a b c) = xor3 (encrypt E iv ad a) (encrypt E iv ad b) (encrypt E iv ad c) := by
  simp only [encrypt]
  rw [xor3_append (by simpa using left) (by simpa using right), gctr_xor3 E iv 2 left right,
    tag_xor3 E iv ad (by simpa using left) (by simpa using right)]

end Reuse

end Gcm
end Lib
