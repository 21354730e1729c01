import Aurora.Lib.Bytes
import Aurora.Lib.Memory

/-! MD5 as its standard defines it: the padding, and for each block 64 steps over a
rotating state, the operand, the shift and the word of each given by its number. -/
namespace Lib.Md5

structure State where
  a : BitVec 32
  b : BitVec 32
  c : BitVec 32
  d : BitVec 32
deriving DecidableEq, Repr

def State.add (s t : State) : State := ⟨s.a + t.a, s.b + t.b, s.c + t.c, s.d + t.d⟩

def initial : State := ⟨0x67452301, 0xefcdab89, 0x98badcfe, 0x10325476⟩

/-- The auxiliary function of each group of sixteen steps. -/
def auxiliary (group : Nat) (x y z : BitVec 32) : BitVec 32 :=
  match group with
  | 0 => (x &&& y) ||| (~~~x &&& z)
  | 1 => (x &&& z) ||| (y &&& ~~~z)
  | 2 => x ^^^ y ^^^ z
  | _ => y ^^^ (x ||| ~~~z)

/-- Which word of the block a step takes. -/
def word (i : Nat) : Nat :=
  match i / 16 with
  | 0 => i
  | 1 => (5 * i + 1) % 16
  | 2 => (3 * i + 5) % 16
  | _ => (7 * i) % 16

def shift (i : Nat) : Nat :=
  ([[7, 12, 17, 22], [5, 9, 14, 20], [4, 11, 16, 23], [6, 10, 15, 21]].getD (i / 16) []).getD (i % 4) 0

/-- The integer parts of `2 ^ 32` times the sine of 1 to 64. -/
def sines : List (BitVec 32) := [
  0xd76aa478, 0xe8c7b756, 0x242070db, 0xc1bdceee, 0xf57c0faf, 0x4787c62a, 0xa8304613, 0xfd469501,
  0x698098d8, 0x8b44f7af, 0xffff5bb1, 0x895cd7be, 0x6b901122, 0xfd987193, 0xa679438e, 0x49b40821,
  0xf61e2562, 0xc040b340, 0x265e5a51, 0xe9b6c7aa, 0xd62f105d, 0x02441453, 0xd8a1e681, 0xe7d3fbc8,
  0x21e1cde6, 0xc33707d6, 0xf4d50d87, 0x455a14ed, 0xa9e3e905, 0xfcefa3f8, 0x676f02d9, 0x8d2a4c8a,
  0xfffa3942, 0x8771f681, 0x6d9d6122, 0xfde5380c, 0xa4beea44, 0x4bdecfa9, 0xf6bb4b60, 0xbebfbc70,
  0x289b7ec6, 0xeaa127fa, 0xd4ef3085, 0x04881d05, 0xd9d4d039, 0xe6db99e5, 0x1fa27cf8, 0xc4ac5665,
  0xf4292244, 0x432aff97, 0xab9423a7, 0xfc93a039, 0x655b59c3, 0x8f0ccc92, 0xffeff47d, 0x85845dd1,
  0x6fa87e4f, 0xfe2ce6e0, 0xa3014314, 0x4e0811a1, 0xf7537e82, 0xbd3af235, 0x2ad7d2bb, 0xeb86d391]

def step (x : Nat → BitVec 32) (s : State) (i : Nat) : State :=
  let sum := s.a + auxiliary (i / 16) s.b s.c s.d + x (word i) + sines.getD i 0
  ⟨s.d, s.b + sum.rotateLeft (shift i), s.b, s.c⟩

/-- The little-endian words of a block. -/
def words (block : List UInt8) (k : Nat) : BitVec 32 := load 32 ((block.drop (4 * k)).take 4)

def compress (s : State) (block : List UInt8) : State :=
  s.add ((List.range 64).foldl (step (words block)) s)

/-- All whole blocks of a list. -/
def absorb (compress : State → List UInt8 → State) (s : State) (list : List UInt8) : State :=
  if 64 ≤ list.length then absorb compress (compress s (list.take 64)) (list.drop 64) else s
termination_by list.length
decreasing_by
  rw [List.length_drop]
  omega

/-- A bit, then zeros up to eight bytes before the end of a block, then the length in
bits. -/
def pad (message : List UInt8) : List UInt8 :=
  message ++ 0x80 :: List.replicate ((119 - message.length % 64) % 64) 0 ++ littleEndian 8 (8 * message.length)

def digest (message : List UInt8) : State := absorb compress initial (pad message)

section Absorb
variable (compress : State → List UInt8 → State)

theorem absorb_short (s : State) {list : List UInt8} (short : list.length < 64) : absorb compress s list = s := by
  rw [absorb, if_neg (by omega)]

theorem absorb_block (s : State) {block : List UInt8} (whole : block.length = 64) (rest : List UInt8) :
    absorb compress s (block ++ rest) = absorb compress (compress s block) rest := by
  rw [absorb, if_pos (by rw [List.length_append]; omega), ← whole, List.take_left, List.drop_left]

theorem absorb_one (s : State) {block : List UInt8} (whole : block.length = 64) :
    absorb compress s block = compress s block := by
  rw [← List.append_nil block, absorb_block compress s whole, absorb_short compress _ (by simp), List.append_nil]

end Absorb

end Lib.Md5
