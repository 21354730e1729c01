import Aurora.Lib.Md5

/-! The two MD5 implementations of the storage path: the unrolled C rounds of the
firmware and the assembly that the enclave stamps its records with, both below the same
hash function. Each computes MD5, so both ends compute the same stamps. -/
namespace Aurora.Storage
open Lib Md5

/-- The working variables; in the assembly they are `eax` to `edx`. -/
inductive Var where
  | a
  | b
  | c
  | d
deriving DecidableEq, Repr

inductive Kind where
  | round0
  | round1
  | round2
  | round3
deriving DecidableEq, Repr

/-- One use of a round macro. -/
structure Round (T : Type) where
  kind : Kind
  a : Var
  b : Var
  c : Var
  d : Var
  k : Nat
  s : Nat
  t : T
deriving DecidableEq, Repr

/-! The firmware. -/

def get (v : State) : Var → BitVec 32
  | .a => v.a
  | .b => v.b
  | .c => v.c
  | .d => v.d

def set (v : State) (x : Var) (value : BitVec 32) : State :=
  match x with
  | .a => { v with a := value }
  | .b => { v with b := value }
  | .c => { v with c := value }
  | .d => { v with d := value }

def rotl32 (x : BitVec 32) (n : Nat) : BitVec 32 := (x <<< n) ||| (x >>> (32 - n))

def Kind.expr (kind : Kind) (b c d : BitVec 32) : BitVec 32 :=
  match kind with
  | round0 => d ^^^ (b &&& (c ^^^ d))
  | round1 => c ^^^ (d &&& (b ^^^ c))
  | round2 => b ^^^ c ^^^ d
  | round3 => c ^^^ (b ||| ~~~d)

/-- `ROUND_TAIL` -/
def Round.exec (schedule : Nat → BitVec 32) (v : State) (r : Round (BitVec 32)) : State :=
  let sum := get v r.a + r.kind.expr (get v r.b) (get v r.c) (get v r.d) + r.t + schedule r.k
  set v r.a (get v r.b + rotl32 sum r.s)

def rounds : List (Round (BitVec 32)) := [
  ⟨.round0, .a, .b, .c, .d, 0, 7, 0xd76aa478⟩, ⟨.round0, .d, .a, .b, .c, 1, 12, 0xe8c7b756⟩,
  ⟨.round0, .c, .d, .a, .b, 2, 17, 0x242070db⟩, ⟨.round0, .b, .c, .d, .a, 3, 22, 0xc1bdceee⟩,
  ⟨.round0, .a, .b, .c, .d, 4, 7, 0xf57c0faf⟩, ⟨.round0, .d, .a, .b, .c, 5, 12, 0x4787c62a⟩,
  ⟨.round0, .c, .d, .a, .b, 6, 17, 0xa8304613⟩, ⟨.round0, .b, .c, .d, .a, 7, 22, 0xfd469501⟩,
  ⟨.round0, .a, .b, .c, .d, 8, 7, 0x698098d8⟩, ⟨.round0, .d, .a, .b, .c, 9, 12, 0x8b44f7af⟩,
  ⟨.round0, .c, .d, .a, .b, 10, 17, 0xffff5bb1⟩, ⟨.round0, .b, .c, .d, .a, 11, 22, 0x895cd7be⟩,
  ⟨.round0, .a, .b, .c, .d, 12, 7, 0x6b901122⟩, ⟨.round0, .d, .a, .b, .c, 13, 12, 0xfd987193⟩,
  ⟨.round0, .c, .d, .a, .b, 14, 17, 0xa679438e⟩, ⟨.round0, .b, .c, .d, .a, 15, 22, 0x49b40821⟩,
  ⟨.round1, .a, .b, .c, .d, 1, 5, 0xf61e2562⟩, ⟨.round1, .d, .a, .b, .c, 6, 9, 0xc040b340⟩,
  ⟨.round1, .c, .d, .a, .b, 11, 14, 0x265e5a51⟩, ⟨.round1, .b, .c, .d, .a, 0, 20, 0xe9b6c7aa⟩,
  ⟨.round1, .a, .b, .c, .d, 5, 5, 0xd62f105d⟩, ⟨.round1, .d, .a, .b, .c, 10, 9, 0x02441453⟩,
  ⟨.round1, .c, .d, .a, .b, 15, 14, 0xd8a1e681⟩, ⟨.round1, .b, .c, .d, .a, 4, 20, 0xe7d3fbc8⟩,
  ⟨.round1, .a, .b, .c, .d, 9, 5, 0x21e1cde6⟩, ⟨.round1, .d, .a, .b, .c, 14, 9, 0xc33707d6⟩,
  ⟨.round1, .c, .d, .a, .b, 3, 14, 0xf4d50d87⟩, ⟨.round1, .b, .c, .d, .a, 8, 20, 0x455a14ed⟩,
  ⟨.round1, .a, .b, .c, .d, 13, 5, 0xa9e3e905⟩, ⟨.round1, .d, .a, .b, .c, 2, 9, 0xfcefa3f8⟩,
  ⟨.round1, .c, .d, .a, .b, 7, 14, 0x676f02d9⟩, ⟨.round1, .b, .c, .d, .a, 12, 20, 0x8d2a4c8a⟩,
  ⟨.round2, .a, .b, .c, .d, 5, 4, 0xfffa3942⟩, ⟨.round2, .d, .a, .b, .c, 8, 11, 0x8771f681⟩,
  ⟨.round2, .c, .d, .a, .b, 11, 16, 0x6d9d6122⟩, ⟨.round2, .b, .c, .d, .a, 14, 23, 0xfde5380c⟩,
  ⟨.round2, .a, .b, .c, .d, 1, 4, 0xa4beea44⟩, ⟨.round2, .d, .a, .b, .c, 4, 11, 0x4bdecfa9⟩,
  ⟨.round2, .c, .d, .a, .b, 7, 16, 0xf6bb4b60⟩, ⟨.round2, .b, .c, .d, .a, 10, 23, 0xbebfbc70⟩,
  ⟨.round2, .a, .b, .c, .d, 13, 4, 0x289b7ec6⟩, ⟨.round2, .d, .a, .b, .c, 0, 11, 0xeaa127fa⟩,
  ⟨.round2, .c, .d, .a, .b, 3, 16, 0xd4ef3085⟩, ⟨.round2, .b, .c, .d, .a, 6, 23, 0x04881d05⟩,
  ⟨.round2, .a, .b, .c, .d, 9, 4, 0xd9d4d039⟩, ⟨.round2, .d, .a, .b, .c, 12, 11, 0xe6db99e5⟩,
  ⟨.round2, .c, .d, .a, .b, 15, 16, 0x1fa27cf8⟩, ⟨.round2, .b, .c, .d, .a, 2, 23, 0xc4ac5665⟩,
  ⟨.round3, .a, .b, .c, .d, 0, 6, 0xf4292244⟩, ⟨.round3, .d, .a, .b, .c, 7, 10, 0x432aff97⟩,
  ⟨.round3, .c, .d, .a, .b, 14, 15, 0xab9423a7⟩, ⟨.round3, .b, .c, .d, .a, 5, 21, 0xfc93a039⟩,
  ⟨.round3, .a, .b, .c, .d, 12, 6, 0x655b59c3⟩, ⟨.round3, .d, .a, .b, .c, 3, 10, 0x8f0ccc92⟩,
  ⟨.round3, .c, .d, .a, .b, 10, 15, 0xffeff47d⟩, ⟨.round3, .b, .c, .d, .a, 1, 21, 0x85845dd1⟩,
  ⟨.round3, .a, .b, .c, .d, 8, 6, 0x6fa87e4f⟩, ⟨.round3, .d, .a, .b, .c, 15, 10, 0xfe2ce6e0⟩,
  ⟨.round3, .c, .d, .a, .b, 6, 15, 0xa3014314⟩, ⟨.round3, .b, .c, .d, .a, 13, 21, 0x4e0811a1⟩,
  ⟨.round3, .a, .b, .c, .d, 4, 6, 0xf7537e82⟩, ⟨.round3, .d, .a, .b, .c, 11, 10, 0xbd3af235⟩,
  ⟨.round3, .c, .d, .a, .b, 2, 15, 0x2ad7d2bb⟩, ⟨.round3, .b, .c, .d, .a, 9, 21, 0xeb86d391⟩]

/-- `LOADSCHEDULE` -/
def loadSchedule (block : List UInt8) (i : Nat) : BitVec 32 :=
  BitVec.ofNat 32 (block.getD (i * 4 + 0) 0).toNat <<< 0 |||
    BitVec.ofNat 32 (block.getD (i * 4 + 1) 0).toNat <<< 8 |||
    BitVec.ofNat 32 (block.getD (i * 4 + 2) 0).toNat <<< 16 |||
    BitVec.ofNat 32 (block.getD (i * 4 + 3) 0).toNat <<< 24

def md5Compress (s : State) (block : List UInt8) : State :=
  s.add (rounds.foldl (Round.exec (loadSchedule block)) s)

/-! The enclave. -/

structure Regs where
  v : State
  esi : BitVec 32
  edi : BitVec 32

inductive Reg where
  | var (x : Var)
  | esi
  | edi
deriving DecidableEq, Repr

def Regs.get (r : Regs) : Reg → BitVec 32
  | .var x => Storage.get r.v x
  | .esi => r.esi
  | .edi => r.edi

def Regs.set (r : Regs) (dest : Reg) (value : BitVec 32) : Regs :=
  match dest with
  | .var x => { r with v := Storage.set r.v x value }
  | .esi => { r with esi := value }
  | .edi => { r with edi := value }

/-- The instructions of the macros, source first; `block` is at `rbp`. -/
inductive Instruction where
  | movl (src dest : Reg)
  | addlBlock (k : Nat) (dest : Reg)
  | addl (src dest : Reg)
  | xorl (src dest : Reg)
  | andl (src dest : Reg)
  | orl (src dest : Reg)
  | notl (dest : Reg)
  | leal (t : Int) (base index dest : Reg)
  | roll (s : Nat) (dest : Reg)

def Instruction.exec (block : List UInt8) (r : Regs) : Instruction → Regs
  | movl src dest => r.set dest (r.get src)
  | addlBlock k dest => r.set dest (r.get dest + load 32 ((block.drop (4 * k)).take 4))
  | addl src dest => r.set dest (r.get dest + r.get src)
  | xorl src dest => r.set dest (r.get dest ^^^ r.get src)
  | andl src dest => r.set dest (r.get dest &&& r.get src)
  | orl src dest => r.set dest (r.get dest ||| r.get src)
  | notl dest => r.set dest (~~~r.get dest)
  | leal t base index dest => r.set dest (BitVec.ofInt 32 t + r.get base + r.get index)
  | roll s dest => r.set dest ((r.get dest).rotateLeft s)

def Round.code (r : Round Int) : List Instruction :=
  let a := Reg.var r.a
  let b := Reg.var r.b
  let c := Reg.var r.c
  let d := Reg.var r.d
  let tail := [Instruction.leal r.t .esi a a, .roll r.s a, .addl b a]
  match r.kind with
  | .round0 => [.movl c .esi, .addlBlock r.k a, .xorl d .esi, .andl b .esi, .xorl d .esi] ++ tail
  | .round1 =>
    [.movl d .esi, .movl d .edi, .addlBlock r.k a, .notl .esi, .andl b .edi, .andl c .esi, .orl .edi .esi] ++ tail
  | .round2 => [.movl c .esi, .addlBlock r.k a, .xorl d .esi, .xorl b .esi] ++ tail
  | .round3 => [.movl d .esi, .notl .esi, .addlBlock r.k a, .orl b .esi, .xorl c .esi] ++ tail

def asmRounds : List (Round Int) := [
  ⟨.round0, .a, .b, .c, .d, 0, 7, -0x28955b88⟩, ⟨.round0, .d, .a, .b, .c, 1, 12, -0x173848aa⟩,
  ⟨.round0, .c, .d, .a, .b, 2, 17, 0x242070db⟩, ⟨.round0, .b, .c, .d, .a, 3, 22, -0x3e423112⟩,
  ⟨.round0, .a, .b, .c, .d, 4, 7, -0x0a83f051⟩, ⟨.round0, .d, .a, .b, .c, 5, 12, 0x4787c62a⟩,
  ⟨.round0, .c, .d, .a, .b, 6, 17, -0x57cfb9ed⟩, ⟨.round0, .b, .c, .d, .a, 7, 22, -0x02b96aff⟩,
  ⟨.round0, .a, .b, .c, .d, 8, 7, 0x698098d8⟩, ⟨.round0, .d, .a, .b, .c, 9, 12, -0x74bb0851⟩,
  ⟨.round0, .c, .d, .a, .b, 10, 17, -0x0000a44f⟩, ⟨.round0, .b, .c, .d, .a, 11, 22, -0x76a32842⟩,
  ⟨.round0, .a, .b, .c, .d, 12, 7, 0x6b901122⟩, ⟨.round0, .d, .a, .b, .c, 13, 12, -0x02678e6d⟩,
  ⟨.round0, .c, .d, .a, .b, 14, 17, -0x5986bc72⟩, ⟨.round0, .b, .c, .d, .a, 15, 22, 0x49b40821⟩,
  ⟨.round1, .a, .b, .c, .d, 1, 5, -0x09e1da9e⟩, ⟨.round1, .d, .a, .b, .c, 6, 9, -0x3fbf4cc0⟩,
  ⟨.round1, .c, .d, .a, .b, 11, 14, 0x265e5a51⟩, ⟨.round1, .b, .c, .d, .a, 0, 20, -0x16493856⟩,
  ⟨.round1, .a, .b, .c, .d, 5, 5, -0x29d0efa3⟩, ⟨.round1, .d, .a, .b, .c, 10, 9, 0x02441453⟩,
  ⟨.round1, .c, .d, .a, .b, 15, 14, -0x275e197f⟩, ⟨.round1, .b, .c, .d, .a, 4, 20, -0x182c0438⟩,
  ⟨.round1, .a, .b, .c, .d, 9, 5, 0x21e1cde6⟩, ⟨.round1, .d, .a, .b, .c, 14, 9, -0x3cc8f82a⟩,
  ⟨.round1, .c, .d, .a, .b, 3, 14, -0x0b2af279⟩, ⟨.round1, .b, .c, .d, .a, 8, 20, 0x455a14ed⟩,
  ⟨.round1, .a, .b, .c, .d, 13, 5, -0x561c16fb⟩, ⟨.round1, .d, .a, .b, .c, 2, 9, -0x03105c08⟩,
  ⟨.round1, .c, .d, .a, .b, 7, 14, 0x676f02d9⟩, ⟨.round1, .b, .c, .d, .a, 12, 20, -0x72d5b376⟩,
  ⟨.round2, .a, .b, .c, .d, 5, 4, -0x0005c6be⟩, ⟨.round2, .d, .a, .b, .c, 8, 11, -0x788e097f⟩,
  ⟨.round2, .c, .d, .a, .b, 11, 16, 0x6d9d6122⟩, ⟨.round2, .b, .c, .d, .a, 14, 23, -0x021ac7f4⟩,
  ⟨.round2, .a, .b, .c, .d, 1, 4, -0x5b4115bc⟩, ⟨.round2, .d, .a, .b, .c, 4, 11, 0x4bdecfa9⟩,
  ⟨.round2, .c, .d, .a, .b, 7, 16, -0x0944b4a0⟩, ⟨.round2, .b, .c, .d, .a, 10, 23, -0x41404390⟩,
  ⟨.round2, .a, .b, .c, .d, 13, 4, 0x289b7ec6⟩, ⟨.round2, .d, .a, .b, .c, 0, 11, -0x155ed806⟩,
  ⟨.round2, .c, .d, .a, .b, 3, 16, -0x2b10cf7b⟩, ⟨.round2, .b, .c, .d, .a, 6, 23, 0x04881d05⟩,
  ⟨.round2, .a, .b, .c, .d, 9, 4, -0x262b2fc7⟩, ⟨.round2, .d, .a, .b, .c, 12, 11, -0x1924661b⟩,
  ⟨.round2, .c, .d, .a, .b, 15, 16, 0x1fa27cf8⟩, ⟨.round2, .b, .c, .d, .a, 2, 23, -0x3b53a99b⟩,
  ⟨.round3, .a, .b, .c, .d, 0, 6, -0x0bd6ddbc⟩, ⟨.round3, .d, .a, .b, .c, 7, 10, 0x432aff97⟩,
  ⟨.round3, .c, .d, .a, .b, 14, 15, -0x546bdc59⟩, ⟨.round3, .b, .c, .d, .a, 5, 21, -0x036c5fc7⟩,
  ⟨.round3, .a, .b, .c, .d, 12, 6, 0x655b59c3⟩, ⟨.round3, .d, .a, .b, .c, 3, 10, -0x70f3336e⟩,
  ⟨.round3, .c, .d, .a, .b, 10, 15, -0x00100b83⟩, ⟨.round3, .b, .c, .d, .a, 1, 21, -0x7a7ba22f⟩,
  ⟨.round3, .a, .b, .c, .d, 8, 6, 0x6fa87e4f⟩, ⟨.round3, .d, .a, .b, .c, 15, 10, -0x01d31920⟩,
  ⟨.round3, .c, .d, .a, .b, 6, 15, -0x5cfebcec⟩, ⟨.round3, .b, .c, .d, .a, 13, 21, 0x4e0811a1⟩,
  ⟨.round3, .a, .b, .c, .d, 4, 6, -0x08ac817e⟩, ⟨.round3, .d, .a, .b, .c, 11, 10, -0x42c50dcb⟩,
  ⟨.round3, .c, .d, .a, .b, 2, 15, 0x2ad7d2bb⟩, ⟨.round3, .b, .c, .d, .a, 9, 21, -0x14792c6f⟩]

/-- `md5_compress` of `md5-fast.S`; `esi` and `edi` hold whatever the caller left. -/
def md5CompressAsm (esi edi : BitVec 32) (s : State) (block : List UInt8) : State :=
  s.add ((asmRounds.flatMap Round.code).foldl (Instruction.exec block) ⟨s, esi, edi⟩).v

/-! The hash function over either. -/

section Hash
-- Its calls are numbered, since each finds registers of its own.
variable (compress : Nat → State → List UInt8 → State)

/-- The loop over whole blocks: the number of the next call, the state, and what is left
of the message. -/
def hashBlocks (call : Nat) (s : State) (message : List UInt8) : Nat × State × List UInt8 :=
  if 64 ≤ message.length then hashBlocks (call + 1) (compress call s (message.take 64)) (message.drop 64)
  else (call, s, message)
termination_by message.length
decreasing_by
  rw [List.length_drop]
  omega

/-- The bytes of the length, the first with its low five bits. -/
def lengthBytes (len : Nat) : List UInt8 :=
  ((len &&& 0x1f) <<< 3).toUInt8 :: (List.range 7).map fun i => (((len >>> 5) >>> (8 * i)) &&& 0xff).toUInt8

def md5Hash (message : List UInt8) : State :=
  let (call, hash, rest) := hashBlocks compress 0 initial message
  let block := rest ++ 0x80 :: List.replicate (63 - rest.length) 0
  let rem := rest.length + 1
  let (call, hash, block) :=
    if 64 - rem < 8 then (call + 1, compress call hash block, List.replicate 64 0) else (call, hash, block)
  compress call hash (block.take 56 ++ lengthBytes message.length)

end Hash

/-- The hash of the firmware. -/
def firmwareHash (message : List UInt8) : State := md5Hash (fun _ => md5Compress) message

/-- The hash of the enclave, with what each call finds in the scratch registers. -/
def enclaveHash (scratch : Nat → BitVec 32 × BitVec 32) (message : List UInt8) : State :=
  md5Hash (fun call => md5CompressAsm (scratch call).1 (scratch call).2) message

/-! The operations of the rounds are the standard's. -/
section Operations

def Kind.group : Kind → Nat
  | round0 => 0
  | round1 => 1
  | round2 => 2
  | round3 => 3

theorem expr_eq (kind : Kind) (x y z : BitVec 32) : kind.expr x y z = auxiliary kind.group x y z := by
  cases kind with
  | round0 | round1 =>
    ext i
    simp only [Kind.expr, Kind.group, auxiliary, BitVec.getElem_xor, BitVec.getElem_and, BitVec.getElem_or,
      BitVec.getElem_not]
    cases x[i] <;> cases y[i] <;> cases z[i] <;> rfl
  | round2 | round3 => rfl

theorem rotl32_eq (x : BitVec 32) {n : Nat} (small : n < 32) : rotl32 x n = x.rotateLeft n := by
  rw [BitVec.rotateLeft_eq_rotateLeftAux_of_lt small]
  rfl

theorem shifted_byte (byte : UInt8) (q : Nat) {i : Nat} (inside : i < 32) :
    (BitVec.ofNat 32 byte.toNat <<< (8 * q)).getLsbD i = (decide (i / 8 = q) && byte.toBitVec.getLsbD (i % 8)) := by
  have bit (j : Nat) : byte.toNat.testBit j = byte.toBitVec.getLsbD j := rfl
  rw [BitVec.getLsbD_shiftLeft, BitVec.getLsbD_ofNat, bit, decide_eq_true inside, Bool.true_and]
  obtain below | here | above : i < 8 * q ∨ i / 8 = q ∨ 8 * q + 8 ≤ i := by omega
  · simp [below, show i / 8 ≠ q by omega]
  · simp [here, show ¬ i < 8 * q by omega, show i - 8 * q = i % 8 by omega, show i % 8 < 32 by omega]
  · rw [BitVec.getLsbD_of_ge _ _ (show 8 ≤ i - 8 * q by omega), decide_eq_false (show i / 8 ≠ q by omega)]
    simp

theorem loadSchedule_eq (block : List UInt8) (k : Nat) : loadSchedule block k = words block k := by
  apply BitVec.eq_of_getLsbD_eq
  intro i inside
  have taken : ((block.drop (4 * k)).take 4).getD (i / 8) 0 = block.getD (k * 4 + i / 8) 0 := by
    rw [List.getD_eq_getElem?_getD, List.getElem?_take_of_lt (by omega), List.getElem?_drop,
      ← List.getD_eq_getElem?_getD, Nat.mul_comm]
  rw [words, getLsbD_load, taken, decide_eq_true inside, Bool.true_and]
  simp only [loadSchedule, BitVec.getLsbD_or]
  rw [shifted_byte _ 0 inside, shifted_byte _ 1 inside, shifted_byte _ 2 inside, shifted_byte _ 3 inside]
  obtain here | here | here | here : i / 8 = 0 ∨ i / 8 = 1 ∨ i / 8 = 2 ∨ i / 8 = 3 := by omega
  all_goals simp [here]

end Operations

/-! The tables are the standard's, spelled out. -/
section Tables

/-- The round that the standard has at a step, with the names that stand for its
rotating state. -/
def standard (i : Nat) : Round (BitVec 32) :=
  let kind := match i / 16 with
    | 0 => .round0
    | 1 => .round1
    | 2 => .round2
    | _ => .round3
  match i % 4 with
  | 0 => ⟨kind, .a, .b, .c, .d, word i, shift i, sines.getD i 0⟩
  | 1 => ⟨kind, .d, .a, .b, .c, word i, shift i, sines.getD i 0⟩
  | 2 => ⟨kind, .c, .d, .a, .b, word i, shift i, sines.getD i 0⟩
  | _ => ⟨kind, .b, .c, .d, .a, word i, shift i, sines.getD i 0⟩

theorem rounds_standard : rounds = (List.range 64).map standard := by decide

def Round.toWord (r : Round Int) : Round (BitVec 32) :=
  ⟨r.kind, r.a, r.b, r.c, r.d, r.k, r.s, BitVec.ofInt 32 r.t⟩

theorem asmRounds_eq : asmRounds.map Round.toWord = rounds := by decide

theorem shift_lt {i : Nat} (bound : i < 64) : shift i < 32 := by
  revert i
  decide

end Tables

/-! One round of either is a step of the standard. The variables keep their names while
the standard's state rotates. -/
section Rounds

/-- The standard's state before a step. -/
def rotated (i : Nat) (v : State) : State :=
  match i % 4 with
  | 0 => v
  | 1 => ⟨v.d, v.a, v.b, v.c⟩
  | 2 => ⟨v.c, v.d, v.a, v.b⟩
  | _ => ⟨v.b, v.c, v.d, v.a⟩

theorem group_standard {i : Nat} (bound : i < 64) (b c d : BitVec 32) :
    (standard i).kind.expr b c d = auxiliary (i / 16) b c d := by
  rw [expr_eq]
  congr 1
  revert i
  decide

theorem sum_comm (x y z : BitVec 32) : x + y + z = x + z + y := by ac_rfl

theorem exec_standard (block : List UInt8) (v : State) {i : Nat} (bound : i < 64) :
    rotated (i + 1) ((standard i).exec (loadSchedule block) v) = step (words block) (rotated i v) i := by
  have expr := group_standard bound
  have turn (x : BitVec 32) : rotl32 x (shift i) = x.rotateLeft (shift i) := rotl32_eq x (shift_lt bound)
  have next : (i + 1) % 4 = (i % 4 + 1) % 4 := by omega
  obtain here | here | here | here : i % 4 = 0 ∨ i % 4 = 1 ∨ i % 4 = 2 ∨ i % 4 = 3 := by omega
  all_goals
    simp only [standard, here] at expr ⊢
    simp only [rotated, next, here, Nat.reduceAdd, Nat.reduceMod, step, Round.exec, get, set, expr, turn,
      loadSchedule_eq]
    rw [sum_comm]

theorem foldl_standard (block : List UInt8) (v : State) (n : Nat) (bound : n ≤ 64) :
    rotated n (((List.range n).map standard).foldl (Round.exec (loadSchedule block)) v) =
      (List.range n).foldl (step (words block)) v := by
  induction n with
  | zero => rfl
  | succ n ih =>
    rw [List.range_succ, List.map_append, List.foldl_append, List.foldl_append, ← ih (by omega)]
    exact exec_standard block _ (by omega)

theorem md5Compress_eq : md5Compress = compress := by
  funext s block
  rw [md5Compress, compress, rounds_standard, ← foldl_standard block s 64 (Nat.le_refl 64)]
  rfl

end Rounds

/-! The assembly of a round leaves in the variables what the C round does, whatever the
two scratch registers hold. -/
section Assembly

theorem get_set (v : State) (x y : Var) (value : BitVec 32) :
    get (set v x value) y = if y = x then value else get v y := by
  cases x <;> cases y <;> rfl

theorem set_set (v : State) (x : Var) (first second : BitVec 32) : set (set v x first) x second = set v x second := by
  cases x <;> rfl

/-- The variable that a round assigns is none of those it reads beside it. -/
def Round.Separate (r : Round T) : Prop := r.b ≠ r.a ∧ r.c ≠ r.a ∧ r.d ≠ r.a

instance (r : Round T) : Decidable r.Separate := inferInstanceAs (Decidable (_ ∧ _ ∧ _))

theorem asmRounds_fit : ∀ r ∈ asmRounds, r.Separate ∧ r.s < 32 := by decide

/-- What the macros compute in `esi`. -/
def Kind.computed (kind : Kind) (b c d : BitVec 32) : BitVec 32 :=
  match kind with
  | round0 => ((c ^^^ d) &&& b) ^^^ d
  | round1 => (~~~d &&& c) ||| (d &&& b)
  | round2 => c ^^^ d ^^^ b
  | round3 => (~~~d ||| b) ^^^ c

theorem computed_eq (kind : Kind) (x y z : BitVec 32) : kind.computed x y z = kind.expr x y z := by
  ext i
  cases kind
  all_goals
    simp only [Kind.computed, Kind.expr, BitVec.getElem_xor, BitVec.getElem_and, BitVec.getElem_or,
      BitVec.getElem_not]
    cases x[i] <;> cases y[i] <;> cases z[i] <;> rfl

theorem code_v (block : List UInt8) (regs : Regs) {r : Round Int} (separate : r.Separate) :
    (r.code.foldl (Instruction.exec block) regs).v = set regs.v r.a
      ((BitVec.ofInt 32 r.t + r.kind.computed (get regs.v r.b) (get regs.v r.c) (get regs.v r.d) +
        (get regs.v r.a + words block r.k)).rotateLeft r.s + get regs.v r.b) := by
  obtain ⟨other_b, other_c, other_d⟩ := separate
  cases kind : r.kind
  all_goals simp only [Round.code, kind, List.cons_append, List.nil_append, List.foldl_cons, List.foldl_nil,
    Instruction.exec, Regs.get, Regs.set, get_set, set_set, other_b, other_c, other_d, if_true, if_false,
    Kind.computed, words]

theorem code_exec (block : List UInt8) (regs : Regs) {r : Round Int} (separate : r.Separate) (small : r.s < 32) :
    (r.code.foldl (Instruction.exec block) regs).v = r.toWord.exec (loadSchedule block) regs.v := by
  have sum (t f a x : BitVec 32) : t + f + (a + x) = a + f + t + x := by ac_rfl
  rw [code_v block regs separate, Round.exec, rotl32_eq _ (show r.toWord.s < 32 from small), loadSchedule_eq,
    computed_eq, sum, BitVec.add_comm]
  rfl

theorem foldl_code (block : List UInt8) (regs : Regs) {list : List (Round Int)}
    (fits : ∀ r ∈ list, r.Separate ∧ r.s < 32) :
    ((list.flatMap Round.code).foldl (Instruction.exec block) regs).v =
      (list.map Round.toWord).foldl (Round.exec (loadSchedule block)) regs.v := by
  induction list generalizing regs with
  | nil => rfl
  | cons r rest ih =>
    obtain ⟨separate, small⟩ := fits r List.mem_cons_self
    rw [List.flatMap_cons, List.foldl_append, ih _ fun r inside => fits r (List.mem_cons_of_mem _ inside),
      code_exec block regs separate small]
    rfl

theorem md5CompressAsm_eq (esi edi : BitVec 32) : md5CompressAsm esi edi = md5Compress := by
  funext s block
  rw [md5CompressAsm, md5Compress, foldl_code block _ asmRounds_fit, asmRounds_eq]

end Assembly

/-! The hash function pads as the standard does, in one block or two. -/
section Padding
variable (compress : State → List UInt8 → State)

theorem lengthBytes_eq (len : Nat) : lengthBytes len = littleEndian 8 (8 * len) := by
  have low (x : Nat) : x &&& 0x1f = x % 32 := Nat.and_two_pow_sub_one_eq_mod x 5
  have byte (x : Nat) : x &&& 0xff = x % 256 := Nat.and_two_pow_sub_one_eq_mod x 8
  have same {x y : Nat} (equal : x % 256 = y % 256) : x.toUInt8 = y.toUInt8 :=
    UInt8.toNat_inj.mp (by simpa using equal)
  simp only [lengthBytes, littleEndian, List.range, List.range.loop, List.map_cons, List.map_nil, low, byte,
    Nat.shiftLeft_eq, Nat.shiftRight_eq_div_pow, List.cons.injEq, and_true]
  refine ⟨same ?_, same ?_, same ?_, same ?_, same ?_, same ?_, same ?_, same ?_⟩
  all_goals omega

theorem hashBlocks_absorb (call : Nat) (s : State) (message tail : List UInt8) :
    absorb compress s (message ++ tail) =
      absorb compress (hashBlocks (fun _ => compress) call s message).2.1
        ((hashBlocks (fun _ => compress) call s message).2.2 ++ tail) := by
  fun_induction hashBlocks (fun _ => compress) call s message with
  | case1 call s message long ih =>
    rw [← ih, ← absorb_block compress s (List.length_take_of_le long), ← List.append_assoc,
      List.take_append_drop]
  | case2 call s message short => rfl

theorem hashBlocks_rest (call : Nat) (s : State) (message : List UInt8) :
    (hashBlocks (fun _ => compress) call s message).2.2.length = message.length % 64 := by
  fun_induction hashBlocks (fun _ => compress) call s message with
  | case1 call s message long ih =>
    rw [ih, List.length_drop]
    omega
  | case2 call s message short => exact (Nat.mod_eq_of_lt (Nat.lt_of_not_le short)).symm

theorem md5Hash_eq (message : List UInt8) :
    md5Hash (fun _ => compress) message = absorb compress initial (pad message) := by
  have remainder := hashBlocks_rest compress 0 initial message
  have below := Nat.mod_lt message.length (show 0 < 64 by decide)
  have size := littleEndian_length 8 (8 * message.length)
  rw [pad, List.append_assoc, hashBlocks_absorb compress 0, md5Hash, lengthBytes_eq]
  generalize hashBlocks (fun _ => compress) 0 initial message = result at remainder ⊢
  obtain ⟨call, hash, rest⟩ := result
  dsimp only at remainder ⊢
  split
  · -- the bit closes one block, the length another
    have zeros : (119 - message.length % 64) % 64 = 63 - rest.length + 56 := by omega
    have first : (rest ++ 0x80 :: List.replicate (63 - rest.length) 0).length = 64 := by
      simp only [List.length_append, List.length_cons, List.length_replicate]
      omega
    rw [zeros, ← List.replicate_append_replicate, ← List.cons_append, List.append_assoc,
      ← List.append_assoc rest, absorb_block compress hash first, absorb_one compress _ (by simp [size])]
    rfl
  · have zeros : (119 - message.length % 64) % 64 = 55 - rest.length := by omega
    have split : 63 - rest.length = 55 - rest.length + 8 := by omega
    have front : (rest ++ 0x80 :: List.replicate (55 - rest.length) 0).length = 56 := by
      simp only [List.length_append, List.length_cons, List.length_replicate]
      omega
    rw [zeros, split, ← List.replicate_append_replicate, ← List.cons_append, ← List.append_assoc,
      List.take_left' front, ← List.append_assoc, absorb_one compress _ (by rw [List.length_append, front, size])]

end Padding

/-- The firmware's hash of a message is MD5. -/
theorem firmware_hash_md5 (message : List UInt8) : firmwareHash message = digest message := by
  rw [firmwareHash, md5Hash_eq, md5Compress_eq, digest]

/-- So is the enclave's, whatever each call finds in the scratch registers, and the two
agree. -/
theorem enclave_hash_md5 (scratch : Nat → BitVec 32 × BitVec 32) (message : List UInt8) :
    enclaveHash scratch message = digest message ∧ enclaveHash scratch message = firmwareHash message := by
  have same : (fun call => md5CompressAsm (scratch call).1 (scratch call).2) = fun _ => md5Compress :=
    funext fun call => md5CompressAsm_eq _ _
  have agree : enclaveHash scratch message = firmwareHash message := by rw [enclaveHash, same, firmwareHash]
  refine ⟨?_, agree⟩
  rw [agree, firmwareHash, md5Hash_eq, md5Compress_eq, digest]

end Aurora.Storage
