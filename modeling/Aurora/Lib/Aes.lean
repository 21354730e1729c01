import Aurora.Lib.Bytes
import Aurora.Lib.Gcm

/-! AES with a 256-bit key as the standard defines it: the byte field, the state
transformations and the key schedule by words. A word holds its first byte lowest. -/
namespace Lib.Aes

def xtime (a : UInt8) : UInt8 := (a <<< 1) ^^^ if a ≥ 0x80 then 0x1b else 0

/-- The product of the field of bytes; `k` bits of `b` remain. -/
def gmulBits : Nat → UInt8 → UInt8 → UInt8
  | 0, _, _ => 0
  | k + 1, a, b => (if b % 2 = 1 then a else 0) ^^^ gmulBits k (xtime a) (b >>> 1)

def gmul (a b : UInt8) : UInt8 := gmulBits 8 a b

/-- `a ^ 254`: the inverse, and zero for zero. -/
def inverse (a : UInt8) : UInt8 :=
  let a2 := gmul a a
  let a4 := gmul a2 a2
  let a8 := gmul a4 a4
  let a16 := gmul a8 a8
  let a32 := gmul a16 a16
  let a64 := gmul a32 a32
  let a128 := gmul a64 a64
  gmul a2 (gmul a4 (gmul a8 (gmul a16 (gmul a32 (gmul a64 a128)))))

def rotl (a : UInt8) (k : UInt8) : UInt8 := (a <<< k) ||| (a >>> (8 - k))

def sbox (a : UInt8) : UInt8 :=
  let b := inverse a
  b ^^^ rotl b 1 ^^^ rotl b 2 ^^^ rotl b 3 ^^^ rotl b 4 ^^^ 0x63

/-! The state is sixteen bytes, column by column. -/

def subBytes (s : List UInt8) : List UInt8 := s.map sbox

def shiftRows (s : List UInt8) : List UInt8 := (List.range 16).map fun i => s.getD ((i + 4 * (i % 4)) % 16) 0

/-- Row `i % 4` of column `i / 4`: the coefficients 2, 3, 1, 1 from this row on. -/
def mixColumns (s : List UInt8) : List UInt8 := (List.range 16).map fun i =>
  let row := fun k => s.getD (i / 4 * 4 + (i + k) % 4) 0
  gmul (row 0) 2 ^^^ gmul (row 1) 3 ^^^ row 2 ^^^ row 3

def subWord (w : BitVec 32) : BitVec 32 := load 32 ((bytes 4 w).map sbox)

def rotWord (w : BitVec 32) : BitVec 32 := w.rotateRight 8

/-- `rcon j` is the power `j - 1` of the field's generator, in the first byte. -/
def rcon (j : Nat) : BitVec 32 := BitVec.ofNat 32 ((xtime^[j - 1] 1).toNat)

/-- Word `i` of the expanded key. -/
def schedule (key : List UInt8) (i : Nat) : BitVec 32 :=
  if i < 8 then load 32 ((key.drop (4 * i)).take 4)
  else
    let temp := schedule key (i - 1)
    schedule key (i - 8) ^^^
      if i % 8 = 0 then subWord (rotWord temp) ^^^ rcon (i / 8)
      else if i % 8 = 4 then subWord temp else temp
termination_by i
decreasing_by all_goals omega

/-- The sixteen bytes of round key `j`. -/
def roundKey (key : List UInt8) (j : Nat) : List UInt8 :=
  (List.range 4).flatMap fun k => bytes 4 (schedule key (4 * j + k))

def addRoundKey (key : List UInt8) (j : Nat) (s : List UInt8) : List UInt8 := xorBytes s (roundKey key j)

/-- Rounds `1` to `j` after the first key addition. -/
def rounds (key : List UInt8) (s : List UInt8) : Nat → List UInt8
  | 0 => addRoundKey key 0 s
  | j + 1 => addRoundKey key (j + 1) (mixColumns (shiftRows (subBytes (rounds key s j))))

def cipher (key : List UInt8) (s : List UInt8) : List UInt8 :=
  addRoundKey key 14 (shiftRows (subBytes (rounds key s 13)))

@[simp] theorem shiftRows_length (s : List UInt8) : (shiftRows s).length = 16 := by
  simp [shiftRows]

@[simp] theorem mixColumns_length (s : List UInt8) : (mixColumns s).length = 16 := by
  simp [mixColumns]

@[simp] theorem roundKey_length (key : List UInt8) (j : Nat) : (roundKey key j).length = 16 := by
  simp [roundKey, List.length_flatMap]

theorem cipher_length (key s : List UInt8) : (cipher key s).length = 16 := by
  simp [cipher, addRoundKey, xorBytes_length, subBytes]

/-- The keyed permutation the counter mode runs. -/
def aes256 (key : List UInt8) : Gcm.Cipher := ⟨cipher key, cipher_length key⟩

end Lib.Aes
