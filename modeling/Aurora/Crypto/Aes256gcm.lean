import Aurora.Lib.Aead
import Aurora.Crypto.Aes
import Aurora.Crypto.Ghash

/-! `aead_aes256gcm_aesni.c`: eight counter blocks at a time, the hash four blocks
to a reduction, and slower loops for what is left over. A pointer into a buffer
is the list of the bytes from it on. -/
namespace Aurora.Crypto
open Lib

structure Context where
  H : List UInt8
  rkeys : List M128

/-- `crypto_aead_aes256gcm_beforenm` -/
def beforenm (k : List UInt8) : Context :=
  let rkeys := aesniKey256Expand k
  ⟨aesniEncrypt1 0#128 rkeys, rkeys⟩

/-- `n2`: three words of the nonce, then the counter word. -/
def n2 (npub : List UInt8) (n3 : BitVec 32) : M128 := n3 ++ load 96 npub

/-- The mask that reverses the bytes of the counter word alone. -/
def pt : M128 := setEpi8 [12, 13, 14, 15, 11, 10, 9, 8, 7, 6, 5, 4, 3, 2, 1, 0]

/-- `MAKEN(NVx)`: each loads the counter block and increments the counter word. -/
def nvs (npub : List UInt8) : Nat → BitVec 32 → List M128
  | 0, _ => []
  | n + 1, n3 => shuffleEpi8 (n2 npub n3) pt :: nvs npub n (n3 + 1)

/-- `aesni_encrypt8`; the counter word then stands eight higher. -/
def aesniEncrypt8 (npub : List UInt8) (n3 : BitVec 32) (rkeys : List M128) : List UInt8 :=
  (nvs npub 8 n3).flatMap fun nv => storeu (encryptBlock rkeys nv)

/-- `temp0` to `temp7` after `MAKE8(XORx)`. -/
def temps (npub : List UInt8) (n3 : BitVec 32) (rkeys : List M128) (input : List UInt8) : List M128 :=
  (nvs npub 8 n3).mapIdx fun a nv => encryptBlock rkeys nv ^^^ loadu (input.drop (a * 16))

/-- `Hv` and the powers of it that one aggregated reduction needs. -/
structure Powers where
  hv : M128
  h2v : M128
  h3v : M128
  h4v : M128

def powers (H : List UInt8) : Powers :=
  let hv := shuffleEpi8 (loadu H) rev
  let h2v := mulv hv hv
  let h3v := mulv h2v hv
  ⟨hv, h2v, h3v, mulv h3v hv⟩

/-- The two `MULREDUCE4` over eight registers. -/
def mulreduce8 (p : Powers) (x : List M128) (accv : M128) : M128 :=
  let accv := mulreduce4 p.hv p.h2v p.h3v p.h4v (x.getD 3 0#128) (x.getD 2 0#128) (x.getD 1 0#128)
    (x.getD 0 0#128) accv
  mulreduce4 p.hv p.h2v p.h3v p.h4v (x.getD 7 0#128) (x.getD 6 0#128) (x.getD 5 0#128) (x.getD 4 0#128) accv

/-- `aesni_encrypt8full`: what it stores, and the accumulator. -/
def aesniEncrypt8full (npub : List UInt8) (n3 : BitVec 32) (rkeys : List M128) (input : List UInt8)
    (accum : M128) (p : Powers) : List UInt8 × M128 :=
  let temp := temps npub n3 rkeys input
  (temp.flatMap storeu, mulreduce8 p temp accum)

def aesniAddmul8full (input : List UInt8) (accum : M128) (p : Powers) : M128 :=
  mulreduce8 p ((List.range 8).map fun a => loadu (input.drop (a * 16))) accum

def aesniDecrypt8full (npub : List UInt8) (n3 : BitVec 32) (rkeys : List M128) (input : List UInt8) :
    List UInt8 :=
  (temps npub n3 rkeys input).flatMap storeu

/-- The associated data 64 bytes at a time, `count` times. -/
def loopAd (p : Powers) : Nat → List UInt8 → M128 → M128
  | 0, _, accv => accv
  | count + 1, ad, accv =>
    loopAd p count (ad.drop 64) (mulreduce4 p.hv p.h2v p.h3v p.h4v (loadu (ad.drop 48))
      (loadu (ad.drop 32)) (loadu (ad.drop 16)) (loadu ad) accv)

/-- A remainder loop of `addmul`; `length` is the block length its test settles on. -/
def loopAddmul (length : Nat → Nat) (H : M128) (rest : List UInt8) (accum : M128) : M128 :=
  if rest = [] then accum
  else loopAddmul length H (rest.drop 16) (addmul accum rest (length rest.length) H)
termination_by rest.length
decreasing_by
  rename_i nonempty
  have := List.length_pos_iff.mpr nonempty
  rw [List.length_drop]
  omega

/-- `if (i + blocklen > adlen) blocklen = adlen - i` -/
def blocklen (left : Nat) : Nat := if 16 > left then left else 16

/-- `if (j + bl >= mj) bl = mj - j` -/
def bl (left : Nat) : Nat := if 16 ≥ left then left else 16

/-- Full 128-byte chunks: `LOOPRND128`. The stored bytes, the counter word and the accumulator. -/
def loopRnd128 (npub : List UInt8) (rkeys : List M128) (p : Powers) :
    Nat → List UInt8 → BitVec 32 → M128 → List UInt8 × BitVec 32 × M128
  | 0, _, n3, accum => ([], n3, accum)
  | count + 1, m, n3, accum =>
    let (c, accum) := aesniEncrypt8full npub n3 rkeys m accum p
    let (more, n3, accum) := loopRnd128 npub rkeys p count (m.drop 128) (n3 + 8) accum
    (c ++ more, n3, accum)

/-- `if ((i + mj) >= mlen) mj = mlen - i` -/
def mj (left : Nat) : Nat := if 128 ≥ left then left else 128

/-- `LOOPRMD128` -/
def loopRmd128 (npub : List UInt8) (rkeys : List M128) (H : M128) (m : List UInt8) (n3 : BitVec 32)
    (accum : M128) : List UInt8 × M128 :=
  if m = [] then ([], accum)
  else
    let outni := aesniEncrypt8 npub n3 rkeys
    let c := xorBytes (m.take (mj m.length)) outni
    let accum := loopAddmul bl H c accum
    let (more, accum) := loopRmd128 npub rkeys H (m.drop 128) (n3 + 8) accum
    (c ++ more, accum)
termination_by m.length
decreasing_by
  rename_i nonempty
  have := List.length_pos_iff.mpr nonempty
  rw [List.length_drop]
  omega

/-- `LOOPACCUMDRND128` -/
def loopAccumdrnd128 (p : Powers) : Nat → List UInt8 → M128 → M128
  | 0, _, accum => accum
  | count + 1, c, accum => loopAccumdrnd128 p count (c.drop 128) (aesniAddmul8full c accum p)

/-- `LOOPACCUMDRMD128` -/
def loopAccumdrmd128 (H : M128) (c : List UInt8) (accum : M128) : M128 :=
  if c = [] then accum
  else loopAccumdrmd128 H (c.drop 128) (loopAddmul bl H (c.take (mj c.length)) accum)
termination_by c.length
decreasing_by
  rename_i nonempty
  have := List.length_pos_iff.mpr nonempty
  rw [List.length_drop]
  omega

/-- `LOOPDRND128` -/
def loopDrnd128 (npub : List UInt8) (rkeys : List M128) :
    Nat → List UInt8 → BitVec 32 → List UInt8 × BitVec 32
  | 0, _, n3 => ([], n3)
  | count + 1, c, n3 =>
    let (more, last) := loopDrnd128 npub rkeys count (c.drop 128) (n3 + 8)
    (aesniDecrypt8full npub n3 rkeys c ++ more, last)

/-- `LOOPDRMD128` -/
def loopDrmd128 (npub : List UInt8) (rkeys : List M128) (c : List UInt8) (n3 : BitVec 32) : List UInt8 :=
  if c = [] then []
  else xorBytes (c.take (mj c.length)) (aesniEncrypt8 npub n3 rkeys) ++
    loopDrmd128 npub rkeys (c.drop 128) (n3 + 8)
termination_by c.length
decreasing_by
  rename_i nonempty
  have := List.length_pos_iff.mpr nonempty
  rw [List.length_drop]
  omega

def bswap64 (x : BitVec 64) : BitVec 64 := load 64 (bytes 8 x).reverse

/-- The bit lengths, each swapped and copied into its half of `fb`. -/
def fb (adlen mlen : Nat) : List UInt8 :=
  bytes 8 (bswap64 (BitVec.ofNat 64 (8 * adlen))) ++ bytes 8 (bswap64 (BitVec.ofNat 64 (8 * mlen)))

/-- The associated data: both loops from a cleared accumulator. -/
def hashAd (p : Powers) (ad : List UInt8) : M128 :=
  loopAddmul blocklen p.hv (ad.drop (ad.length / 64 * 64)) (loopAd p (ad.length / 64) ad 0#128)

/-- `T[i] ^ accum[15 - i]` -/
def mac (T : List UInt8) (accum : M128) : List UInt8 :=
  (List.range 16).map fun i => T.getD i 0 ^^^ (storeu accum).getD (15 - i) 0

/-- `crypto_aead_aes256gcm_MESSAGEBYTES_MAX`; `sizeMax` is the largest `size_t`. -/
def messagebytesMax (sizeMax : Nat) : Nat := min (sizeMax - 16) (16 * ((1 <<< 32) - 2) - 16)

/-- `crypto_aead_aes256gcm_encrypt_detached_afternm` past its length check: the
ciphertext and the tag. -/
def encryptDetachedAfternm (m ad npub : List UInt8) (ctx : Context) : List UInt8 × List UInt8 :=
  let T := aesniEncrypt1 (n2 npub 0x01000000#32) ctx.rkeys
  let p := powers ctx.H
  let accum := hashAd p ad
  let n3 := (0x01000000#32 &&& 0x00ffffff#32) + 2#32
  let (c, n3, accum) := loopRnd128 npub ctx.rkeys p (m.length / 128) m n3 accum
  let (rest, accum) := loopRmd128 npub ctx.rkeys p.hv (m.drop (m.length / 128 * 128)) n3 accum
  let accum := addmul accum (fb ad.length m.length) 16 p.hv
  (c ++ rest, mac T accum)

/-- `d |= mac[i] ^ (T[i] ^ accum[15 - i])` over the sixteen bytes. -/
def difference (given computed : List UInt8) : UInt8 :=
  (List.range 16).foldl (fun d i => d ||| (given.getD i 0 ^^^ computed.getD i 0)) 0

/-- `crypto_aead_aes256gcm_decrypt_detached_afternm` past its length check: the return
value, and the `mlen` bytes written at `m` unless it is null. -/
def decryptDetachedAfternm (c given ad npub : List UInt8) (ctx : Context) (present : Bool) :
    Int × Option (List UInt8) :=
  let T := aesniEncrypt1 (n2 npub 0x01000000#32) ctx.rkeys
  let p := powers ctx.H
  let accum := hashAd p ad
  let accum := loopAccumdrnd128 p (c.length / 128) c accum
  let accum := loopAccumdrmd128 p.hv (c.drop (c.length / 128 * 128)) accum
  let accum := addmul accum (fb ad.length c.length) 16 p.hv
  if difference given (mac T accum) ≠ 0 then
    (-1, if present then some (List.replicate c.length 0) else none)
  else if present = false then (0, none)
  else
    let (m, n3) := loopDrnd128 npub ctx.rkeys (c.length / 128) c (0#32 + 2#32)
    (0, some (m ++ loopDrmd128 npub ctx.rkeys (c.drop (c.length / 128 * 128)) n3))

/-- `crypto_aead_aes256gcm_encrypt`: the packet, or none where `sodium_misuse` aborts. -/
def encrypt (sizeMax : Nat) (m ad npub k : List UInt8) : Option (List UInt8) :=
  if m.length > messagebytesMax sizeMax then none
  else
    let (c, tag) := encryptDetachedAfternm m ad npub (beforenm k)
    some (c ++ tag)

structure Decrypted where
  ret : Int
  /-- The bytes written at `m`, if any. -/
  m : Option (List UInt8)
  mlen : Nat
deriving DecidableEq, Repr

/-- `crypto_aead_aes256gcm_decrypt`, with `m` not null; none where `sodium_misuse` aborts. -/
def decrypt (sizeMax : Nat) (c ad npub k : List UInt8) : Option Decrypted :=
  if c.length ≥ 16 then
    if c.length - 16 > messagebytesMax sizeMax then none
    else
      let (ret, m) := decryptDetachedAfternm (c.take (c.length - 16)) (c.drop (c.length - 16)) ad npub
        (beforenm k) true
      some ⟨ret, m, if ret = 0 then c.length - 16 else 0⟩
  else some ⟨-1, none, 0⟩

end Aurora.Crypto
