import Aurora.Crypto.Aes256gcm

/-! The cipher code computes the standard's mode: each loop handles its stretch of
the counter stream and of the hashed blocks, and the stretches meet. -/
namespace Aurora.Crypto
open Lib Lib.Aes Lib.Gcm

/-- The twelve bytes `memcpy` takes from the nonce. -/
def nonce12 (npub : List UInt8) : List UInt8 := bytes 12 (load 96 npub)

theorem nonce12_eq {npub : List UInt8} (whole : npub.length = 12) : nonce12 npub = npub := by
  rw [nonce12, ← whole, bytes_load (by omega)]

section Counter
variable (npub : List UInt8) (n3 : BitVec 32)

theorem byteAt_n2 {i : Nat} (small : i < 16) :
    byteAt (n2 npub n3) i = if i < 12 then byteAt (load 96 npub) i else byteAt n3 (i - 12) := by
  apply UInt8.toBitVec_inj.mp
  apply BitVec.eq_of_getLsbD_eq
  intro b inside
  rw [getLsbD_byteAt _ _ inside, n2, BitVec.getLsbD_append]
  split
  · rename_i low
    rw [if_pos (by omega), getLsbD_byteAt _ _ inside]
  · rename_i high
    rw [if_neg (by omega), getLsbD_byteAt _ _ inside, show 8 * (i - 12) + b = 8 * i + b - 96 by omega]

/-- The stored counter block is the nonce and the counter, most significant byte first. -/
theorem storeu_shuffleEpi8_pt : storeu (shuffleEpi8 (n2 npub n3) pt) = nonce12 npub ++ be32 n3 := by
  have mask : ∀ i < 16, (byteAt pt i).toNat = if i < 12 then i else 27 - i := by decide
  have picked : shuffleEpi8 (n2 npub n3) pt = load 128 ((List.range 16).map fun i =>
      byteAt (n2 npub n3) (if i < 12 then i else 27 - i)) := by
    refine congrArg (load 128) (List.map_congr_left fun i member => ?_)
    have small := List.mem_range.mp member
    rw [mask i small, if_neg (by split <;> omega), Nat.mod_eq_of_lt (by split <;> omega)]
  rw [picked, storeu, show bytes 16 (load 128 ((List.range 16).map fun i =>
    byteAt (n2 npub n3) (if i < 12 then i else 27 - i))) = _ from bytes_load (by simp)]
  simp [nonce12, be32, bytes, List.range_succ, byteAt_n2]

theorem storeu_n2_one : storeu (n2 npub 0x01000000#32) = nonce12 npub ++ be32 1 := by
  have counter : be32 1 = bytes 4 0x01000000#32 := by decide
  rw [counter]
  simp [storeu, nonce12, bytes, List.range_succ, byteAt_n2]

end Counter

section Stream
variable (k npub : List UInt8)

theorem flatMap_nvs (n : Nat) (n3 : BitVec 32) :
    (nvs npub n n3).flatMap (fun nv => storeu (encryptBlock (aesniKey256Expand k) nv)) =
      keystream (aes256 k) (nonce12 npub) n3 n := by
  induction n generalizing n3 with
  | zero => rfl
  | succ n ih =>
    rw [nvs, List.flatMap_cons, storeu_encryptBlock, storeu_shuffleEpi8_pt, ih, keystream]
    rfl

theorem aesniEncrypt8_eq (n3 : BitVec 32) :
    aesniEncrypt8 npub n3 (aesniKey256Expand k) = keystream (aes256 k) (nonce12 npub) n3 8 :=
  flatMap_nvs k npub 8 n3

theorem storeu_xor_loadu (v : M128) {input : List UInt8} (long : 16 ≤ input.length) :
    storeu (v ^^^ loadu input) = xorBytes (input.take 16) (storeu v) := by
  rw [storeu, bytes_xor, xorBytes_comm, loadu, bytes_load_take long (by decide), storeu]

theorem flatMap_temps (n : Nat) (n3 : BitVec 32) {input : List UInt8} (long : 16 * n ≤ input.length) :
    ((nvs npub n n3).mapIdx fun a nv =>
        encryptBlock (aesniKey256Expand k) nv ^^^ loadu (input.drop (a * 16))).flatMap storeu =
      xorBytes (input.take (16 * n)) (keystream (aes256 k) (nonce12 npub) n3 n) := by
  induction n generalizing n3 input with
  | zero => simp [nvs, keystream, xorBytes]
  | succ n ih =>
    have shorter : 16 * n ≤ (input.drop 16).length := by
      rw [List.length_drop]
      omega
    have rest := ih (n3 + 1) shorter
    have front : input.take (16 * (n + 1)) = input.take 16 ++ (input.drop 16).take (16 * n) := by
      rw [show 16 * (n + 1) = 16 + 16 * n by omega, List.take_add]
    simp only [List.drop_drop] at rest
    rw [nvs, List.mapIdx_cons, List.flatMap_cons, Nat.zero_mul, List.drop_zero,
      storeu_xor_loadu _ (by omega), storeu_encryptBlock, storeu_shuffleEpi8_pt, front, keystream,
      xorBytes_append (by rw [List.length_take, (aes256 k).run_length]; omega), ← rest]
    simp only [show ∀ i, (i + 1) * 16 = 16 + i * 16 by intro i; omega]
    rfl

theorem temps_eq (n3 : BitVec 32) {input : List UInt8} (long : 128 ≤ input.length) :
    (temps npub n3 (aesniKey256Expand k) input).flatMap storeu =
      gctr (aes256 k) (nonce12 npub) n3 (input.take 128) := by
  rw [gctr_eq _ _ (k := 8) (by rw [List.length_take]; omega)]
  exact flatMap_temps k npub 8 n3 long

end Stream

section Hash

theorem shuffleEpi8_block (v : M128) : shuffleEpi8 v rev = block (storeu v) := by
  rw [← shuffleEpi8_rev, loadu, storeu, load_bytes v (by decide)]

theorem blocks_flatMap_storeu (registers : List M128) :
    blocks (registers.flatMap storeu) = registers.map fun v => shuffleEpi8 v rev := by
  induction registers with
  | nil => exact blocks_nil
  | cons v rest ih =>
    have one : blocks (storeu v) = [block (storeu v)] := by
      rw [blocks_step (by simp [storeu]), List.drop_eq_nil_of_le (by simp [storeu]), blocks_nil]
    rw [List.flatMap_cons, blocks_append _ (n := 1) (by simp [storeu]), one, ih, List.map_cons,
      shuffleEpi8_block, List.singleton_append]

variable (H : List UInt8)

theorem powers_hv : (powers H).hv = block H := shuffleEpi8_rev H

theorem powers_mulreduce4 (X0 X1 X2 X3 accv : M128) :
    mulreduce4 (powers H).hv (powers H).h2v (powers H).h3v (powers H).h4v X0 X1 X2 X3 accv =
      ghash (block H) accv [shuffleEpi8 X3 rev, shuffleEpi8 X2 rev, shuffleEpi8 X1 rev, shuffleEpi8 X0 rev] := by
  rw [← powers_hv]
  exact mulreduce4_eq_ghash (powers H).hv X0 X1 X2 X3 accv

theorem mulreduce8_eq {registers : List M128} (eight : registers.length = 8) (accv : M128) :
    mulreduce8 (powers H) registers accv = ghash (block H) accv (blocks (registers.flatMap storeu)) := by
  match registers, eight with
  | [x0, x1, x2, x3, x4, x5, x6, x7], _ =>
    rw [blocks_flatMap_storeu, mulreduce8, powers_mulreduce4, powers_mulreduce4, ← ghash_append]
    rfl

/-- Both remainder loops take the whole of what is left, sixteen bytes at a time. -/
theorem loopAddmul_eq {length : Nat → Nat} (least : ∀ left, length left = min 16 left) (h : M128)
    (rest : List UInt8) (accum : M128) : loopAddmul length h rest accum = ghash h accum (blocks rest) := by
  fun_induction loopAddmul length h rest accum with
  | case1 accum => rw [blocks_nil]; rfl
  | case2 rest accum nonempty ih =>
    rw [ih, blocks_step (List.length_pos_iff.mpr nonempty), ghash_cons, addmul_eq _ _ _ _ (least _)]

theorem blocklen_eq (left : Nat) : blocklen left = min 16 left := by
  unfold blocklen
  split <;> omega

theorem bl_eq (left : Nat) : bl left = min 16 left := by
  unfold bl
  split <;> omega

theorem mj_eq (left : Nat) : mj left = min 128 left := by
  unfold mj
  split <;> omega

theorem loopAd_eq {count : Nat} {ad : List UInt8} (long : 64 * count ≤ ad.length) (accv : M128) :
    ghash (block H) (loopAd (powers H) count ad accv) (blocks (ad.drop (64 * count))) =
      ghash (block H) accv (blocks ad) := by
  induction count generalizing ad accv with
  | zero => rfl
  | succ count ih =>
    have four : blocks ad = block ad :: block (ad.drop 16) :: block (ad.drop 32) :: block (ad.drop 48) ::
        blocks (ad.drop 64) := by
      rw [blocks_step (by omega), blocks_step (by rw [List.length_drop]; omega), List.drop_drop,
        blocks_step (by rw [List.length_drop]; omega), List.drop_drop,
        blocks_step (by rw [List.length_drop]; omega), List.drop_drop]
    have shorter : 64 * count ≤ (ad.drop 64).length := by
      rw [List.length_drop]
      omega
    have rest := ih shorter
      (mulreduce4 (powers H).hv (powers H).h2v (powers H).h3v (powers H).h4v (loadu (ad.drop 48))
        (loadu (ad.drop 32)) (loadu (ad.drop 16)) (loadu ad) accv)
    rw [List.drop_drop, show 64 + 64 * count = 64 * (count + 1) by omega] at rest
    rw [loopAd, rest, powers_mulreduce4, four]
    simp only [shuffleEpi8_rev]
    rfl

theorem hashAd_eq (ad : List UInt8) : hashAd (powers H) ad = ghash (block H) 0#128 (blocks ad) := by
  rw [hashAd, loopAddmul_eq blocklen_eq, powers_hv, Nat.mul_comm, loopAd_eq H (by omega)]

theorem aesniAddmul8full_eq {input : List UInt8} (long : 128 ≤ input.length) (accum : M128) :
    aesniAddmul8full input accum (powers H) = ghash (block H) accum (blocks (input.take 128)) := by
  have loads (n : Nat) (input : List UInt8) (enough : 16 * n ≤ input.length) :
      ((List.range n).map fun a => loadu (input.drop (a * 16))).flatMap storeu = input.take (16 * n) := by
    induction n with
    | zero => simp
    | succ n ih =>
      rw [List.range_succ, List.map_append, List.flatMap_append, ih (by omega)]
      simp only [List.map_cons, List.map_nil, List.flatMap_cons, List.flatMap_nil, List.append_nil]
      rw [storeu, loadu, bytes_load_take (by rw [List.length_drop]; omega) (by decide), Nat.mul_comm n 16,
        ← List.take_add]
      rfl
  rw [aesniAddmul8full, mulreduce8_eq H (by simp), loads 8 input long]

end Hash

section Loops
variable (k npub : List UInt8)

theorem gctr_chunks (n3 : BitVec 32) (m : List UInt8) (count : Nat) :
    gctr (aes256 k) (nonce12 npub) n3 (m.take (128 * (count + 1))) =
      gctr (aes256 k) (nonce12 npub) n3 (m.take 128) ++
        gctr (aes256 k) (nonce12 npub) (n3 + 8) ((m.drop 128).take (128 * count)) := by
  rw [gctr_take_drop _ _ n3 _ 8, List.take_take, List.drop_take, Nat.min_eq_left (by omega),
    show 128 * (count + 1) - 16 * 8 = 128 * count by omega]
  rfl

theorem counter_chunks (n3 : BitVec 32) (count : Nat) :
    n3 + 8 + BitVec.ofNat 32 (8 * count) = n3 + BitVec.ofNat 32 (8 * (count + 1)) := by
  rw [Nat.mul_succ, BitVec.ofNat_add, BitVec.add_assoc, BitVec.add_comm 8]
  rfl

theorem loopRnd128_eq (H : List UInt8) {count : Nat} {m : List UInt8} (long : 128 * count ≤ m.length)
    (n3 : BitVec 32) (accum : M128) :
    loopRnd128 npub (aesniKey256Expand k) (powers H) count m n3 accum =
      (gctr (aes256 k) (nonce12 npub) n3 (m.take (128 * count)), n3 + BitVec.ofNat 32 (8 * count),
        ghash (block H) accum (blocks (gctr (aes256 k) (nonce12 npub) n3 (m.take (128 * count))))) := by
  induction count generalizing m n3 accum with
  | zero => simp [loopRnd128, gctr_nil, blocks_nil, ghash]
  | succ count ih =>
    have stored := temps_eq k npub n3 (show 128 ≤ m.length by omega)
    rw [loopRnd128, gctr_chunks k npub n3 m count,
      blocks_append _ (n := 8) (by rw [gctr_length, List.length_take]; omega), ghash_append]
    simp only [aesniEncrypt8full]
    rw [mulreduce8_eq H (by simp [temps, nvs]), stored, ih (by rw [List.length_drop]; omega),
      counter_chunks]

/-- One turn of a remainder loop covers up to 128 bytes of the stream. -/
theorem xorBytes_aesniEncrypt8 (m : List UInt8) (n3 : BitVec 32) :
    xorBytes (m.take (mj m.length)) (aesniEncrypt8 npub n3 (aesniKey256Expand k)) =
      gctr (aes256 k) (nonce12 npub) n3 (m.take 128) := by
  have same : m.take (mj m.length) = m.take 128 := by
    rw [mj_eq]
    exact (List.take_eq_take_min ..).symm
  rw [same, aesniEncrypt8_eq, gctr_eq _ _ (k := 8) (by rw [List.length_take]; omega)]

theorem loopRmd128_eq (h : M128) (m : List UInt8) (n3 : BitVec 32) (accum : M128) :
    loopRmd128 npub (aesniKey256Expand k) h m n3 accum =
      (gctr (aes256 k) (nonce12 npub) n3 m, ghash h accum (blocks (gctr (aes256 k) (nonce12 npub) n3 m))) := by
  fun_induction loopRmd128 npub (aesniKey256Expand k) h m n3 accum with
  | case1 n3 accum => simp [gctr_nil, blocks_nil, ghash]
  | case2 m n3 accum nonempty outni c accum' more accum'' eq ih =>
    obtain ⟨rest, final⟩ := Prod.mk.inj (eq.symm.trans ih)
    have chunk : c = gctr (aes256 k) (nonce12 npub) n3 (m.take 128) := xorBytes_aesniEncrypt8 k npub m n3
    have whole := gctr_take_drop (aes256 k) (nonce12 npub) n3 m 8
    have hashed := blocks_gctr (aes256 k) (nonce12 npub) n3 m 8
    rw [rest, final, show accum' = _ from loopAddmul_eq bl_eq h c accum, ← ghash_append, chunk]
    exact Prod.ext whole.symm (congrArg (ghash h accum) hashed.symm)

theorem loopAccumdrnd128_eq (H : List UInt8) {count : Nat} {c : List UInt8} (long : 128 * count ≤ c.length)
    (accum : M128) : loopAccumdrnd128 (powers H) count c accum =
      ghash (block H) accum (blocks (c.take (128 * count))) := by
  induction count generalizing c accum with
  | zero => simp [loopAccumdrnd128, blocks_nil, ghash]
  | succ count ih =>
    rw [loopAccumdrnd128, ih (by rw [List.length_drop]; omega), aesniAddmul8full_eq H (by omega),
      ← ghash_append, ← blocks_append _ (n := 8) (by rw [List.length_take]; omega), ← List.take_add,
      Nat.mul_succ, Nat.add_comm]

theorem loopAccumdrmd128_eq (h : M128) (c : List UInt8) (accum : M128) :
    loopAccumdrmd128 h c accum = ghash h accum (blocks c) := by
  fun_induction loopAccumdrmd128 h c accum with
  | case1 accum => simp [blocks_nil, ghash]
  | case2 c accum nonempty ih =>
    rw [ih, loopAddmul_eq bl_eq, ← ghash_append, mj_eq, ← List.take_eq_take_min]
    exact congrArg _ (blocks_take_drop c 8).symm

theorem loopDrnd128_eq {count : Nat} {c : List UInt8} (long : 128 * count ≤ c.length) (n3 : BitVec 32) :
    loopDrnd128 npub (aesniKey256Expand k) count c n3 =
      (gctr (aes256 k) (nonce12 npub) n3 (c.take (128 * count)), n3 + BitVec.ofNat 32 (8 * count)) := by
  induction count generalizing c n3 with
  | zero => simp [loopDrnd128, gctr_nil]
  | succ count ih =>
    rw [loopDrnd128, ih (by rw [List.length_drop]; omega), gctr_chunks k npub n3 c count,
      counter_chunks n3 count, aesniDecrypt8full, temps_eq k npub n3 (by omega)]

theorem loopDrmd128_eq (c : List UInt8) (n3 : BitVec 32) :
    loopDrmd128 npub (aesniKey256Expand k) c n3 = gctr (aes256 k) (nonce12 npub) n3 c := by
  fun_induction loopDrmd128 npub (aesniKey256Expand k) c n3 with
  | case1 n3 => rw [gctr_nil]
  | case2 c n3 nonempty ih =>
    rw [ih, xorBytes_aesniEncrypt8]
    exact (gctr_take_drop _ _ n3 c 8).symm

end Loops

section Packets
variable (k npub : List UInt8)

theorem beforenm_H : (beforenm k).H = (aes256 k).run (List.replicate 16 0) := by
  have zero : storeu 0#128 = List.replicate 16 0 := by decide
  rw [← zero]
  exact storeu_encryptBlock k 0#128

theorem aesniEncrypt1_n2 : aesniEncrypt1 (n2 npub 0x01000000#32) (aesniKey256Expand k) =
    (aes256 k).run (nonce12 npub ++ be32 1) := by
  rw [aesniEncrypt1, storeu_encryptBlock, storeu_n2_one]
  rfl

theorem mac_eq {T : List UInt8} (whole : T.length = 16) (accum : M128) :
    mac T accum = xorBytes T (unblock accum) := by
  apply List.ext_getElem
  · simp [mac, xorBytes_length, unblock, whole]
  · intro i _ inside
    have small : i < 16 := by simpa [xorBytes_length, unblock, whole] using inside
    simp [mac, xorBytes, unblock, storeu, List.getD, whole, small, bytes,
      List.getElem?_range (show 15 - i < 16 by omega)]

theorem fb_eq (ad c : List UInt8) : fb ad.length c.length = lengths ad c := by
  have swapped (x : BitVec 64) : bytes 8 (bswap64 x) = (bytes 8 x).reverse := by
    rw [bswap64, bytes_load_take (by simp) (by decide), List.take_of_length_le (by simp)]
  rw [fb, swapped, swapped]
  rfl

/-- The accumulator after both parts and the lengths gives the standard's tag. -/
theorem mac_hashed (ad c : List UInt8) :
    mac (aesniEncrypt1 (n2 npub 0x01000000#32) (aesniKey256Expand k))
      (addmul (ghash (block (beforenm k).H) 0#128 (blocks ad ++ blocks c)) (fb ad.length c.length) 16
        (block (beforenm k).H)) = tag (aes256 k) (nonce12 npub) ad c := by
  rw [aesniEncrypt1_n2, mac_eq ((aes256 k).run_length _), fb_eq, addmul_eq _ _ _ _ (by simp [lengths, be64]),
    tag, hashed, ghash_append _ _ (blocks ad ++ blocks c), ghash_cons, ghash_nil,
    beforenm_H]

theorem encryptDetachedAfternm_eq (m ad : List UInt8) : encryptDetachedAfternm m ad npub (beforenm k) =
    (gctr (aes256 k) (nonce12 npub) 2 m, tag (aes256 k) (nonce12 npub) ad (gctr (aes256 k) (nonce12 npub) 2 m)) := by
  have start : (0x01000000#32 &&& 0x00ffffff#32) + 2#32 = 2 := by decide
  have parts := gctr_take_drop (aes256 k) (nonce12 npub) 2 m (8 * (m.length / 128))
  have hashed := blocks_gctr (aes256 k) (nonce12 npub) 2 m (8 * (m.length / 128))
  have tagged := mac_hashed k npub ad (gctr (aes256 k) (nonce12 npub) 2 m)
  rw [show 16 * (8 * (m.length / 128)) = 128 * (m.length / 128) by omega] at parts hashed
  rw [hashed, ghash_append, ghash_append, gctr_length] at tagged
  simp only [encryptDetachedAfternm, start, hashAd_eq, powers_hv]
  rw [show (beforenm k).rkeys = aesniKey256Expand k from rfl, loopRnd128_eq k npub _ (by omega)]
  simp only [loopRmd128_eq, Nat.mul_comm (m.length / 128) 128]
  rw [tagged, ← parts]

/-- Sixteen differences without a set bit are sixteen equal bytes. -/
theorem difference_eq_zero {given computed : List UInt8} (left : given.length = 16) (right : computed.length = 16) :
    difference given computed = 0 ↔ given = computed := by
  have folded (indices : List Nat) (d : UInt8) :
      indices.foldl (fun d i => d ||| (given.getD i 0 ^^^ computed.getD i 0)) d = 0 ↔
        d = 0 ∧ ∀ i ∈ indices, given.getD i 0 = computed.getD i 0 := by
    induction indices generalizing d with
    | nil => simp
    | cons i rest ih =>
      rw [List.foldl_cons, ih, UInt8.or_eq_zero_iff, UInt8.xor_eq_zero_iff, List.forall_mem_cons, and_assoc]
  rw [difference, folded]
  constructor
  · rintro ⟨-, same⟩
    apply List.ext_getElem (left.trans right.symm)
    intro i inside bound
    have byte := same i (List.mem_range.mpr (by omega))
    rwa [← List.getElem_eq_getD 0, ← List.getElem_eq_getD 0] at byte
  · rintro rfl
    exact ⟨rfl, fun _ _ => rfl⟩

theorem decryptDetachedAfternm_eq (c given ad : List UInt8) (whole : given.length = 16) :
    decryptDetachedAfternm c given ad npub (beforenm k) true =
      if given = tag (aes256 k) (nonce12 npub) ad c then (0, some (gctr (aes256 k) (nonce12 npub) 2 c))
      else (-1, some (List.replicate c.length 0)) := by
  have hashed := blocks_take_drop c (8 * (c.length / 128))
  have parts := gctr_take_drop (aes256 k) (nonce12 npub) 2 c (8 * (c.length / 128))
  have tagged := mac_hashed k npub ad c
  rw [show 16 * (8 * (c.length / 128)) = 128 * (c.length / 128) by omega] at parts hashed
  rw [hashed, ghash_append, ghash_append] at tagged
  simp only [decryptDetachedAfternm, hashAd_eq, powers_hv, Bool.true_eq_false, if_false, if_true,
    Nat.mul_comm (c.length / 128) 128]
  rw [show (beforenm k).rkeys = aesniKey256Expand k from rfl, loopAccumdrnd128_eq _ (by omega),
    loopAccumdrmd128_eq, tagged, loopDrnd128_eq k npub (by omega)]
  simp only [loopDrmd128_eq, ne_eq, difference_eq_zero whole (tag_length ..), ite_not]
  split
  · rw [parts]
    rfl
  · rfl


/-- Test data: that many different bytes. -/
def counting (n : Nat) : List UInt8 := (List.range n).map UInt8.ofNat

theorem counting_length (n : Nat) : (counting n).length = n := by
  rw [counting, List.length_map, List.length_range]

/-- The packet of every admissible message is the standard's ciphertext and tag. -/
theorem encrypt_standard (sizeMax : Nat) {m ad npub : List UInt8} (k : List UInt8)
    (admissible : m.length ≤ messagebytesMax sizeMax) (nonce : npub.length = 12) :
    encrypt sizeMax m ad npub k = some (Gcm.encrypt (aes256 k) npub ad m) := by
  rw [encrypt, if_neg (by omega), encryptDetachedAfternm_eq, nonce12_eq nonce]
  rfl

/-- Enough data for the aggregated loops of both parts, with remainders. -/
theorem encrypt_standard_long :
    encrypt (1 <<< 32 - 1) (counting 300) (counting 100) (counting 12) (counting 32) =
      some (Gcm.encrypt (aes256 (counting 32)) (counting 12) (counting 100) (counting 300)) :=
  encrypt_standard (1 <<< 32 - 1) (counting 32) (by rw [counting_length]; decide) (counting_length 12)

theorem decrypt_eq (sizeMax : Nat) {c ad npub : List UInt8} (k : List UInt8)
    (admissible : c.length - 16 ≤ messagebytesMax sizeMax) (nonce : npub.length = 12) :
    decrypt sizeMax c ad npub k = some (match Gcm.decrypt (aes256 k) npub ad c with
      | some m => ⟨0, some m, m.length⟩
      | none => ⟨-1, if 16 ≤ c.length then some (List.replicate (c.length - 16) 0) else none, 0⟩) := by
  by_cases long : 16 ≤ c.length
  · have front : (c.take (c.length - 16)).length = c.length - 16 := by
      rw [List.length_take]
      omega
    rw [decrypt, if_pos long, if_neg (by omega),
      decryptDetachedAfternm_eq k npub _ _ _ (by rw [List.length_drop]; omega), nonce12_eq nonce, Gcm.decrypt]
    by_cases valid : c.drop (c.length - 16) = tag (aes256 k) npub ad (c.take (c.length - 16))
    · simp only [if_pos valid, if_pos (And.intro long valid), gctr_length, front, if_true]
    · simp [valid, long, front]
  · rw [decrypt, if_neg long, Gcm.decrypt, if_neg (fun h => long h.1)]
    simp [long]

/-- A sealed packet of nineteen blocks, and the same one with another tag. -/
def samplePacket : List UInt8 := Gcm.encrypt (aes256 (counting 32)) (counting 12) (counting 100) (counting 300)

def forgedPacket : List UInt8 := samplePacket.take 300 ++ (samplePacket.drop 300).map (· + 1)

theorem samplePacket_length : samplePacket.length = 316 := by
  rw [samplePacket, encrypt_length, counting_length]

theorem forgedPacket_length : forgedPacket.length = 316 := by
  rw [forgedPacket, List.length_append, List.length_map, List.length_take, List.length_drop, samplePacket_length]
  rfl

theorem forgedPacket_unsealed (m : List UInt8) :
    forgedPacket ≠ Gcm.encrypt (aes256 (counting 32)) (counting 12) (counting 100) m := by
  intro same
  have parts : samplePacket.take 300 = gctr (aes256 (counting 32)) (counting 12) 2 (counting 300) ∧
      samplePacket.drop 300 = tag (aes256 (counting 32)) (counting 12) (counting 100)
        (gctr (aes256 (counting 32)) (counting 12) 2 (counting 300)) := by
    have front : (gctr (aes256 (counting 32)) (counting 12) 2 (counting 300)).length = 300 := by
      rw [gctr_length, counting_length]
    exact ⟨List.take_left' front, List.drop_left' front⟩
  rw [forgedPacket, parts.1, parts.2, Gcm.encrypt] at same
  obtain ⟨front, last⟩ := List.append_inj' same (by rw [List.length_map, tag_length, tag_length])
  rw [← front] at last
  have whole : (tag (aes256 (counting 32)) (counting 12) (counting 100)
      (gctr (aes256 (counting 32)) (counting 12) 2 (counting 300))).length = 16 := tag_length _ _ _ _
  generalize tag (aes256 (counting 32)) _ _ _ = sealing at last whole
  cases sealing with
  | nil => cases whole
  | cons x rest => simp at last

/-- Decryption returns a message exactly for the packet that encryption makes of it.
Every other packet is refused with the length zero and, if it has room for a tag,
with the plaintext buffer cleared. -/
theorem decrypt_standard (sizeMax : Nat) {c ad npub : List UInt8} (k : List UInt8)
    (admissible : c.length - 16 ≤ messagebytesMax sizeMax) (nonce : npub.length = 12) :
    (∀ m, decrypt sizeMax c ad npub k = some ⟨0, some m, m.length⟩ ↔
      c = Gcm.encrypt (aes256 k) npub ad m) ∧
    ((∀ m, c ≠ Gcm.encrypt (aes256 k) npub ad m) → decrypt sizeMax c ad npub k =
      some ⟨-1, if 16 ≤ c.length then some (List.replicate (c.length - 16) 0) else none, 0⟩) := by
  rw [decrypt_eq sizeMax k admissible nonce]
  constructor
  · intro m
    rw [← decrypt_eq_some]
    cases Gcm.decrypt (aes256 k) npub ad c with
    | none => simp
    | some other =>
      simp only [Option.some.injEq, Decrypted.mk.injEq, true_and, and_iff_left_iff_imp]
      rintro rfl
      rfl
  · intro never
    cases opened : Gcm.decrypt (aes256 k) npub ad c with
    | none => rfl
    | some m => exact absurd ((decrypt_eq_some ..).mp opened) (never m)

theorem decrypt_standard_sealed :
    decrypt (1 <<< 32 - 1) samplePacket (counting 100) (counting 12) (counting 32) =
      some ⟨0, some (counting 300), 300⟩ ∧
    decrypt (1 <<< 32 - 1) forgedPacket (counting 100) (counting 12) (counting 32) =
      some ⟨-1, some (List.replicate 300 0), 0⟩ := by
  have opens : ∀ m, decrypt (1 <<< 32 - 1) samplePacket (counting 100) (counting 12) (counting 32) =
      some ⟨0, some m, m.length⟩ ↔ _ :=
    (decrypt_standard (1 <<< 32 - 1) (counting 32) (by rw [samplePacket_length]; decide) (counting_length 12)).1
  have refused : decrypt (1 <<< 32 - 1) forgedPacket (counting 100) (counting 12) (counting 32) = _ :=
    (decrypt_standard (1 <<< 32 - 1) (counting 32) (by rw [forgedPacket_length]; decide) (counting_length 12)).2
      forgedPacket_unsealed
  rw [forgedPacket_length, if_pos (by decide)] at refused
  have opened := (opens (counting 300)).mpr samplePacket.eq_1
  rw [counting_length] at opened
  exact ⟨opened, refused⟩

end Packets

section Interface
variable (key nonce ad : List UInt8)

/-- What a ring call gets from `crypto_aead_aes256gcm_encrypt`. -/
def sealed (message : List UInt8) : List UInt8 :=
  let (c, tag) := encryptDetachedAfternm message ad nonce (beforenm key)
  c ++ tag

/-- What a ring call gets from `crypto_aead_aes256gcm_decrypt`. -/
def unsealed (cipher : List UInt8) : Option (List UInt8) :=
  if 16 ≤ cipher.length then
    let (ret, m) := decryptDetachedAfternm (cipher.take (cipher.length - 16))
      (cipher.drop (cipher.length - 16)) ad nonce (beforenm key) true
    if ret = 0 then m else none
  else none

theorem sealed_eq (message : List UInt8) :
    sealed key nonce ad message = Gcm.encrypt (aes256 key) (nonce12 nonce) ad message := by
  rw [sealed, encryptDetachedAfternm_eq]
  rfl

theorem unsealed_eq (cipher : List UInt8) :
    unsealed key nonce ad cipher = Gcm.decrypt (aes256 key) (nonce12 nonce) ad cipher := by
  by_cases long : 16 ≤ cipher.length
  · rw [unsealed, if_pos long, decryptDetachedAfternm_eq _ _ _ _ _ (by rw [List.length_drop]; omega),
      Gcm.decrypt]
    by_cases valid : cipher.drop (cipher.length - 16) =
        tag (aes256 key) (nonce12 nonce) ad (cipher.take (cipher.length - 16))
    · simp only [if_pos valid, if_pos (And.intro long valid), if_true]
    · simp [valid]
  · rw [unsealed, if_neg long, Gcm.decrypt, if_neg (fun h => long h.1)]

end Interface

/-- The code as the interface that the ring calls are stated over; its length limit
is far above a packet. -/
def aes256gcm : Aead 16 where
  encrypt := sealed
  decrypt := unsealed
  encrypt_length := by
    intro key nonce ad message
    rw [sealed_eq, encrypt_length]
  decrypt_length := by
    intro key nonce ad cipher message opened
    rw [unsealed_eq, decrypt_eq_some] at opened
    rw [opened, encrypt_length]
  decrypt_encrypt := by
    intro key nonce ad message
    rw [unsealed_eq, sealed_eq, decrypt_eq_some]

end Aurora.Crypto
