import Aurora.Lib.Aes
import Aurora.Crypto.Sse

/-! The block cipher as the AES instructions compute it: key expansion with lane
shuffles, and fourteen rounds on one register. -/
namespace Aurora.Crypto
open Lib Lib.Aes

/-! The instructions, as the processor's manual gives them. -/

def aesenc (v roundkey : M128) : M128 := load 128 (mixColumns (subBytes (shiftRows (bytes 16 v)))) ^^^ roundkey

def aesenclast (v roundkey : M128) : M128 := load 128 (subBytes (shiftRows (bytes 16 v))) ^^^ roundkey

def aeskeygenassist (v : M128) (imm : Nat) : M128 :=
  ofLanes (rotWord (subWord (lane v 3)) ^^^ BitVec.ofNat 32 imm) (subWord (lane v 3))
    (rotWord (subWord (lane v 1)) ^^^ BitVec.ofNat 32 imm) (subWord (lane v 1))

/-- The body that `EXPAND_KEY_1` and `EXPAND_KEY_2` share: `X` is replaced, `Y` is
the register before it. The new `X` and `X3`. -/
def expandKey (imm S : Nat) (X Y X3 : M128) : M128 × M128 :=
  let X1 := shuffleEpi32 (aeskeygenassist Y S) imm
  let X3 := shufflePs X3 X 0x10
  let X := X ^^^ X3
  let X3 := shufflePs X3 X 0x8c
  (X ^^^ X3 ^^^ X1, X3)

def expandKey1 (S : Nat) (X0 X2 X3 : M128) : M128 × M128 := expandKey 0xff S X0 X2 X3

def expandKey2 (S : Nat) (X0 X2 X3 : M128) : M128 × M128 := expandKey 0xaa S X2 X0 X3

/-- Both macros for each constant but the last, which `EXPAND_KEY_1` alone takes;
the round keys in the order they are stored. -/
def expandRounds : List Nat → M128 → M128 → M128 → List M128
  | [], _, _, _ => []
  | [S], X0, X2, X3 => [(expandKey1 S X0 X2 X3).1]
  | S :: more, X0, X2, X3 =>
    let (X0, X3) := expandKey1 S X0 X2 X3
    let (X2, X3) := expandKey2 S X0 X2 X3
    X0 :: X2 :: expandRounds more X0 X2 X3

def aesniKey256Expand (key : List UInt8) : List M128 :=
  let X0 := loadu key
  let X2 := loadu (key.drop 16)
  X0 :: X2 :: expandRounds [0x01, 0x02, 0x04, 0x08, 0x10, 0x20, 0x40] X0 X2 0#128

/-- `rkeys[i]`; the slots past the schedule are never read. -/
def rkey (rkeys : List M128) (i : Nat) : M128 := rkeys.getD i 0#128

/-- The rounds `roundctr = 1 .. count` on one register. -/
def encryptRounds (rkeys : List M128) (nv : M128) : Nat → M128
  | 0 => nv ^^^ rkey rkeys 0
  | count + 1 => aesenc (encryptRounds rkeys nv count) (rkey rkeys (count + 1))

/-- `aesni_encrypt1` before its store, and one column of `aesni_encrypt8`. -/
def encryptBlock (rkeys : List M128) (nv : M128) : M128 :=
  aesenclast (encryptRounds rkeys nv 13) (rkey rkeys 14)

def aesniEncrypt1 (nv : M128) (rkeys : List M128) : List UInt8 := storeu (encryptBlock rkeys nv)

section Schedule
variable (key : List UInt8)

theorem schedule_key {i : Nat} (small : i < 8) : schedule key i = load 32 ((key.drop (4 * i)).take 4) := by
  rw [schedule, if_pos small]

theorem schedule_step {i : Nat} (large : 8 ≤ i) (plain : i % 8 ≠ 0 ∧ i % 8 ≠ 4) :
    schedule key i = schedule key (i - 8) ^^^ schedule key (i - 1) := by
  rw [schedule, if_neg (by omega)]
  simp only [if_neg plain.1, if_neg plain.2]

theorem schedule_rcon (j : Nat) : schedule key (8 * (j + 1)) = schedule key (8 * j) ^^^
    (subWord (rotWord (schedule key (8 * j + 7))) ^^^ rcon (j + 1)) := by
  rw [schedule, if_neg (by omega)]
  simp only [show 8 * (j + 1) % 8 = 0 by omega, if_true, show 8 * (j + 1) / 8 = j + 1 by omega,
    show 8 * (j + 1) - 8 = 8 * j by omega, show 8 * (j + 1) - 1 = 8 * j + 7 by omega]

theorem schedule_sub (j : Nat) : schedule key (8 * (j + 1) + 4) = schedule key (8 * j + 4) ^^^
    subWord (schedule key (8 * (j + 1) + 3)) := by
  rw [schedule, if_neg (by omega)]
  simp only [show (8 * (j + 1) + 4) % 8 = 4 by omega, if_true, show ¬ 4 = 0 by omega, if_false,
    show 8 * (j + 1) + 4 - 8 = 8 * j + 4 by omega, show 8 * (j + 1) + 4 - 1 = 8 * (j + 1) + 3 by omega]

theorem rotWord_load (a b c d : UInt8) : rotWord (load 32 [a, b, c, d]) = load 32 [b, c, d, a] := by
  apply BitVec.eq_of_getLsbD_eq
  intro i small
  rw [rotWord, BitVec.getLsbD_rotateRight, getLsbD_load, getLsbD_load, getLsbD_load]
  by_cases low : i < 24
  · obtain first | second | third : i / 8 = 0 ∨ i / 8 = 1 ∨ i / 8 = 2 := by omega
    all_goals simp [show 8 + i < 32 by omega, Nat.add_div_left, *]
  · have last : i / 8 = 3 ∧ (i - 24) / 8 = 0 ∧ (i - 24) % 8 = i % 8 := by omega
    simp [low, small, show i - 24 < 32 by omega, last]

theorem subWord_load {list : List UInt8} (four : list.length = 4) :
    subWord (load 32 list) = load 32 (list.map sbox) := by
  rw [subWord, ← four, bytes_load (by omega)]

theorem subWord_rotWord (w : BitVec 32) : subWord (rotWord w) = rotWord (subWord w) := by
  rw [← load_bytes w (n := 4) (by decide)]
  simp only [bytes, List.range, List.range.loop, List.map_cons, List.map_nil]
  rw [rotWord_load, subWord_load rfl, subWord_load rfl]
  exact (rotWord_load _ _ _ _).symm

end Schedule

section Expansion

theorem lane_xor (v u : M128) (k : Nat) : lane (v ^^^ u) k = lane v k ^^^ lane u k :=
  BitVec.extractLsb'_xor

/-- The two shuffles leave the running sums of the lanes, provided the spare
register starts with an empty lowest lane; they keep it empty. -/
theorem expandKey_lanes (imm S : Nat) (X Y X3 : M128) (clear : lane X3 0 = 0#32) :
    let X1 := shuffleEpi32 (aeskeygenassist Y S) imm
    let next := expandKey imm S X Y X3
    lane next.1 0 = lane X 0 ^^^ lane X1 0 ∧
    lane next.1 1 = lane X 1 ^^^ lane X 0 ^^^ lane X1 1 ∧
    lane next.1 2 = lane X 2 ^^^ lane X 1 ^^^ lane X 0 ^^^ lane X1 2 ∧
    lane next.1 3 = lane X 3 ^^^ lane X 2 ^^^ lane X 1 ^^^ lane X 0 ^^^ lane X1 3 ∧
    lane next.2 0 = 0#32 := by
  have first (v u : M128) : shufflePs v u 0x10 = ofLanes (lane u 0) (lane u 1) (lane v 0) (lane v 0) := rfl
  have second (v u : M128) : shufflePs v u 0x8c = ofLanes (lane u 2) (lane u 0) (lane v 3) (lane v 0) := rfl
  simp only [expandKey, first, second, lane_xor, lane_ofLanes_0, lane_ofLanes_1, lane_ofLanes_2,
    lane_ofLanes_3, clear, BitVec.xor_zero]
  refine ⟨trivial, trivial, trivial, ?_, trivial⟩
  ac_rfl

/-- The register is round key `j` of the standard's schedule. -/
def IsRoundKey (key : List UInt8) (j : Nat) (v : M128) : Prop :=
  ∀ k < 4, lane v k = schedule key (4 * j + k)

variable {key : List UInt8} {j S : Nat} {X0 X2 X3 : M128}

/-- A broadcast word that starts the next round key correctly gives all four words of it. -/
theorem expandKey_isRoundKey {n imm : Nat} {X Y : M128} {word : BitVec 32} (old : IsRoundKey key n X)
    (clear : lane X3 0 = 0#32)
    (broadcast : ∀ k < 4, lane (shuffleEpi32 (aeskeygenassist Y S) imm) k = word)
    (first : schedule key (4 * (n + 2)) = schedule key (4 * n) ^^^ word) :
    IsRoundKey key (n + 2) (expandKey imm S X Y X3).1 ∧ lane (expandKey imm S X Y X3).2 0 = 0#32 := by
  obtain ⟨sum0, sum1, sum2, sum3, clear'⟩ := expandKey_lanes imm S X Y X3 clear
  rw [broadcast 0 (by decide)] at sum0
  rw [broadcast 1 (by decide)] at sum1
  rw [broadcast 2 (by decide)] at sum2
  rw [broadcast 3 (by decide)] at sum3
  generalize (expandKey imm S X Y X3).1 = next at *
  have word0 : lane next 0 = schedule key (4 * (n + 2)) := by
    rw [sum0, old 0 (by decide), first]
    rfl
  have word1 : lane next 1 = schedule key (4 * (n + 2) + 1) := by
    rw [schedule_step key (by omega) (by omega), show 4 * (n + 2) + 1 - 8 = 4 * n + 1 by omega,
      show 4 * (n + 2) + 1 - 1 = 4 * (n + 2) by omega, ← word0, sum0, ← old 1 (by decide), sum1,
      BitVec.xor_assoc]
  have word2 : lane next 2 = schedule key (4 * (n + 2) + 2) := by
    rw [schedule_step key (by omega) (by omega), show 4 * (n + 2) + 2 - 8 = 4 * n + 2 by omega,
      show 4 * (n + 2) + 2 - 1 = 4 * (n + 2) + 1 by omega, ← word1, sum1, ← old 2 (by decide), sum2]
    ac_rfl
  have word3 : lane next 3 = schedule key (4 * (n + 2) + 3) := by
    rw [schedule_step key (by omega) (by omega), show 4 * (n + 2) + 3 - 8 = 4 * n + 3 by omega,
      show 4 * (n + 2) + 3 - 1 = 4 * (n + 2) + 2 by omega, ← word2, sum2, ← old 3 (by decide), sum3]
    ac_rfl
  refine ⟨fun k small => ?_, clear'⟩
  obtain rfl | rfl | rfl | rfl : k = 0 ∨ k = 1 ∨ k = 2 ∨ k = 3 := by omega
  · exact word0
  · exact word1
  · exact word2
  · exact word3

theorem lane_shuffle_ff (v : M128) : ∀ k < 4, lane (shuffleEpi32 v 0xff) k = lane v 3 := by
  intro k small
  obtain rfl | rfl | rfl | rfl : k = 0 ∨ k = 1 ∨ k = 2 ∨ k = 3 := by omega
  all_goals simp [shuffleEpi32, select]

theorem lane_shuffle_aa (v : M128) : ∀ k < 4, lane (shuffleEpi32 v 0xaa) k = lane v 2 := by
  intro k small
  obtain rfl | rfl | rfl | rfl : k = 0 ∨ k = 1 ∨ k = 2 ∨ k = 3 := by omega
  all_goals simp [shuffleEpi32, select]

theorem expandKey1_isRoundKey (even : IsRoundKey key (2 * j) X0) (odd : IsRoundKey key (2 * j + 1) X2)
    (clear : lane X3 0 = 0#32) (constant : BitVec.ofNat 32 S = rcon (j + 1)) :
    IsRoundKey key (2 * j + 2) (expandKey1 S X0 X2 X3).1 ∧ lane (expandKey1 S X0 X2 X3).2 0 = 0#32 := by
  refine expandKey_isRoundKey even clear (lane_shuffle_ff _) ?_
  rw [aeskeygenassist, lane_ofLanes_3, odd 3 (by decide), constant, ← subWord_rotWord,
    show 4 * (2 * j + 2) = 8 * (j + 1) by omega, schedule_rcon,
    show 8 * j + 7 = 4 * (2 * j + 1) + 3 by omega, show 8 * j = 4 * (2 * j) by omega]

theorem expandKey2_isRoundKey (odd : IsRoundKey key (2 * j + 1) X2) (even : IsRoundKey key (2 * j + 2) X0)
    (clear : lane X3 0 = 0#32) :
    IsRoundKey key (2 * j + 3) (expandKey2 S X0 X2 X3).1 ∧ lane (expandKey2 S X0 X2 X3).2 0 = 0#32 := by
  refine expandKey_isRoundKey odd clear (lane_shuffle_aa _) ?_
  rw [aeskeygenassist, lane_ofLanes_2, even 3 (by decide),
    show 4 * (2 * j + 1 + 2) = 8 * (j + 1) + 4 by omega, schedule_sub,
    show 8 * j + 4 = 4 * (2 * j + 1) by omega, show 8 * (j + 1) + 3 = 4 * (2 * j + 2) + 3 by omega]

/-- Each constant adds two round keys, the last one a single one. -/
theorem expandRounds_isRoundKey (constants : List Nat)
    (powers : ∀ i < constants.length, BitVec.ofNat 32 (constants.getD i 0) = rcon (j + 1 + i))
    (even : IsRoundKey key (2 * j) X0) (odd : IsRoundKey key (2 * j + 1) X2) (clear : lane X3 0 = 0#32) :
    ∀ i < (expandRounds constants X0 X2 X3).length,
      IsRoundKey key (2 * j + 2 + i) (rkey (expandRounds constants X0 X2 X3) i) := by
  induction constants, X0, X2, X3 using expandRounds.induct generalizing j with
  | case1 => simp [expandRounds]
  | case2 S X0 X2 X3 => 
    intro i small
    simp only [expandRounds, List.length_singleton, Nat.lt_one_iff] at small
    subst small
    exact (expandKey1_isRoundKey even odd clear (powers 0 (by simp))).1
  | case3 S more X0 X2 X3 notLast next0 next3 eq1 next2 last3 eq2 ih =>
    obtain ⟨key0, clear1⟩ := expandKey1_isRoundKey even odd clear (powers 0 (by simp))
    rw [List.getD_cons_zero, eq1] at key0 clear1
    obtain ⟨key1, clear2⟩ := expandKey2_isRoundKey (S := S) odd key0 clear1
    rw [eq2] at key1 clear2
    have tail := ih (j := j + 1) (fun i small => by
      have power := powers (i + 1) (by simpa using small)
      rwa [List.getD_cons_succ, show j + 1 + (i + 1) = j + 1 + 1 + i by omega] at power) key0 key1 clear2
    intro i small
    simp only [expandRounds, eq1, eq2, List.length_cons] at small ⊢
    match i with
    | 0 => exact key0
    | 1 => exact key1
    | i + 2 =>
      rw [show 2 * j + 2 + (i + 2) = 2 * (j + 1) + 2 + i by omega]
      exact tail i (by omega)

theorem lane_load (list : List UInt8) {k : Nat} (small : k < 4) :
    lane (load 128 list) k = load 32 ((list.drop (4 * k)).take 4) := by
  apply BitVec.eq_of_getLsbD_eq
  intro i inside
  have place : (32 * k + i) / 8 = 4 * k + i / 8 ∧ (32 * k + i) % 8 = i % 8 := by omega
  rw [lane, BitVec.getLsbD_extractLsb', getLsbD_load, getLsbD_load, place.1, place.2,
    decide_eq_true inside, decide_eq_true (show 32 * k + i < 128 by omega)]
  simp only [List.getD, List.getElem?_take, List.getElem?_drop, show i / 8 < 4 by omega, if_true,
    Bool.true_and]

/-- The expansion is the standard's, for every key. -/
theorem aesniKey256Expand_isRoundKey (key : List UInt8) :
    ∀ j < 15, IsRoundKey key j (rkey (aesniKey256Expand key) j) := by
  have even : IsRoundKey key (2 * 0) (loadu key) := by
    intro k small
    rw [loadu, lane_load key small, schedule_key key (by omega)]
    simp
  have odd : IsRoundKey key (2 * 0 + 1) (loadu (key.drop 16)) := by
    intro k small
    rw [loadu, lane_load _ small, schedule_key key (by omega), List.drop_drop,
      show 16 + 4 * k = 4 * (4 * (2 * 0 + 1) + k) by omega]
  have clear : lane 0#128 0 = 0#32 := by decide
  have rest := expandRounds_isRoundKey [0x01, 0x02, 0x04, 0x08, 0x10, 0x20, 0x40] (by decide) even odd clear
  intro j small
  match j with
  | 0 => exact even
  | 1 => exact odd
  | j + 2 =>
    have later := rest j (by simp [expandRounds]; omega)
    rwa [show 2 * 0 + 2 + j = j + 2 by omega] at later

end Expansion

section Cipher
variable (key : List UInt8)

theorem byteAt_lane (v : M128) (k : Nat) {i : Nat} (small : i < 4) :
    byteAt (lane v k) i = byteAt v (4 * k + i) := by
  apply UInt8.toBitVec_inj.mp
  apply BitVec.eq_of_getLsbD_eq
  intro b inside
  rw [getLsbD_byteAt _ _ inside, getLsbD_byteAt _ _ inside, lane, BitVec.getLsbD_extractLsb',
    decide_eq_true (show 8 * i + b < 32 by omega), Bool.true_and]
  congr 1
  omega

theorem bytes_lanes (v : M128) : bytes 16 v = (List.range 4).flatMap fun k => bytes 4 (lane v k) := by
  simp [bytes, List.range_succ, byteAt_lane]

theorem storeu_rkey {j : Nat} (small : j < 15) : storeu (rkey (aesniKey256Expand key) j) = roundKey key j := by
  rw [storeu, bytes_lanes, roundKey]
  apply List.flatMap_congr
  intro k member
  rw [aesniKey256Expand_isRoundKey key j small k (List.mem_range.mp member)]

theorem subBytes_shiftRows {s : List UInt8} (whole : s.length = 16) :
    subBytes (shiftRows s) = shiftRows (subBytes s) := by
  rw [subBytes, shiftRows, shiftRows, List.map_map]
  apply List.map_congr_left
  intro i _
  have inside : (i + 4 * (i % 4)) % 16 < s.length := by omega
  simp [subBytes, List.getD, List.getElem?_eq_getElem inside]

theorem bytes_load_xor {list : List UInt8} (whole : list.length = 16) (v : M128) :
    bytes 16 (load 128 list ^^^ v) = xorBytes list (bytes 16 v) := by
  rw [bytes_xor, ← whole, bytes_load (by omega), whole]

theorem bytes_encryptRounds (nv : M128) {j : Nat} (small : j < 14) :
    bytes 16 (encryptRounds (aesniKey256Expand key) nv j) = rounds key (bytes 16 nv) j := by
  induction j with
  | zero =>
    rw [encryptRounds, bytes_xor, rounds, addRoundKey]
    exact congrArg _ (storeu_rkey key (by decide))
  | succ j ih =>
    rw [encryptRounds, aesenc, bytes_load_xor (by simp), subBytes_shiftRows (by simp), ih (by omega), rounds,
      addRoundKey]
    exact congrArg _ (storeu_rkey key (by omega))

/-- The instruction sequence computes the standard's cipher on the bytes of the register. -/
theorem storeu_encryptBlock (nv : M128) :
    storeu (encryptBlock (aesniKey256Expand key) nv) = cipher key (storeu nv) := by
  rw [storeu, encryptBlock, aesenclast, subBytes_shiftRows (by simp), bytes_load_xor (by simp),
    bytes_encryptRounds key nv (by decide), cipher, addRoundKey]
  exact congrArg _ (storeu_rkey key (by decide))

/-- For every key the stored round keys are the standard's expanded key, and the
single-block encryption is the standard's cipher. -/
theorem aesni_block_standard (nv : M128) :
    (aesniKey256Expand key).length = 15 ∧
      (∀ j < 15, storeu (rkey (aesniKey256Expand key) j) = roundKey key j) ∧
      aesniEncrypt1 nv (aesniKey256Expand key) = cipher key (storeu nv) :=
  ⟨by simp [aesniKey256Expand, expandRounds], fun _ small => storeu_rkey key small, storeu_encryptBlock key nv⟩

end Cipher

end Aurora.Crypto
