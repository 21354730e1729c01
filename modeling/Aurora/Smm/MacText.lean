import Aurora.Lib.Loop
import Aurora.Lib.Memory
import Aurora.Smm.Output

/-! Hardware addresses as text: `str2mac`, which the transmit path uses for the
next hop, and `eth_ntoa` with the printf code of the firmware it goes through.
The loop of `str2mac` has an 8-bit position, an accumulator that is cut to a byte
when it is stored, and one store for each separator and for the terminator. -/
namespace Aurora.Smm.MacText
open Lib Output

/-- The value `str2mac` gives a character, if it is a hexadecimal digit. -/
def hexDigit (c : UInt8) : Option Nat :=
  if 48 ≤ c ∧ c ≤ 57 then some (c.toNat - 48)
  else if 97 ≤ c ∧ c ≤ 102 then some (c.toNat - 97 + 10)
  else if 65 ≤ c ∧ c ≤ 70 then some (c.toNat - 65 + 10)
  else none

/-- `str2mac` from the position `i` on, with its `int` accumulator and the place
of the next octet. -/
def str2mac (str : Memory) : Nat → UInt8 → BitVec 32 → Nat → Option (List Store)
  | 0, _, _, _ => none
  | fuel + 1, i, acc, mac =>
    let c := str i.toNat
    match hexDigit c with
    | some v => str2mac str fuel (i + 1) (acc * 16 + BitVec.ofNat 32 v) mac
    | none =>
      let stored : Store := ⟨mac, UInt8.ofNat acc.toNat⟩
      if c = 0 then some [stored]
      else (str2mac str fuel (i + 1) 0 (mac + 1)).map (stored :: ·)

/-- The octets of a text, without positions and widths. -/
def parse : List UInt8 → Nat → List UInt8
  | [], acc => [UInt8.ofNat acc]
  | c :: rest, acc =>
    match hexDigit c with
    | some v => parse rest (acc * 16 + v)
    | none => UInt8.ofNat acc :: parse rest 0

theorem hexDigit_zero : hexDigit 0 = none := by decide

theorem cut_acc (n : Nat) : UInt8.ofNat (BitVec.ofNat 32 n).toNat = UInt8.ofNat n := by
  apply UInt8.toNat.inj
  simp only [BitVec.toNat_ofNat, UInt8.toNat_ofNat']
  omega

/-- The position does not wrap within the first 256 characters. -/
theorem position_eq {i : Nat} (small : i ≤ 255) : (UInt8.ofNat i).toNat = i := by
  rw [UInt8.toNat_ofNat']
  omega

/-! One character of `parse`. -/

theorem parse_digit {c : UInt8} {v : Nat} (value : hexDigit c = some v) (rest : List UInt8) (acc : Nat) :
    parse (c :: rest) acc = parse rest (acc * 16 + v) := by
  rw [parse, value]

theorem parse_separator {c : UInt8} (value : hexDigit c = none) (rest : List UInt8) (acc : Nat) :
    parse (c :: rest) acc = UInt8.ofNat acc :: parse rest 0 := by
  rw [parse, value]

/-- The loop on a terminated text of at most 255 characters, from any position. -/
theorem str2mac_ends (str : Memory) {text : List UInt8} {i : Nat} (n mac : Nat)
    (short : i + text.length ≤ 255) (content : str.read i text.length = text)
    (terminated : str (i + text.length) = 0) (nonzero : ∀ c ∈ text, c ≠ 0) :
    Ends (fun fuel => str2mac str fuel (UInt8.ofNat i) (BitVec.ofNat 32 n) mac) text.length
      (blit mac (parse text n)) := by
  induction text generalizing i n mac with
  | nil =>
    refine .leave rfl fun fuel => ?_
    have position := position_eq (show i ≤ 255 from short)
    have zero : str i = 0 := terminated
    simp only [str2mac, position, zero, hexDigit_zero, if_true, parse, cut_acc]
    rfl
  | cons c rest ih =>
    have position := position_eq ((Nat.le_add_right _ _).trans short)
    have next : UInt8.ofNat i + 1 = UInt8.ofNat (i + 1) := (UInt8.ofNat_add i 1).symm
    rw [List.length_cons, Nat.add_comm rest.length 1] at short content terminated
    rw [Memory.read_append] at content
    obtain ⟨first, others⟩ : str i = c ∧ str.read (i + 1) rest.length = rest := List.cons.inj content
    have later := fun n mac => ih (i := i + 1) n mac (by omega) others (by rwa [Nat.add_assoc])
      fun c member => nonzero c (List.mem_cons_of_mem _ member)
    cases value : hexDigit c with
    | some v =>
      have acc : BitVec.ofNat 32 n * 16 + BitVec.ofNat 32 v = BitVec.ofNat 32 (n * 16 + v) := by
        rw [BitVec.ofNat_add, BitVec.ofNat_mul]
        rfl
      rw [parse_digit value]
      refine .round rfl (fun fuel => ?_) (later (n * 16 + v) mac)
      simp only [str2mac, position, first, value, next, acc]
    | none =>
      rw [parse_separator value, blit_cons]
      refine .round rfl (fun fuel => ?_) ((later 0 (mac + 1)).map _)
      simp only [str2mac, position, first, value, next, if_neg (nonzero c List.mem_cons_self), cut_acc]
      rfl

/-- A terminated string in memory, and nothing assumed of what is behind it. -/
def Terminated (str : Memory) (text : List UInt8) : Prop :=
  str.read 0 (text.length + 1) = text ++ [0]

/-- `str2mac` as it is called, on any text. -/
theorem str2mac_terminated {str : Memory} {text : List UInt8} (terminated : Terminated str text)
    (nonzero : ∀ c ∈ text, c ≠ 0) (short : text.length ≤ 255) (mac : Nat) :
    Ends (fun fuel => str2mac str fuel 0 0 mac) text.length (blit mac (parse text 0)) := by
  rw [Terminated, Memory.read_append, Nat.zero_add] at terminated
  obtain ⟨content, zero⟩ := List.append_inj terminated (Memory.read_length _ _ _)
  exact str2mac_ends str 0 mac (by rwa [Nat.zero_add]) content
    (by rw [Nat.zero_add]; exact List.head_eq_of_cons_eq zero) nonzero

/-- A string literal in memory, without its terminator. -/
def ascii (text : List Char) : List UInt8 := text.map fun c => UInt8.ofNat c.toNat

/-! Fields: numerals in either letter case, with any number of leading zeros. -/

def hexValue : List UInt8 → Nat → Option Nat
  | [], acc => some acc
  | c :: rest, acc => (hexDigit c).bind fun v => hexValue rest (acc * 16 + v)

structure Spells (field : List UInt8) (octet : UInt8) : Prop where
  nonempty : field ≠ []
  value : hexValue field 0 = some octet.toNat

/-- The fields of an address, with single colons between them. -/
def joined : List (List UInt8) → List UInt8
  | [] => []
  | [field] => field
  | field :: other :: rest => field ++ 58 :: joined (other :: rest)

theorem parse_field {field : List UInt8} {acc v : Nat} (value : hexValue field acc = some v)
    (rest : List UInt8) : parse (field ++ rest) acc = parse rest v := by
  induction field generalizing acc with
  | nil => rw [List.nil_append, Option.some.inj value]
  | cons c field ih =>
    obtain ⟨digit, known, others⟩ := Option.bind_eq_some_iff.mp value
    rw [List.cons_append, parse_digit known]
    exact ih others

theorem field_nonzero {field : List UInt8} {acc v : Nat} (value : hexValue field acc = some v) :
    ∀ c ∈ field, c ≠ 0 := by
  induction field generalizing acc with
  | nil => exact fun c member => absurd member List.not_mem_nil
  | cons first field ih =>
    obtain ⟨digit, known, others⟩ := Option.bind_eq_some_iff.mp value
    intro c member
    obtain rfl | later := List.mem_cons.mp member
    · rintro rfl
      rw [hexDigit_zero] at known
      cases known
    · exact ih others c later

theorem parse_joined {fields : List (List UInt8)} {octets : List UInt8}
    (spelled : List.Forall₂ Spells fields octets) (nonempty : octets ≠ []) :
    parse (joined fields) 0 = octets := by
  induction spelled with
  | nil => exact absurd rfl nonempty
  | @cons field octet fields octets spells rest ih =>
    cases rest with
    | nil =>
      have only := parse_field spells.value []
      rw [List.append_nil] at only
      rw [joined, only, parse, UInt8.ofNat_toNat]
    | cons next others =>
      rw [joined, parse_field spells.value, parse_separator (by decide), ih (List.cons_ne_nil _ _),
        UInt8.ofNat_toNat]

theorem joined_nonzero {fields : List (List UInt8)} {octets : List UInt8}
    (spelled : List.Forall₂ Spells fields octets) : ∀ c ∈ joined fields, c ≠ 0 := by
  induction spelled with
  | nil => exact fun c member => absurd member List.not_mem_nil
  | @cons field octet fields octets spells rest ih =>
    have here := field_nonzero spells.value
    cases rest with
    | nil => exact here
    | cons next others =>
      intro c member
      obtain inside | later := List.mem_append.mp member
      · exact here c inside
      · obtain rfl | behind := List.mem_cons.mp later
        · decide
        · exact ih c behind

theorem str2mac_joined {fields : List (List UInt8)} {octets : List UInt8}
    (spelled : List.Forall₂ Spells fields octets) (nonempty : octets ≠ []) {str : Memory}
    (terminated : Terminated str (joined fields)) (short : (joined fields).length ≤ 255) (mac : Nat) :
    Ends (fun fuel => str2mac str fuel 0 0 mac) (joined fields).length (blit mac octets) := by
  have ends := str2mac_terminated terminated (joined_nonzero spelled) short mac
  rwa [parse_joined spelled nonempty] at ends

/-! `eth_ntoa` -/

def ethNtoa (m : List UInt8) : Option (List UInt8) :=
  snprintf 18 (ascii "%0x:%0x:%0x:%0x:%0x:%0x".toList) (m.map fun octet => octet.toUInt32)

/-- The shortest lower-case numeral. -/
def numeral (octet : UInt8) : List UInt8 := putprettyhex octet.toNat 0 48

theorem hexDigit_putsinglehex : ∀ v < 16, hexDigit (putsinglehex v) = some v := by decide

theorem numeral_eq (octet : UInt8) : numeral octet = if octet.toNat < 16 then [putsinglehex octet.toNat]
    else [putsinglehex (octet.toNat / 16), putsinglehex (octet.toNat % 16)] :=
  (putprettyhex_bare _ _).trans (puthex_byte octet.toNat_lt)

theorem numeral_length (octet : UInt8) : (numeral octet).length ≤ 2 := by
  rw [numeral_eq]
  split <;> simp

theorem numeral_spells (octet : UInt8) : Spells (numeral octet) octet := by
  have byte := octet.toNat_lt
  rw [numeral_eq]
  split
  · refine ⟨List.cons_ne_nil _ _, ?_⟩
    simp [hexValue, hexDigit_putsinglehex _ ‹_›]
  · have high := hexDigit_putsinglehex (octet.toNat / 16) (by omega)
    have low := hexDigit_putsinglehex (octet.toNat % 16) (by omega)
    refine ⟨List.cons_ne_nil _ _, ?_⟩
    simp only [hexValue, high, low, Option.bind_some, Option.some.injEq]
    omega

/-- A format of one `%0x` for each octet prints their numerals. -/
theorem bvprintf_joined (octets : List UInt8) {fuel : Nat} (enough : 2 * octets.length < fuel) :
    bvprintf fuel (joined (List.replicate octets.length [37, 48, 120]))
      (octets.map fun octet => octet.toUInt32) = some (joined (octets.map numeral)) := by
  induction octets generalizing fuel with
  | nil =>
    obtain ⟨more, rfl⟩ := Nat.exists_eq_add_of_lt enough
    rfl
  | cons octet rest ih =>
    rw [List.length_cons] at enough
    obtain ⟨more, rfl⟩ : ∃ more, fuel = more + 2 := ⟨fuel - 2, by omega⟩
    have later := @ih more (by omega)
    have width : octet.toUInt32.toNat = octet.toNat := octet.toNat_toUInt32
    cases rest with
    | nil =>
      change bvprintf (more + 1 + 1) (37 :: 48 :: 120 :: []) [octet.toUInt32] = some (numeral octet)
      rw [bvprintf_hex, bvprintf, Option.map_some, List.append_nil, width]
      rfl
    | cons next others =>
      rw [List.length_cons, List.length_cons, List.replicate_succ, List.replicate_succ, joined,
        ← List.replicate_succ, ← List.length_cons]
      simp only [List.map_cons, List.cons_append, List.nil_append] at later ⊢
      rw [bvprintf_hex, bvprintf_text (by decide), later, width]
      rfl

theorem joined_numerals_length (octets : List UInt8) :
    (joined (octets.map numeral)).length ≤ 3 * octets.length - 1 := by
  induction octets with
  | nil => exact Nat.zero_le _
  | cons octet rest ih =>
    have here := numeral_length octet
    cases rest with
    | nil => exact here
    | cons next others =>
      simp only [List.map_cons, joined, List.length_append, List.length_cons] at ih ⊢
      omega

theorem forall₂_numerals (octets : List UInt8) : List.Forall₂ Spells (octets.map numeral) octets := by
  induction octets with
  | nil => exact .nil
  | cons octet rest ih => exact .cons (numeral_spells octet) ih

/-- The buffer has room for six octets, so nothing is cut off. -/
theorem ethNtoa_eq {m : List UInt8} (six : m.length = 6) :
    ethNtoa m = some (joined (m.map numeral) ++ [0]) := by
  have format : ascii "%0x:%0x:%0x:%0x:%0x:%0x".toList =
      joined (List.replicate m.length [37, 48, 120]) := by
    rw [six]
    decide
  have room := joined_numerals_length m
  have enough : 2 * m.length < (joined (List.replicate m.length [37, 48, 120])).length + 1 := by
    rw [six]
    decide
  rw [ethNtoa, snprintf, if_neg (by decide), format, bvprintf_joined m enough, Option.map_some,
    List.take_of_length_le (by omega)]

/-- `str2mac` on an address of one or more octets, each in hexadecimal, in either
letter case and with any number of leading zeros: it ends, and stores these octets
and nothing else. What `eth_ntoa` prints is one of these texts. -/
theorem str2mac_reads_addresses (mac : Nat) :
    (∀ (fields : List (List UInt8)) (octets : List UInt8) (str : Memory),
      List.Forall₂ Spells fields octets → octets ≠ [] → Terminated str (joined fields) →
      (joined fields).length ≤ 255 →
      Ends (fun fuel => str2mac str fuel 0 0 mac) (joined fields).length (blit mac octets)) ∧
    ∀ m : List UInt8, m.length = 6 → ∃ text, ethNtoa m = some (text ++ [0]) ∧
      ∀ str, Terminated str text →
        Ends (fun fuel => str2mac str fuel 0 0 mac) text.length (blit mac m) := by
  refine ⟨fun fields octets str spelled nonempty terminated short =>
    str2mac_joined spelled nonempty terminated short mac, fun m six => ?_⟩
  have room := joined_numerals_length m
  refine ⟨_, ethNtoa_eq six, fun str terminated => ?_⟩
  refine str2mac_joined (forall₂_numerals m) ?_ terminated (by omega) mac
  rintro rfl
  cases six

/-- `00fF:a`, with leading zeros, both letter cases and a single digit. -/
theorem str2mac_reads_addresses_mixed :
    Ends (fun fuel => str2mac (fun k => (ascii "00fF:a".toList).getD k 0) fuel 0 0 100) 6
      [⟨100, 255⟩, ⟨101, 10⟩] := by
  have first : Spells (ascii "00fF".toList) 255 := ⟨by decide, by decide⟩
  have second : Spells (ascii "a".toList) 10 := ⟨by decide, by decide⟩
  exact (str2mac_reads_addresses 100).1 [_, _] [255, 10] _ (.cons first (.cons second .nil)) (by decide)
    rfl (by decide)

/-- An address of no octets is the empty text, for which one octet is stored. -/
theorem empty_text_stores_an_octet :
    List.Forall₂ Spells [] [] ∧ Terminated (fun _ => 0) (joined []) ∧
      str2mac (fun _ => 0) 1 0 0 0 = some [⟨0, 0⟩] ∧ blit 0 [] = [] := by
  exact ⟨.nil, rfl, rfl, rfl⟩

end Aurora.Smm.MacText
