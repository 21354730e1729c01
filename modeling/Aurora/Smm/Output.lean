import Mathlib.Tactic.Common

/-! The firmware's printf code, from `snprintf` down to single digits. Text is a
list of bytes; conversions that follow a pointer are not modelled. -/
namespace Aurora.Smm.Output

/-- The digits are stored from the last one back. -/
def putuint (val : Nat) : List UInt8 :=
  (if val / 10 = 0 then [] else putuint (val / 10)) ++ [UInt8.ofNat (48 + val % 10)]

def putsinglehex (val : Nat) : UInt8 :=
  if val ≤ 9 then UInt8.ofNat (48 + val) else UInt8.ofNat (97 + val - 10)

/-- The cases of the switch fall through; any other width shows all 8 digits. -/
def puthex (val : Nat) (width : Nat) : List UInt8 :=
  let shown := if 1 ≤ width ∧ width ≤ 7 then width else 8
  (List.range shown).reverse.map fun k => putsinglehex (val >>> (4 * k) % 16)

/-- `count` after `while (tmp >>= 4) count++;` -/
def hexCount (tmp : Nat) : Nat := if tmp / 16 = 0 then 1 else hexCount (tmp / 16) + 1

def putprettyhex (val : Nat) (width : Int) (padchar : UInt8) : List UInt8 :=
  List.replicate (width - hexCount val).toNat padchar ++ puthex val (hexCount val)

/-- The digits behind a `%`: the field width, the padding, and what follows. -/
def fieldWidth : Nat → UInt8 → List UInt8 → Nat × UInt8 × List UInt8
  | width, padchar, [] => (width, padchar, [])
  | width, padchar, c :: rest =>
    if 48 ≤ c ∧ c ≤ 57 then
      if width = 0 ∧ c = 48 then fieldWidth width 48 rest
      else fieldWidth (width * 10 + (c.toNat - 48)) padchar rest
    else (width, padchar, c :: rest)

/-- One `l` is ignored, two announce 64 bits. -/
def longs : List UInt8 → Bool × List UInt8
  | 108 :: 108 :: rest => (true, rest)
  | 108 :: rest => (false, rest)
  | rest => (false, rest)

/-- One conversion: its output, the format behind it and the arguments left, from
its letter on; `whole` is the format behind the `%`. A `none` is an argument that is
missing or a pointer that would be followed (`%s`, `%.s` and `%pP`). -/
def convert (whole : List UInt8) (width : Nat) (padchar : UInt8) (is64 : Bool) :
    List UInt8 → List UInt32 → Option (List UInt8 × List UInt8 × List UInt32)
  | [], args => some ([37], whole, args)
  | c :: rest, args =>
    let further := args.drop (if is64 then 2 else 1)
    if c = '%'.toUInt8 then some ([37], rest, args)
    else if c = 'd'.toUInt8 then args.head?.map fun val =>
      (if 0x80000000 ≤ val.toNat then 45 :: putuint (-val).toNat else putuint val.toNat, rest, further)
    else if c = 'u'.toUInt8 then args.head?.map fun val => (putuint val.toNat, rest, further)
    else if c = 'p'.toUInt8 then
      if rest.head? = some 'P'.toUInt8 then none
      else args.head?.map fun val => (48 :: 120 :: puthex val.toNat 8, rest, args.tail)
    else if c = 'x'.toUInt8 then
      if is64 then args.head?.bind fun val => args.tail.head?.map fun upper =>
        (if upper = 0 then putprettyhex val.toNat width padchar
          else putprettyhex upper.toNat (width - 8) padchar ++ puthex val.toNat 8, rest, further)
      else args.head?.map fun val => (putprettyhex val.toNat width padchar, rest, further)
    else if c = 'c'.toUInt8 then args.head?.map fun val => ([UInt8.ofNat val.toNat], rest, args.tail)
    else if c = '.'.toUInt8 then
      if rest.head? = some 's'.toUInt8 then none else some ([], rest, args)
    else if c = 's'.toUInt8 then none
    -- the `%` stands for itself, and the digits behind it are text
    else some ([37], whole, args)

def bvprintf : Nat → List UInt8 → List UInt32 → Option (List UInt8)
  | 0, _, _ => none
  | _ + 1, [], _ => some []
  | fuel + 1, c :: rest, args =>
    if c ≠ 37 then (bvprintf fuel rest args).map (c :: ·)
    else
      let (width, padchar, flags) := fieldWidth 0 32 rest
      let (is64, letter) := longs flags
      match convert rest width padchar is64 letter args with
      | none => none
      | some (shown, behind, args) => (bvprintf fuel behind args).map (shown ++ ·)

/-- What `snprintf` leaves in a buffer of this size. -/
def snprintf (size : Nat) (fmt : List UInt8) (args : List UInt32) : Option (List UInt8) :=
  if size = 0 then some []
  else (bvprintf (fmt.length + 1) fmt args).map fun text => text.take (size - 1) ++ [0]

theorem bvprintf_hex (fuel : Nat) (rest : List UInt8) (val : UInt32) (args : List UInt32) :
    bvprintf (fuel + 1) (37 :: 48 :: 120 :: rest) (val :: args) =
      (bvprintf fuel rest args).map (putprettyhex val.toNat 0 48 ++ ·) := rfl

theorem bvprintf_text {c : UInt8} (plain : c ≠ 37) (fuel : Nat) (rest : List UInt8) (args : List UInt32) :
    bvprintf (fuel + 1) (c :: rest) args = (bvprintf fuel rest args).map (c :: ·) := by
  rw [bvprintf, if_pos plain]

/-- Without a width there is no padding: `%0x` prints the shortest numeral. -/
theorem putprettyhex_bare (val : Nat) (padchar : UInt8) :
    putprettyhex val 0 padchar = puthex val (hexCount val) := by
  have nothing : ((0 : Int) - hexCount val).toNat = 0 := by omega
  rw [putprettyhex, nothing, List.replicate_zero, List.nil_append]

/-- A byte is printed in one digit or in two. -/
theorem puthex_byte {val : Nat} (byte : val < 256) :
    puthex val (hexCount val) = if val < 16 then [putsinglehex val]
      else [putsinglehex (val / 16), putsinglehex (val % 16)] := by
  by_cases small : val < 16
  · have count : hexCount val = 1 := by
      rw [hexCount, if_pos (by omega)]
    rw [count, if_pos small]
    simp [puthex, Nat.mod_eq_of_lt small]
  · have count : hexCount val = 2 := by
      rw [hexCount, if_neg (by omega), hexCount, if_pos (by omega)]
    have high : val / 16 % 16 = val / 16 := Nat.mod_eq_of_lt (by omega)
    rw [count, if_neg small]
    simp [puthex, List.range_succ, Nat.shiftRight_eq_div_pow, high]

end Aurora.Smm.Output
