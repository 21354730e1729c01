import Aurora.Lib.OnesComplement
import Aurora.Lib.Memory

/-! The Internet checksum of the network stack: `lwip_standard_chksum` in its second
version, which takes aligned 16-bit words in the order of the host from any address, and
the loops over chains of pbufs. Whatever the addresses and the cuts, the result is the
standard's. -/
namespace Aurora.Lwip
open Lib OnesComplement

/-- A pbuf for reading: whether its payload is at an odd address, and its bytes, as many as
the 16-bit `len` can say. -/
structure Pbuf where
  odd : Bool
  payload : List UInt8
  sized : payload.length < 65536

/-- The loop over whole words; with the sum, the byte left over. -/
def bulk : Nat → List UInt8 → Nat × Option UInt8
  | sum, low :: high :: rest => bulk ((sum + (low.toNat + 256 * high.toNat)) % 4294967296) rest
  | sum, rest => (sum, rest.head?)

/-- The word of the bytes before and after the aligned words, after its low byte is
stored if there is one left over. -/
def endWord (t : Nat) (left : Option UInt8) : Nat :=
  match left with
  | some byte => t / 256 * 256 + byte.toNat
  | none => t

def lwipStandardChksum (q : Pbuf) : Nat :=
  let (t, rest) :=
    match q.odd, q.payload with
    | true, byte :: rest => (256 * byte.toNat, rest)
    | _, rest => (0, rest)
  let (sum, left) := bulk 0 rest
  let sum := fold (fold ((sum + endWord t left) % 4294967296))
  (if q.odd then swap sum else sum) % 65536

/-- The loop over a chain; the sum is kept with its bytes exchanged behind an odd number
of bytes. -/
def chksumChain : Nat → Bool → List Pbuf → Nat × Bool
  | acc, swapped, [] => (acc, swapped)
  | acc, swapped, q :: chain =>
    let acc := fold ((acc + lwipStandardChksum q) % 4294967296)
    if q.payload.length % 2 ≠ 0 then chksumChain (swap acc) (!swapped) chain
    else chksumChain acc swapped chain

def unswapped (result : Nat × Bool) : Nat := if result.2 then swap result.1 else result.1

def inetChksum (q : Pbuf) : Nat := 65535 - lwipStandardChksum q

def inetChksumPbuf (chain : List Pbuf) : Nat := 65535 - unswapped (chksumChain 0 false chain) % 65536

/-- `inet_cksum_pseudo_base` -/
def inetCksumPseudoBase (chain : List Pbuf) (proto protoLen acc : Nat) : Nat :=
  let acc := unswapped (chksumChain acc false chain)
  let acc := (acc + swap proto + swap protoLen) % 4294967296
  65535 - fold (fold acc) % 65536

/-- The addresses are words as the network's bytes load. -/
def inetChksumPseudo (chain : List Pbuf) (proto : UInt8) (protoLen : UInt16) (src dest : UInt32) : Nat :=
  let acc := src.toNat % 65536 + src.toNat / 65536 + dest.toNat % 65536 + dest.toNat / 65536
  inetCksumPseudoBase chain proto.toNat protoLen.toNat (fold (fold acc))

/-! What the loops compute. -/

theorem bulk_weigh (sum : Nat) (data : List UInt8) (fits : sum + weigh false data < 4294967296) :
    (bulk sum data).1 + ((bulk sum data).2.elim 0 UInt8.toNat) = sum + weigh false data := by
  fun_induction bulk sum data with
  | case1 sum low high rest ih =>
    simp only [weigh] at fits ⊢
    rw [Nat.mod_eq_of_lt (by omega)] at ih ⊢
    rw [ih (by omega)]
    omega
  | case2 sum rest short =>
    cases rest with
    | nil => rfl
    | cons low more =>
      cases more with
      | nil => simp [weigh]
      | cons high rest => exact absurd rfl (short low high rest)

theorem endWord_eq (byte : Nat) (left : Option UInt8) :
    endWord (256 * byte) left = 256 * byte + left.elim 0 UInt8.toNat := by
  cases left with
  | none => rfl
  | some last => rw [endWord, Nat.mul_div_cancel_left _ (by decide), Nat.mul_comm]; rfl

theorem weigh_fits (q : Pbuf) (high : Bool) : weigh high q.payload < 4294967296 := by
  have bound := weigh_le high q.payload
  have size := q.sized
  omega

theorem lwipStandardChksum_even (q : Pbuf) (even : q.odd = false) :
    lwipStandardChksum q = fold (fold (weigh false q.payload)) := by
  have fits := weigh_fits q false
  have words := bulk_weigh 0 q.payload (by omega)
  have last := endWord_eq 0 (bulk 0 q.payload).2
  have small := fold_fold_le fits
  simp only [lwipStandardChksum, even]
  rw [show endWord 0 _ = _ from last, Nat.mul_zero, Nat.zero_add, words, Nat.zero_add, Nat.mod_eq_of_lt fits,
    if_neg (by decide), Nat.mod_eq_of_lt (by omega)]

theorem lwipStandardChksum_odd (q : Pbuf) (odd : q.odd = true) :
    lwipStandardChksum q = swap (fold (fold (weigh true q.payload))) := by
  have fits := weigh_fits q true
  have small := swap_le (fold (fold (weigh true q.payload)))
  simp only [lwipStandardChksum, odd]
  match data : q.payload with
  | [] => rfl
  | byte :: rest =>
    rw [data, weigh] at fits small
    have words := bulk_weigh 0 rest (by omega)
    have total : (bulk 0 rest).1 + endWord (256 * byte.toNat) (bulk 0 rest).2 =
        256 * byte.toNat + weigh false rest := by
      rw [endWord_eq]
      omega
    simp only [if_true, weigh, total]
    rw [Nat.mod_eq_of_lt fits, Nat.mod_eq_of_lt (by omega)]

/-- From any address the words are summed in the order of the host. -/
theorem lwipStandardChksum_same (q : Pbuf) :
    Same (lwipStandardChksum q) (weigh false q.payload) ∧ lwipStandardChksum q ≤ 65535 := by
  have folded (high : Bool) : Same (fold (fold (weigh high q.payload))) (weigh high q.payload) :=
    (fold_same _).trans (fold_same _)
  cases parity : q.odd with
  | false =>
    rw [lwipStandardChksum_even q parity]
    exact ⟨folded false, fold_fold_le (weigh_fits q false)⟩
  | true =>
    rw [lwipStandardChksum_odd q parity]
    refine ⟨?_, swap_le _⟩
    exact (swap_same (fold_fold_le (weigh_fits q true))).trans
      (((folded true).mul 256).trans (weigh_same q.payload).symm)

/-! Over a chain the sum is that of all its bytes. -/

/-- The bytes of a chain. -/
def bytesOf (chain : List Pbuf) : List UInt8 := chain.flatMap Pbuf.payload

/-- What the sum of the loop stands for. -/
def turned (swapped : Bool) (total : Nat) : Nat := if swapped then 256 * total else total

theorem swap_turned {acc total : Nat} {swapped : Bool} (small : acc ≤ 65535)
    (same : Same acc (turned swapped total)) : Same (swap acc) (turned (!swapped) total) := by
  have exchanged := (swap_same small).trans (same.mul 256)
  cases swapped with
  | false => exact exchanged
  | true => exact exchanged.trans (same_shift total)

theorem unswapped_same {acc total : Nat} {swapped : Bool} (small : acc ≤ 65535)
    (same : Same acc (turned swapped total)) :
    Same (unswapped (acc, swapped)) total ∧ unswapped (acc, swapped) ≤ 65535 := by
  cases swapped with
  | false => exact ⟨same, small⟩
  | true => exact ⟨swap_turned small same, swap_le acc⟩

/-- One pbuf, behind the bytes of the others. -/
theorem turned_append {acc base : Nat} {front : List UInt8}
    (same : Same acc (turned (decide (front.length % 2 = 1)) (base + weigh false front))) (q : Pbuf) :
    Same (acc + lwipStandardChksum q)
      (turned (decide (front.length % 2 = 1)) (base + weigh false (front ++ q.payload))) := by
  have added := same.add (lwipStandardChksum_same q).1
  rw [weigh_append, ← Nat.add_assoc]
  cases parity : decide (front.length % 2 = 1) with
  | false =>
    rw [parity] at added
    exact added
  | true =>
    simp only [parity, turned, if_true, Bool.bne_true, Bool.not_false] at added ⊢
    rw [Nat.mul_add]
    exact added.trans ((Same.refl _).add (weigh_same q.payload))

theorem chksumChain_same {base acc : Nat} {front : List UInt8} (chain : List Pbuf) (small : acc ≤ 65535)
    (same : Same acc (turned (decide (front.length % 2 = 1)) (base + weigh false front))) :
    Same (unswapped (chksumChain acc (decide (front.length % 2 = 1)) chain))
        (base + weigh false (front ++ bytesOf chain)) ∧
      unswapped (chksumChain acc (decide (front.length % 2 = 1)) chain) ≤ 65535 := by
  -- the loop has taken the bytes in `front`
  induction chain generalizing front acc with
  | nil =>
    rw [bytesOf, List.flatMap_nil, List.append_nil]
    exact unswapped_same small same
  | cons q chain ih =>
    have little := (lwipStandardChksum_same q).2
    have next := (fold_same _).trans (turned_append same q)
    have folded : fold (acc + lwipStandardChksum q) ≤ 65535 := fold_le (by omega)
    have count : (front ++ q.payload).length % 2 = (front.length % 2 + q.payload.length % 2) % 2 := by
      rw [List.length_append]
      omega
    rw [chksumChain, Nat.mod_eq_of_lt (show acc + lwipStandardChksum q < 4294967296 by omega), bytesOf,
      List.flatMap_cons, ← List.append_assoc]
    split
    · rename_i odd
      have turn : (!decide (front.length % 2 = 1)) = decide ((front ++ q.payload).length % 2 = 1) := by
        rw [← decide_not, decide_eq_decide]
        omega
      have exchanged := swap_turned folded next
      rw [turn] at exchanged ⊢
      exact ih (swap_le _) exchanged
    · rename_i even
      have stays : decide (front.length % 2 = 1) = decide ((front ++ q.payload).length % 2 = 1) := by
        rw [decide_eq_decide]
        omega
      rw [stays] at next ⊢
      exact ih folded next

/-- However the data is cut into a chain, and wherever the pieces are. -/
theorem chain_same {base : Nat} (chain : List Pbuf) (small : base ≤ 65535) :
    Same (unswapped (chksumChain base false chain)) (base + weigh false (bytesOf chain)) ∧
      unswapped (chksumChain base false chain) ≤ 65535 :=
  @chksumChain_same base base [] chain small (Same.refl _)

/-- The pseudo header of the transport protocols. -/
def pseudoHeader (proto : UInt8) (protoLen : UInt16) (src dest : UInt32) : List UInt8 :=
  littleEndian 4 src.toNat ++ littleEndian 4 dest.toNat ++
    [0, proto, (protoLen.toNat / 256).toUInt8, protoLen.toNat.toUInt8]

theorem toUInt8_toNat (value : Nat) : value.toUInt8.toNat = value % 256 := rfl

theorem weigh_littleEndian {value : Nat} (small : value < 4294967296) :
    weigh false (littleEndian 4 value) = value % 65536 + value / 65536 := by
  simp only [littleEndian, weigh, toUInt8_toNat]
  omega

theorem weigh_even_append {front : List UInt8} (even : front.length % 2 = 0) (rest : List UInt8) :
    weigh false (front ++ rest) = weigh false front + weigh false rest := by
  rw [weigh_append, decide_eq_false (by omega)]
  rfl

theorem weigh_pseudoHeader (proto : UInt8) (protoLen : UInt16) (src dest : UInt32) (data : List UInt8) :
    weigh false (pseudoHeader proto protoLen src dest ++ data) =
      src.toNat % 65536 + src.toNat / 65536 + dest.toNat % 65536 + dest.toNat / 65536 +
        (swap proto.toNat + swap protoLen.toNat) + weigh false data := by
  have even (value : Nat) : (littleEndian 4 value).length % 2 = 0 := by rw [littleEndian_length]
  have little := proto.toNat_lt
  have short := protoLen.toNat_lt
  rw [pseudoHeader, List.append_assoc, List.append_assoc, weigh_even_append (even _), weigh_even_append (even _),
    weigh_even_append (by simp), weigh_littleEndian src.toNat_lt, weigh_littleEndian dest.toNat_lt]
  simp only [weigh, toUInt8_toNat, swap, UInt8.toNat_zero]
  omega

/-- The complement of a sum that stands for that of the bytes, as the host stores it. -/
theorem complement_eq {acc : Nat} {data : List UInt8} (same : Same acc (weigh false data)) (small : acc ≤ 65535) :
    65535 - acc = swap (65535 - sum data) := by
  obtain ⟨total, little⟩ := sum_same data
  have exchanged : Same (swap (sum data)) acc :=
    (swap_same little).trans ((total.mul 256).trans ((weigh_same data).symm.trans same.symm))
  rw [swap_complement little, exchanged.eq (swap_le _) small]

theorem inetChksumPbuf_eq (chain : List Pbuf) : inetChksumPbuf chain = swap (65535 - sum (bytesOf chain)) := by
  obtain ⟨same, small⟩ := @chain_same 0 chain (by decide)
  rw [Nat.zero_add] at same
  rw [inetChksumPbuf, Nat.mod_eq_of_lt (by omega), complement_eq same small]

theorem inetCksumPseudoBase_eq {chain : List Pbuf} {proto protoLen acc : Nat} {data : List UInt8}
    (small : acc ≤ 65535)
    (total : Same (acc + (swap proto + swap protoLen) + weigh false (bytesOf chain)) (weigh false data)) :
    inetCksumPseudoBase chain proto protoLen acc = swap (65535 - sum data) := by
  obtain ⟨same, little⟩ := chain_same chain small
  have first := swap_le proto
  have second := swap_le protoLen
  have limit : unswapped (chksumChain acc false chain) + (swap proto + swap protoLen) < 4294967296 := by omega
  have folded := fold_fold_le limit
  rw [inetCksumPseudoBase, Nat.add_assoc, Nat.mod_eq_of_lt limit, Nat.mod_eq_of_lt (by omega)]
  rw [Nat.add_right_comm] at total
  exact complement_eq ((fold_same _).trans ((fold_same _).trans ((same.add (Same.refl _)).trans total))) folded

theorem inetChksumPseudo_eq (chain : List Pbuf) (proto : UInt8) (protoLen : UInt16) (src dest : UInt32) :
    inetChksumPseudo chain proto protoLen src dest =
      swap (65535 - sum (pseudoHeader proto protoLen src dest ++ bytesOf chain)) := by
  have from_ := src.toNat_lt
  have to_ := dest.toNat_lt
  apply inetCksumPseudoBase_eq (fold_fold_le (by omega))
  rw [weigh_pseudoHeader]
  exact (((fold_same _).trans (fold_same _)).add (Same.refl _)).add (Same.refl _)

/-- The three checksum functions of the stack compute the standard's checksum, stored in
the order of the network, of the bytes they are given: wherever a buffer begins, however a
chain is cut, and with the pseudo header in front. -/
theorem checksums_standard (q : Pbuf) (chain : List Pbuf) (proto : UInt8) (protoLen : UInt16)
    (src dest : UInt32) :
    inetChksum q = swap (65535 - sum q.payload) ∧
      inetChksumPbuf chain = swap (65535 - sum (bytesOf chain)) ∧
      inetChksumPseudo chain proto protoLen src dest =
        swap (65535 - sum (pseudoHeader proto protoLen src dest ++ bytesOf chain)) := by
  obtain ⟨same, small⟩ := lwipStandardChksum_same q
  exact ⟨complement_eq same small, inetChksumPbuf_eq chain, inetChksumPseudo_eq chain proto protoLen src dest⟩

/-! A receiver accepts data whose checksum, with the field in it, is zero. -/
section Verify

theorem verifies_iff (data : List UInt8) :
    swap (65535 - sum data) = 0 ↔ weigh false data % 65535 = 0 ∧ weigh false data ≠ 0 := by
  obtain ⟨total, little⟩ := sum_same data
  have exchanged : Same (swap (sum data)) (weigh false data) :=
    (swap_same little).trans ((total.mul 256).trans (weigh_same data).symm)
  have bound := swap_le (sum data)
  obtain ⟨residue, zero⟩ := exchanged
  unfold Nat.ModEq at residue
  rw [swap_complement little]
  omega

/-- A UDP datagram with its checksum field as the host stores it. -/
def udpDatagram (src dest : UInt16) (chksum : Nat) (data : List UInt8) : List UInt8 :=
  let len := 8 + data.length
  [(src.toNat / 256).toUInt8, src.toNat.toUInt8, (dest.toNat / 256).toUInt8, dest.toNat.toUInt8,
    (len / 256).toUInt8, len.toUInt8, chksum.toUInt8, (chksum / 256).toUInt8] ++ data

/-- The socket option `SO_NO_CHECK` sets this bit of `pcb->flags`. -/
def udpFlagsNochksum : UInt8 := 0x01

/-- The field that `udp_sendto_if_src` fills in, for the chain with a zero in its place;
zero itself means that there is no checksum. -/
def udpChksum (flags : UInt8) (chain : List Pbuf) (len : UInt16) (srcIp dstIp : UInt32) : Nat :=
  if flags &&& udpFlagsNochksum = 0 then
    let udpchksum := inetChksumPseudo chain 17 len srcIp dstIp
    if udpchksum = 0 then 0xffff else udpchksum
  else 0

theorem weigh_udpDatagram (src dest : UInt16) {chksum : Nat} (small : chksum ≤ 65535) (data : List UInt8) :
    weigh false (udpDatagram src dest chksum data) = weigh false (udpDatagram src dest 0 data) + chksum := by
  simp only [udpDatagram, List.cons_append, List.nil_append, weigh, toUInt8_toNat]
  omega

theorem udpChksum_eq {flags : UInt8} (wanted : flags &&& udpFlagsNochksum = 0) {sent : List Pbuf} {data : List UInt8}
    (len : UInt16) (srcIp dstIp : UInt32) (bytes : bytesOf sent = data) :
    udpChksum flags sent len srcIp dstIp ≤ 65535 ∧ udpChksum flags sent len srcIp dstIp ≠ 0 ∧
      (weigh false (pseudoHeader 17 len srcIp dstIp ++ data) + udpChksum flags sent len srcIp dstIp) % 65535 = 0 := by
  obtain ⟨total, little⟩ := sum_same (pseudoHeader 17 len srcIp dstIp ++ data)
  have exchanged : Same (swap (sum (pseudoHeader 17 len srcIp dstIp ++ data)))
      (weigh false (pseudoHeader 17 len srcIp dstIp ++ data)) :=
    (swap_same little).trans ((total.mul 256).trans (weigh_same _).symm)
  have bound := swap_le (sum (pseudoHeader 17 len srcIp dstIp ++ data))
  obtain ⟨residue, _⟩ := exchanged
  unfold Nat.ModEq at residue
  rw [udpChksum, if_pos wanted, inetChksumPseudo_eq, bytes, swap_complement little]
  dsimp only
  split <;> omega

/-- A message in two pbufs, of which the second is at an odd address. -/
def cutAt (cut : Nat) (message : List UInt8) (short : message.length < 65536) : List Pbuf :=
  [⟨false, message.take cut, by rw [List.length_take]; omega⟩,
    ⟨true, message.drop cut, by rw [List.length_drop]; omega⟩]

theorem bytesOf_cutAt (cut : Nat) (message : List UInt8) (short : message.length < 65536) :
    bytesOf (cutAt cut message short) = message := by
  simp [bytesOf, cutAt]

/-- Three bytes from port 8066 to itself. -/
def threeBytes (cut chksum : Nat) : List Pbuf :=
  cutAt cut (udpDatagram 8066 8066 chksum [0x41, 0x42, 0x43]) (by simp [udpDatagram])

/-- The datagram that `udp_sendto` makes carries a checksum unless the socket has turned
them off, and with it passes the check of every receiver, whatever its data and however
either side cuts it into pbufs. -/
theorem udp_checksum_verifies (flags : UInt8) (src dest len : UInt16) (srcIp dstIp : UInt32) (data : List UInt8)
    (sent received : List Pbuf) (cleared : bytesOf sent = udpDatagram src dest 0 data)
    (arrived : bytesOf received = udpDatagram src dest (udpChksum flags sent len srcIp dstIp) data) :
    (udpChksum flags sent len srcIp dstIp ≠ 0 ↔ flags &&& udpFlagsNochksum = 0) ∧
      (flags &&& udpFlagsNochksum = 0 → inetChksumPseudo received 17 len srcIp dstIp = 0) := by
  refine ⟨⟨fun present => ?_, fun wanted => (udpChksum_eq wanted len srcIp dstIp cleared).2.1⟩, fun wanted => ?_⟩
  · by_contra off
    exact present (if_neg off)
  · obtain ⟨small, _, sum⟩ := udpChksum_eq wanted len srcIp dstIp cleared
    have header := weigh_pseudoHeader 17 len srcIp dstIp
    rw [inetChksumPseudo_eq, verifies_iff, arrived, header, weigh_udpDatagram src dest small]
    rw [header] at sum
    omega

theorem udp_checksum_verifies_three_bytes :
    udpChksum 0 (threeBytes 8 0) 11 0x0100000a 0x0200000a ≠ 0 ∧
      inetChksumPseudo (threeBytes 5 (udpChksum 0 (threeBytes 8 0) 11 0x0100000a 0x0200000a)) 17 11 0x0100000a
        0x0200000a = 0 ∧
      udpChksum udpFlagsNochksum (threeBytes 8 0) 11 0x0100000a 0x0200000a = 0 := by
  have checked := udp_checksum_verifies 0 8066 8066 11 0x0100000a 0x0200000a _ (threeBytes 8 0) (threeBytes 5 _)
    (bytesOf_cutAt 8 _ _) (bytesOf_cutAt 5 _ _)
  have unchecked := udp_checksum_verifies udpFlagsNochksum 8066 8066 11 0x0100000a 0x0200000a _ (threeBytes 8 0)
    (threeBytes 5 _) (bytesOf_cutAt 8 _ _) (bytesOf_cutAt 5 _ _)
  refine ⟨checked.1.mpr (by decide), checked.2 (by decide), ?_⟩
  by_contra present
  exact absurd (unchecked.1.mp present) (by decide)

end Verify

/-! The answer to an echo request is the request with another type, and its checksum is
adjusted instead of summed again. -/
section Echo

/-- What `icmp_input` makes of the message of a request: type `ICMP_ER`, and the checksum
raised by what the type lost, with the carry. -/
def echoReply (message : List UInt8) : List UInt8 :=
  match message with
  | _ :: code :: low :: high :: rest =>
    let chksum := low.toNat + 256 * high.toNat
    let chksum := if chksum > 0xfff7 then (chksum + 0x0008 + 1) % 65536 else (chksum + 0x0008) % 65536
    0 :: code :: chksum.toUInt8 :: (chksum / 256).toUInt8 :: rest
  | short => short

theorem weigh_echoReply (code low high : UInt8) (rest : List UInt8) :
    weigh false (echoReply (8 :: code :: low :: high :: rest)) % 65535 =
        weigh false (8 :: code :: low :: high :: rest) % 65535 ∧
      weigh false (echoReply (8 :: code :: low :: high :: rest)) ≠ 0 := by
  have first := low.toNat_lt
  have second := high.toNat_lt
  simp only [echoReply, weigh, toUInt8_toNat, show (8 : UInt8).toNat = 8 from rfl, UInt8.toNat_zero]
  split <;> omega

/-- Seven bytes of data; the checksum is 0xfffb, so that the answer has to carry. -/
def echoRequest : List UInt8 := [8, 0, 0xfb, 0xff, 0x12, 0x34, 0, 1, 0x61, 0x62, 0x63, 0x64, 0xc0, 0x03, 0x65]

/-- The reply to an echo request checks out exactly if the request does, however either is
cut into pbufs. -/
theorem echo_reply_valid_iff (code low high : UInt8) (rest : List UInt8) (request reply : List Pbuf)
    (asked : bytesOf request = 8 :: code :: low :: high :: rest)
    (answered : bytesOf reply = echoReply (8 :: code :: low :: high :: rest)) :
    inetChksumPbuf reply = 0 ↔ inetChksumPbuf request = 0 := by
  obtain ⟨same, present⟩ := weigh_echoReply code low high rest
  have nonzero : weigh false (8 :: code :: low :: high :: rest) ≠ 0 := by
    simp only [weigh, show (8 : UInt8).toNat = 8 from rfl]
    omega
  rw [inetChksumPbuf_eq, inetChksumPbuf_eq, verifies_iff, verifies_iff, asked, answered, same]
  exact and_congr_right fun _ => iff_of_true present nonzero

theorem echo_reply_valid_carry :
    echoReply echoRequest = [0, 0, 0x04, 0, 0x12, 0x34, 0, 1, 0x61, 0x62, 0x63, 0x64, 0xc0, 0x03, 0x65] ∧
      inetChksumPbuf (cutAt 5 echoRequest (by decide)) = 0 ∧
      inetChksumPbuf (cutAt 8 (echoReply echoRequest) (by decide)) = 0 := by
  have valid : inetChksumPbuf (cutAt 5 echoRequest (by decide)) = 0 := by decide
  exact ⟨by decide, valid, (echo_reply_valid_iff 0 0xfb 0xff _ (cutAt 5 echoRequest _)
    (cutAt 8 (echoReply echoRequest) _) (bytesOf_cutAt 5 echoRequest _)
    (bytesOf_cutAt 8 (echoReply echoRequest) _)).mpr valid⟩

end Echo

end Aurora.Lwip
