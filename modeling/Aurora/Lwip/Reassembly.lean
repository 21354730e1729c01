import Aurora.Lib.Bytes
import Aurora.Lib.Tiling
import Aurora.Lib.Transition
import Aurora.Lwip.Checksum

/-! Reassembly of IP fragments in the network stack: `ip4_reass` and its helpers, fed by
`ip4_input`. A datagram is a queue of fragments in the order of their offsets; it is
handed on when the queue begins at zero, has no hole and a fragment without the flag for
more has come. -/
namespace Aurora.Lwip.Reassembly
open Lib Tiling

/-- `struct ip_hdr`, with its 16-bit fields in the order of the host. -/
structure IpHdr where
  vHl : UInt8
  tos : UInt8
  len : UInt16
  id : UInt16
  offset : UInt16
  ttl : UInt8
  proto : UInt8
  chksum : UInt16
  src : UInt32
  dest : UInt32
deriving DecidableEq, Repr

namespace IpHdr

def v (h : IpHdr) : Nat := h.vHl.toNat / 16

def hlBytes (h : IpHdr) : Nat := h.vHl.toNat % 16 * 4

/-- `IPH_OFFSET_BYTES`: the low 13 bits, in units of eight bytes. -/
def offsetBytes (h : IpHdr) : Nat := h.offset.toNat % 8192 * 8

/-- The flag `IP_MF`. -/
def more (h : IpHdr) : Bool := h.offset.toNat / 8192 % 2 = 1

/-- `IP_ADDRESSES_AND_ID_MATCH` -/
def addressesAndIdMatch (a b : IpHdr) : Bool := a.src == b.src && a.dest == b.dest && a.id == b.id

def parse (bytes : List UInt8) : IpHdr :=
  let word i := (256 * (bytes.getD i 0).toNat + (bytes.getD (i + 1) 0).toNat).toUInt16
  let addr i := (leValue ((bytes.drop i).take 4)).toUInt32
  ⟨bytes.getD 0 0, bytes.getD 1 0, word 2, word 4, word 6, bytes.getD 8 0, bytes.getD 9 0, word 10, addr 12, addr 16⟩

def bytes (h : IpHdr) : List UInt8 :=
  let word (x : UInt16) := [(x.toNat / 256).toUInt8, x.toNat.toUInt8]
  [h.vHl, h.tos] ++ word h.len ++ word h.id ++ word h.offset ++ [h.ttl, h.proto] ++ word h.chksum ++
    littleEndian 4 h.src.toNat ++ littleEndian 4 h.dest.toNat

end IpHdr

/-- A fragment as `ip4_input` passes it on: its header, and for each pbuf the bytes
behind the header, as many as the header says. -/
structure Fragment where
  iphdr : IpHdr
  data : List (List UInt8)
  sized : iphdr.len.toNat = 20 + data.flatten.length
  pbufs : data ≠ []

/-! The part of `ip4_input` in front. -/

/-- `pbuf_realloc` to a smaller length. -/
def pbufRealloc : Nat → List (List UInt8) → List (List UInt8)
  | _, [] => []
  | newLen, q :: rest => if q.length < newLen then q :: pbufRealloc (newLen - q.length) rest else [q.take newLen]

theorem pbufRealloc_length {newLen : Nat} {chain : List (List UInt8)} (shorter : newLen ≤ chain.flatten.length) :
    (pbufRealloc newLen chain).flatten.length = newLen := by
  induction chain generalizing newLen with
  | nil =>
    simp only [List.flatten_nil, List.length_nil] at shorter
    simp only [pbufRealloc, List.flatten_nil, List.length_nil]
    omega
  | cons q rest ih =>
    rw [List.flatten_cons, List.length_append] at shorter
    rw [pbufRealloc]
    split
    · rw [List.flatten_cons, List.length_append, ih (by omega)]
      omega
    · simp only [List.flatten_cons, List.flatten_nil, List.append_nil, List.length_take]
      omega

def headerOf (chain : List (List UInt8)) : IpHdr := IpHdr.parse (chain.headD [])

/-- The chain cut to the length that its header gives. -/
def trimmed (chain : List (List UInt8)) : List (List UInt8) :=
  if (headerOf chain).len.toNat < chain.flatten.length then pbufRealloc (headerOf chain).len.toNat chain else chain

theorem trimmed_length {chain : List (List UInt8)}
    (fits : (headerOf chain).len.toNat ≤ (trimmed chain).flatten.length) :
    (trimmed chain).flatten.length = (headerOf chain).len.toNat := by
  rw [trimmed] at fits ⊢
  split
  · exact pbufRealloc_length (by omega)
  · rename_i whole
    rw [if_neg whole] at fits
    omega

/-- What `ip4_input` lets through: version 4, with all the bytes that the header promises
and the header itself in the first pbuf. -/
def ip4Trim (chain : List (List UInt8)) : Option Fragment :=
  match cut : trimmed chain with
  | [] => none
  | first :: rest =>
    if drop : (headerOf chain).v ≠ 4 ∨ first.length < (headerOf chain).hlBytes ∨
        (first :: rest).flatten.length < (headerOf chain).len.toNat ∨ (headerOf chain).hlBytes < 20 then none
    else some ⟨headerOf chain, first.drop 20 :: rest, by
      have length := @trimmed_length chain (by rw [cut]; omega)
      rw [cut, List.flatten_cons, List.length_append] at length
      rw [List.flatten_cons, List.length_append, List.length_drop]
      omega, List.cons_ne_nil _ _⟩

/-! The reassembly buffer. -/

/-- The `start` and `end` that the helper in place of the header of a queued fragment
holds. -/
def Fragment.start (f : Fragment) : Nat := f.iphdr.offsetBytes

def Fragment.stop (f : Fragment) : Nat := (f.iphdr.offsetBytes + (f.iphdr.len.toNat - f.iphdr.hlBytes)) % 65536

/-- `pbuf_clen` -/
def Fragment.clen (f : Fragment) : Nat := f.data.length

/-- `struct ip_reassdata`; `last` is the flag `IP_REASS_FLAG_LASTFRAG`. -/
structure Reassdata where
  iphdr : IpHdr
  p : List Fragment
  datagramLen : Nat
  last : Bool
  timer : Nat

def Reassdata.clen (ipr : Reassdata) : Nat := (ipr.p.map Fragment.clen).sum

structure Buffer where
  reassdatagrams : List Reassdata
  pbufcount : Nat

/-- What the code does that C leaves undefined; for the second free of a fragment, with
the buffer as it is then. -/
inductive Fault where
  | nullDereference
  | doubleFree (left : Buffer)

/-- `ip_reass_free_complete_datagram` looks into the first fragment before it asks
whether there is one. -/
def freeCompleteDatagram (ipr : Reassdata) : Except Fault Nat :=
  if ipr.p.isEmpty then .error .nullDereference else .ok (ipr.clen % 65536)

/-- One step of the search among the datagrams that the fragment does not belong to. -/
def older (fraghdr : IpHdr) (best : Option (Reassdata × Nat)) (r : Reassdata × Nat) : Option (Reassdata × Nat) :=
  if r.1.iphdr.addressesAndIdMatch fraghdr then best
  else match best with
    | none => some r
    | some found => if r.1.timer ≤ found.1.timer then some r else best

/-- The oldest of them and its place: the last one with the smallest timer. -/
def oldest (fraghdr : IpHdr) (list : List Reassdata) : Option (Reassdata × Nat) :=
  list.zipIdx.foldl (older fraghdr) none

def others (fraghdr : IpHdr) (list : List Reassdata) : Nat := list.countP fun r => !r.iphdr.addressesAndIdMatch fraghdr

theorem older_some {fraghdr : IpHdr} {best : Option (Reassdata × Nat)} {r found : Reassdata × Nat}
    (chosen : older fraghdr best r = some found) :
    best = some found ∨ r = found ∧ found.1.iphdr.addressesAndIdMatch fraghdr = false := by
  unfold older at chosen
  split at chosen
  · exact Or.inl chosen
  · rename_i other
    rw [Bool.not_eq_true] at other
    split at chosen
    · cases chosen
      exact Or.inr ⟨rfl, other⟩
    · split at chosen
      · cases chosen
        exact Or.inr ⟨rfl, other⟩
      · exact Or.inl chosen

theorem oldest_mem {fraghdr : IpHdr} {list : List Reassdata} {found : Reassdata × Nat}
    (search : oldest fraghdr list = some found) :
    list[found.2]? = some found.1 ∧ found.1.iphdr.addressesAndIdMatch fraghdr = false := by
  have among (candidates : List (Reassdata × Nat)) (best : Option (Reassdata × Nat))
      (result : candidates.foldl (older fraghdr) best = some found) :
      best = some found ∨ found ∈ candidates ∧ found.1.iphdr.addressesAndIdMatch fraghdr = false := by
    induction candidates generalizing best with
    | nil => exact Or.inl result
    | cons r rest ih =>
      obtain earlier | ⟨inside, other⟩ := ih _ result
      · obtain before | ⟨rfl, other⟩ := older_some earlier
        · exact Or.inl before
        · exact Or.inr ⟨List.mem_cons_self, other⟩
      · exact Or.inr ⟨List.mem_cons_of_mem _ inside, other⟩
  obtain impossible | ⟨inside, other⟩ := among _ _ search
  · cases impossible
  · exact ⟨List.mem_zipIdx_iff_getElem?.mp inside, other⟩

theorem oldest_lt {fraghdr : IpHdr} {list : List Reassdata} {found : Reassdata × Nat}
    (search : oldest fraghdr list = some found) : found.2 < list.length :=
  (List.getElem?_eq_some_iff.mp (oldest_mem search).1).1

/-- `ip_reass_remove_oldest_datagram`: one datagram after the other, until as many pbufs
are free as the fragment needs or no other datagram was left. -/
def removeOldestDatagram (fraghdr : IpHdr) (needed freed : Nat) (s : Buffer) : Except Fault (Nat × Buffer) :=
  match _ : oldest fraghdr s.reassdatagrams with
  | none => .ok (freed, s)
  | some (ipr, i) =>
    match freeCompleteDatagram ipr with
    | .error fault => .error fault
    | .ok current =>
      let rest : Buffer := ⟨s.reassdatagrams.eraseIdx i, (s.pbufcount + 65536 - current) % 65536⟩
      if freed + current < needed ∧ 1 < others fraghdr s.reassdatagrams then
        removeOldestDatagram fraghdr needed (freed + current) rest
      else .ok (freed + current, rest)
termination_by s.reassdatagrams.length
decreasing_by
  have inside : i < s.reassdatagrams.length := oldest_lt (by assumption)
  rw [List.length_eraseIdx_of_lt inside]
  omega

/-- The limit on queued pbufs, `IP_REASS_MAX_PBUFS`; the answer is whether the fragment
may stay. -/
def makeRoom (fraghdr : IpHdr) (clen : Nat) (s : Buffer) : Except Fault (Bool × Buffer) :=
  if s.pbufcount + clen > 10 then
    match removeOldestDatagram fraghdr clen 0 s with
    | .error fault => .error fault
    | .ok (freed, s) => .ok (decide (freed ≠ 0 ∧ s.pbufcount + clen ≤ 10), s)
  else .ok (true, s)

/-- `ip_reass_enqueue_new_datagram`; `memory` is whether its two allocations succeed. -/
def enqueueNewDatagram (memory : Bool × Bool) (fraghdr : IpHdr) (clen : Nat) (s : Buffer) :
    Except Fault (Option Reassdata × Buffer) :=
  let new : Reassdata := ⟨fraghdr, [], 0, false, 15⟩
  if memory.1 then .ok (some new, { s with reassdatagrams := new :: s.reassdatagrams })
  else
    match removeOldestDatagram fraghdr clen 0 s with
    | .error fault => .error fault
    | .ok (freed, s) =>
      if clen ≤ freed ∧ memory.2 then .ok (some new, { s with reassdatagrams := new :: s.reassdatagrams })
      else .ok (none, s)

/-- The assignments through the pointer to a datagram, the first one that matches. -/
def store (ipr : Reassdata) : List Reassdata → List Reassdata
  | [] => []
  | r :: rest => if r.iphdr.addressesAndIdMatch ipr.iphdr then ipr :: rest else r :: store ipr rest

/-- The datagram of a fragment; a fragment at offset zero brings the header if the one
kept is of another. -/
def findDatagram (memory : Bool × Bool) (f : Fragment) (s : Buffer) : Except Fault (Option Reassdata × Buffer) :=
  match s.reassdatagrams.find? fun r => r.iphdr.addressesAndIdMatch f.iphdr with
  | none => enqueueNewDatagram memory f.iphdr f.clen s
  | some ipr =>
    if f.iphdr.offset.toNat % 8192 = 0 ∧ ipr.iphdr.offset.toNat % 8192 ≠ 0 then
      let ipr := { ipr with iphdr := f.iphdr }
      .ok (some ipr, { s with reassdatagrams := store ipr s.reassdatagrams })
    else .ok (some ipr, s)

/-- The loop of `ip_reass_chain_frag_into_datagram_and_validate`, at the rest of the queue
behind `prev`: the rest with the new fragment in it, what comes behind the new fragment,
and whether there was no hole so far. `none` is `freepbuf`. -/
def chainFrag (new : Fragment) (prev : Option Fragment) (valid : Bool) :
    List Fragment → Option (List Fragment × List Fragment × Bool)
  | [] => some ([new], [], valid && prev.all fun prev => prev.stop == new.start)
  | q :: rest =>
    if new.start < q.start then
      match prev with
      | some prev =>
        if new.start < prev.stop ∨ q.start < new.stop then none
        else some (new :: q :: rest, q :: rest, valid && prev.stop == new.start)
      | none => if q.start < new.stop then none else some (new :: q :: rest, q :: rest, valid)
    else if new.start = q.start then none
    else if new.start < q.stop then none
    else
      match chainFrag new (some q) (valid && prev.all fun prev => prev.stop == q.start) rest with
      | none => none
      | some (queue, behind, valid) => some (q :: queue, behind, valid)

/-- The second loop, over what comes behind a fragment. -/
def noHoles : Fragment → List Fragment → Bool
  | _, [] => true
  | prev, q :: rest => if prev.stop = q.start then noHoles q rest else false

/-- `ip_reass_chain_frag_into_datagram_and_validate`: the new queue, and whether it is
complete. `none` is `IP_REASS_VALIDATE_PBUF_DROPPED`. -/
def chainAndValidate (ipr : Reassdata) (new : Fragment) (isLast : Bool) : Option (List Fragment × Bool) :=
  if new.iphdr.len.toNat < new.iphdr.hlBytes then none
  else if new.stop < new.start then none
  else
    match chainFrag new none true ipr.p with
    | none => none
    | some (queue, behind, valid) =>
      let begins := queue.head?.any fun first => first.start == 0
      some (queue, (isLast || ipr.last) && valid && begins && noHoles new behind)

/-- A datagram as it is handed on. -/
structure Datagram where
  iphdr : IpHdr
  data : List (List UInt8)

/-- The header of a datagram of a length: that of its first fragment, without a fragment
offset, and with a checksum of its own. -/
def wholeHdr (iphdr : IpHdr) (datagramLen : Nat) : IpHdr :=
  let iphdr := { iphdr with len := (datagramLen + 20).toUInt16, offset := 0, chksum := 0 }
  { iphdr with chksum := (OnesComplement.swap (inetChksum ⟨false, iphdr.bytes, by
    simp [IpHdr.bytes, littleEndian_length]⟩)).toUInt16 }

/-- What `ip4_reass` does with a fragment and its datagram. The fragment that is dropped
from the queue was freed there, and taken off a counter that it was never added to; it
is freed again. -/
def addFragment (f : Fragment) (ipr : Reassdata) (s : Buffer) : Except Fault (Option Datagram × Buffer) :=
  let isLast := !f.iphdr.more
  let datagramLen := (f.iphdr.offsetBytes + (f.iphdr.len.toNat - f.iphdr.hlBytes)) % 65536
  if isLast ∧ (datagramLen < f.iphdr.offsetBytes ∨ 0xffff - 20 < datagramLen) then .ok (none, s)
  else
    match chainAndValidate ipr f isLast with
    | none => .error (.doubleFree { s with pbufcount := (s.pbufcount + 65536 - f.clen % 65536) % 65536 })
    | some (queue, finished) =>
      let count := (s.pbufcount + f.clen) % 65536
      let ipr := { ipr with
        p := queue
        datagramLen := if isLast then datagramLen else ipr.datagramLen
        last := ipr.last || isLast }
      if finished then
        .ok (some ⟨wholeHdr ipr.iphdr ipr.datagramLen, queue.flatMap Fragment.data⟩,
          ⟨s.reassdatagrams.eraseP fun r => r.iphdr.addressesAndIdMatch f.iphdr,
            (count + 65536 - ipr.clen % 65536) % 65536⟩)
      else .ok (none, ⟨store ipr s.reassdatagrams, count⟩)

/-- The part of `ip4_reass` behind the limit. -/
def enqueueFragment (memory : Bool × Bool) (f : Fragment) (s : Buffer) : Except Fault (Option Datagram × Buffer) :=
  match findDatagram memory f s with
  | .error fault => .error fault
  | .ok (none, s) => .ok (none, s)
  | .ok (some ipr, s) => addFragment f ipr s

def ip4Reass (memory : Bool × Bool) (f : Fragment) (s : Buffer) : Except Fault (Option Datagram × Buffer) :=
  if f.iphdr.hlBytes ≠ 20 then .ok (none, s)
  else if f.iphdr.len.toNat < f.iphdr.hlBytes then .ok (none, s)
  else
    match makeRoom f.iphdr f.clen s with
    | .error fault => .error fault
    | .ok (false, s) => .ok (none, s)
    | .ok (true, s) => enqueueFragment memory f s

/-- `ip_reass_tmr` -/
def ipReassTmr : List Reassdata → Except Fault (List Reassdata × Nat)
  | [] => .ok ([], 0)
  | r :: rest =>
    if 0 < r.timer then
      match ipReassTmr rest with
      | .error fault => .error fault
      | .ok (kept, freed) => .ok ({ r with timer := r.timer - 1 } :: kept, freed)
    else
      match freeCompleteDatagram r, ipReassTmr rest with
      | .error fault, _ => .error fault
      | .ok _, .error fault => .error fault
      | .ok current, .ok (kept, freed) => .ok (kept, current + freed)

def tick (s : Buffer) : Except Fault Buffer :=
  match ipReassTmr s.reassdatagrams with
  | .error fault => .error fault
  | .ok (kept, freed) => .ok ⟨kept, (s.pbufcount + 65536 - freed % 65536) % 65536⟩

end Aurora.Lwip.Reassembly
