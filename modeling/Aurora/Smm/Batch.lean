import Mathlib.Data.List.Nodup
import Aurora.Ring.Order
import Aurora.Smm.Transmit

/-! Several messages in one SMI. The output branch of the driver is meant to
send everything that waits in the OUT ring. It looks up the NIC's position once,
so every frame goes to the same descriptor, while the NIC moves on after the
first: the second frame is not seen, and what the NIC finds when it polls next
is the cleared buffer. -/
namespace Aurora.Smm.Transmit
open Lib Pcnet

/-- The messages that wait for their receiver, in the order it takes them. -/
def waiting (decrypt : Decryption) (d : Direction) (shm : Memory) : List (List UInt8) :=
  (List.range maxEntry).filterMap (held decrypt d shm)

/-- Everything that was handed over can be decrypted. -/
def Authentic (decrypt : Decryption) (d : Direction) (shm : Memory) : Prop :=
  ∀ i < maxEntry, shm (d.owner i) = d.receiver → held decrypt d shm i ≠ none

section Drain
variable {decrypt : Decryption} {d : Direction} {shm : Memory}

theorem waiting_nil (unowned : search d d.receiver shm = none) : waiting decrypt d shm = [] := by
  rw [waiting, List.filterMap_eq_nil_iff]
  intro i member
  exact if_neg (search_none.mp unowned i (List.mem_range.mp member))

theorem held_flip {i j : Nat} (bound : i < maxEntry) (small : j < maxEntry) (other : j ≠ i) :
    held decrypt d (shm.apply [flip d i d.sender]) j = held decrypt d shm j :=
  held_apart decrypt (flip_apart shm d.sender bound) small (fun same => other same.2.symm)

/-- A get takes the first of the waiting messages, and leaves the others. -/
theorem waiting_cons {i : Nat} (found : search d d.receiver shm = some i)
    (opened : held decrypt d shm i = some message) :
    waiting decrypt d shm = message :: waiting decrypt d (shm.apply [flip d i d.sender]) := by
  have bound := (search_some.mp found).1
  obtain ⟨_, before, after, split, earlier⟩ := List.find?_eq_some_iff_append.mp found
  have distinct : (before ++ i :: after).Nodup := split ▸ List.nodup_range
  have inside : ∀ j ∈ before ++ i :: after, j < maxEntry := by
    intro j member
    rw [← split] at member
    exact List.mem_range.mp member
  have skipped : ∀ j ∈ before, held decrypt d shm j = none := by
    intro j member
    have unowned := earlier j member
    exact if_neg (by simpa using unowned)
  have kept : ∀ j ∈ before ++ after,
      held decrypt d (shm.apply [flip d i d.sender]) j = held decrypt d shm j := by
    intro j member
    refine held_flip bound (inside j ?_) ?_
    · simp only [List.mem_append, List.mem_cons] at member ⊢
      tauto
    · rintro rfl
      exact (List.nodup_middle.mp distinct).notMem member
  have taken : held decrypt d (shm.apply [flip d i d.sender]) i = none :=
    held_free decrypt (flip_same shm d.sender)
  have unseen : ∀ j ∈ before, held decrypt d (shm.apply [flip d i d.sender]) j = none :=
    fun j member => (kept j (List.mem_append_left _ member)).trans (skipped j member)
  have rest : after.filterMap (held decrypt d (shm.apply [flip d i d.sender])) =
      after.filterMap (held decrypt d shm) :=
    List.filterMap_congr fun j member => kept j (List.mem_append_right _ member)
  simp only [waiting, split, List.filterMap_append, List.filterMap_cons, opened, taken, rest,
    List.filterMap_eq_nil_iff.mpr skipped, List.filterMap_eq_nil_iff.mpr unseen, List.nil_append]

theorem Authentic.flip {i : Nat} (authentic : Authentic decrypt d shm) (bound : i < maxEntry) :
    Authentic decrypt d (shm.apply [flip d i d.sender]) := by
  intro j small owned
  by_cases same : j = i
  · subst same
    exact absurd ((flip_same shm d.sender).symm.trans owned) d.sender_ne_receiver
  · have apart : Apart d i shm (shm.apply [Aurora.flip d i d.sender]) := flip_apart shm d.sender bound
    have kept := (apart d j small (fun equal => same equal.2.symm)).1
    rw [held_flip bound small same]
    exact authentic j small (kept.symm.trans owned)

end Drain

/-- The loop sends the waiting messages one after the other, and nothing else. -/
theorem txEnclavePacket_waiting {p : Platform} {decrypt : Decryption} {shm : Memory} {rounds : Nat}
    (reply : Reply) (d : Driver) (within : isWithinSmram p.smmTmp.addr msgSize = true)
    (authentic : Authentic decrypt .outbound shm)
    (enough : (waiting decrypt .outbound shm).length < rounds) :
    (txEnclavePacket p decrypt rounds reply shm d).map Prod.fst =
      (waiting decrypt .outbound shm).foldlM (sendMessage p) d := by
  induction rounds generalizing reply shm d with
  | zero => omega
  | succ rounds ih =>
    cases found : search .outbound Direction.outbound.receiver shm with
    | none =>
      rw [waiting_nil found]
      simp only [txEnclavePacket, Network.getOutBuffer, get, within, if_true, getMessage, found,
        Option.map_some, List.foldlM_nil]
      rfl
    | some i =>
      obtain ⟨bound, owned, _⟩ := search_some.mp found
      obtain ⟨message, opened⟩ := Option.ne_none_iff_exists'.mp (authentic i bound owned)
      have clear := (held_owned decrypt owned).symm.trans opened
      rw [waiting_cons found opened] at enough ⊢
      rw [List.foldlM_cons]
      simp only [txEnclavePacket, Network.getOutBuffer, get, within, if_true, getMessage, found, clear,
        Reply.after]
      cases sent : sendMessage p d message with
      | none => rfl
      | some after =>
        rw [List.length_cons] at enough
        exact ih _ after (authentic.flip bound) (by omega)

/-- The NIC as the OS driver leaves it: running, somewhere in a ring of 16, with
no frame of the OS pending. -/
structure Ready (nic : Nic) : Prop where
  on : nic.txOn = true
  size : nic.xmtrl = txRingSize
  low : 1 ≤ nic.xmtrc
  high : nic.xmtrc ≤ txRingSize
  idle : nic.OwnsNothing

/-- The NIC has gone one descriptor past the one the driver writes to. -/
structure Passed (d : Driver) : Prop where
  on : d.nic.txOn = true
  size : d.nic.xmtrl = txRingSize
  low : 1 ≤ d.xmtrc
  high : d.xmtrc ≤ txRingSize
  next : d.nic.xmtrc = if d.xmtrc ≤ 1 then txRingSize else d.xmtrc - 1
  alone : d.nic.OwnsOnly (txRingSize - d.xmtrc)
  clear : d.Clear

section Send
variable {p : Platform} {message : List UInt8} {d : Driver}

/-- A message that fits is offered in the driver's descriptor, and the NIC is rung. -/
theorem sendMessage_demand (fits : ulen p message ≤ txFrameSize) :
    ∃ after transmitted, sendMessage p d message = some after ∧ after.Clear ∧
      transmitted = (d.nic.setDesc (txRingSize - d.xmtrc) (Driver.txDesc p (ulen p message))).demand
        (((load p message d).offer p (ulen p message)).dma p) ∧
      after.xmtrc = d.xmtrc ∧ after.nic = transmitted.2 ∧ after.sent = d.sent ++ transmitted.1 := by
  rw [sendMessage, if_neg (Nat.not_lt.mpr fits)]
  refine ⟨_, _, rfl, Driver.clearFrame_clear, rfl, ?_, ?_, ?_⟩ <;>
    simp [Driver.doPcnet32Transmit, Driver.clearFrame, load]

/-- The first frame of an SMI goes out as it is. -/
theorem sendMessage_first (ready : Ready d.nic) (same : d.xmtrc = d.nic.xmtrc) (clear : d.Clear)
    (fits : ulen p message ≤ txFrameSize) :
    ∃ after, sendMessage p d message = some after ∧ Passed after ∧ after.nic.OwnsNothing ∧
      after.sent = d.sent ++ [wireFrame p message] := by
  obtain ⟨after, transmitted, sent, cleared, rung, kept, nic, wire⟩ := sendMessage_demand (d := d) fits
  obtain ⟨on, size, low, high, idle⟩ := ready
  have index : txRingSize - d.xmtrc = d.nic.index := by rw [Nic.index, size, same]
  have nonempty : 0 < d.nic.xmtrl := by rw [size]; decide
  rw [index, Nic.demand_here on nonempty idle (Driver.txDesc_whole p fits), Driver.txDesc_bcnt p fits,
    clear.presents fits] at rung
  have free : after.nic.OwnsNothing := by
    rw [nic, rung]
    exact Nic.OwnsOnly.txdone ((idle.only _).setDesc _)
  rw [rung] at nic wire
  refine ⟨after, sent, ⟨?_, ?_, ?_, ?_, ?_, free.only _, cleared⟩, free, wire⟩
  · rw [nic]
    exact on
  · rw [nic]
    exact size
  · rwa [kept, same]
  · rwa [kept, same]
  · rw [nic, kept, same, ← size]
    rfl

/-- Every later one is written behind the NIC's back: it waits for the NIC to
come round, and the buffer is cleared under it. -/
theorem sendMessage_later (passed : Passed d) (fits : ulen p message ≤ txFrameSize) :
    ∃ after, sendMessage p d message = some after ∧ Passed after ∧ after.sent = d.sent ∧
      after.nic.ring (txRingSize - after.xmtrc) = Driver.txDesc p (ulen p message) ∧
      after.nic.tdmd = true := by
  obtain ⟨after, transmitted, sent, cleared, rung, kept, nic, wire⟩ := sendMessage_demand (d := d) fits
  obtain ⟨on, size, low, high, next, alone, _⟩ := passed
  have other : d.nic.index ≠ txRingSize - d.xmtrc ∧ d.nic.index < d.nic.xmtrl := by
    simp only [Nic.index, size, next, txRingSize] at *
    split <;> omega
  have free : d.nic.current.own = false := alone _ other.2 other.1
  rw [Nic.demand_elsewhere on other.1 free] at rung
  rw [rung] at nic wire
  refine ⟨after, sent, ⟨?_, ?_, ?_, ?_, ?_, ?_, cleared⟩, ?_, ?_, ?_⟩
  · rw [nic]
    exact on
  · rw [nic]
    exact size
  · rwa [kept]
  · rwa [kept]
  · rw [nic, kept]
    exact next
  · rw [nic, kept]
    exact alone.setDesc _
  · rw [wire, List.append_nil]
  · rw [nic, kept]
    exact if_pos rfl
  · rw [nic]
    rfl

end Send

/-- All but the first message of an SMI leave the wire untouched. -/
theorem sendMessage_rest {p : Platform} {messages : List (List UInt8)} {d : Driver} (passed : Passed d)
    (fits : ∀ message ∈ messages, ulen p message ≤ txFrameSize) :
    ∃ after, messages.foldlM (sendMessage p) d = some after ∧ Passed after ∧ after.sent = d.sent := by
  induction messages generalizing d with
  | nil => exact ⟨d, rfl, passed, rfl⟩
  | cons message rest ih =>
    obtain ⟨next, sent, passed, same, _⟩ := sendMessage_later passed (fits message List.mem_cons_self)
    obtain ⟨after, others, passed, still⟩ :=
      ih passed (fun other member => fits other (List.mem_cons_of_mem message member))
    refine ⟨after, ?_, passed, still.trans same⟩
    rw [List.foldlM_cons, sent]
    exact others

section Poll
variable {p : Platform} {d : Driver}

theorem poll_nothing (on : d.nic.txOn = true) (free : d.nic.current.own = false) :
    (d.poll p).sent = d.sent := by
  have nothing : d.nic.poll (d.dma p) = ([], d.nic) := by
    rw [Nic.poll, Nic.transmit_none on free]
    exact ite_self _
  simp only [Driver.poll, nothing, List.append_nil]

/-- A frame left behind is sent from the cleared buffer. -/
theorem poll_left_behind (passed : Passed d) (short : len ≤ txFrameSize)
    (behind : d.nic.ring (txRingSize - d.xmtrc) = Driver.txDesc p len) (tdmd : d.nic.tdmd = true) :
    (d.backdoorStep2.poll p).sent = d.sent ++ [List.replicate (max len 64) 0] := by
  obtain ⟨on, size, low, high, _, alone, clear⟩ := passed
  have index : d.backdoorStep2.nic.index = txRingSize - d.xmtrc := congrArg (· - d.xmtrc) size
  have current : d.backdoorStep2.nic.current = Driver.txDesc p len := by
    rw [Nic.current, index]
    exact behind
  have running : d.backdoorStep2.nic.txOn = true := on
  have nonempty : 0 < d.backdoorStep2.nic.xmtrl := Nat.lt_of_lt_of_eq (by decide) size.symm
  have only : d.backdoorStep2.nic.OwnsOnly d.backdoorStep2.nic.index := by
    rw [index]
    exact alone
  have demanded : d.backdoorStep2.nic.tdmd = true := tdmd
  have zeros : (d.backdoorStep2.dma p).read p.txFrame (max len 64) =
      List.replicate (max len 64) 0 := by
    have small : max len 64 ≤ txFrameSize := by
      simp only [txFrameSize] at *
      omega
    rw [Driver.dma_txFrame small]
    exact Memory.read_const fun k bound => clear _ (by omega)
  have polled : (d.backdoorStep2.nic.poll (d.backdoorStep2.dma p)).1 =
      [List.replicate (max len 64) 0] := by
    rw [Nic.poll, if_pos (by simp [demanded]), Nic.transmit_one running nonempty only
      (current ▸ Driver.txDesc_whole p short), current, Driver.txDesc_bcnt p short]
    exact congrArg (fun frame => [frame]) zeros
  exact congrArg (d.sent ++ ·) polled

/-- The NIC is back where the driver found it, and that descriptor is free. -/
theorem poll_restored (on : d.nic.txOn = true) (size : d.nic.xmtrl = txRingSize) (low : 1 ≤ d.xmtrc)
    (idle : d.nic.OwnsNothing) : (d.backdoorStep2.poll p).sent = d.sent := by
  have running : d.backdoorStep2.nic.txOn = true := on
  have inside : d.nic.xmtrl - d.xmtrc < d.nic.xmtrl := by
    simp only [size, txRingSize]
    omega
  have free : d.backdoorStep2.nic.current.own = false := idle _ inside
  exact poll_nothing running free

/-- The fate of the messages of one SMI, from the NIC's position on. -/
theorem sendMessages_wire {messages : List (List UInt8)} (ready : Ready d.nic)
    (same : d.xmtrc = d.nic.xmtrc) (clear : d.Clear)
    (fits : ∀ message ∈ messages, ulen p message ≤ txFrameSize) :
    ∃ after, messages.foldlM (sendMessage p) d = some after ∧
      after.sent = d.sent ++ (messages.take 1).map (wireFrame p) ∧
      (after.backdoorStep2.poll p).sent = after.sent ++ (messages.drop 1).getLast?.toList.map
        (fun last => List.replicate (max (ulen p last) 64) 0) := by
  cases messages with
  | nil =>
    refine ⟨d, rfl, (List.append_nil _).symm, ?_⟩
    rw [poll_restored ready.on ready.size (same ▸ ready.low) ready.idle]
    exact (List.append_nil _).symm
  | cons first rest =>
    obtain ⟨next, sent, passed, idle, wire⟩ :=
      sendMessage_first ready same clear (fits first List.mem_cons_self)
    rw [List.foldlM_cons, sent, Option.bind_eq_bind, Option.bind_some]
    rcases List.eq_nil_or_concat rest with rfl | ⟨front, last, rfl⟩
    · refine ⟨next, rfl, wire, ?_⟩
      rw [poll_restored passed.on passed.size passed.low idle]
      exact (List.append_nil _).symm
    · rw [List.concat_eq_append] at fits ⊢
      obtain ⟨before, others, passed, quiet⟩ := sendMessage_rest passed
        (fun message member => fits message (List.mem_cons_of_mem _ (List.mem_append_left _ member)))
      have short := fits last (by simp)
      obtain ⟨after, final, passed, still, behind, tdmd⟩ := sendMessage_later passed short
      refine ⟨after, ?_, ?_, ?_⟩
      · rw [List.foldlM_append, others, Option.bind_eq_bind, Option.bind_some, List.foldlM_cons, final,
          Option.bind_eq_bind, Option.bind_some]
        rfl
      · rw [still, quiet, wire]
        rfl
      · rw [poll_left_behind passed short behind tdmd]
        simp

end Poll

section Output
variable {p : Platform} {decrypt : Decryption} {shm : Memory} {d : Driver}

theorem waiting_length (decrypt : Decryption) (e : Direction) (shm : Memory) :
    (waiting decrypt e shm).length ≤ maxEntry := by
  have most := List.length_filterMap_le (held decrypt e shm) (List.range maxEntry)
  rwa [List.length_range] at most

/-- What an SMI puts on the wire: the first waiting message at once, and for any
number of others a single frame of zeros when the NIC polls next. -/
theorem output_wire (ready : Ready d.nic) (clear : d.Clear)
    (within : isWithinSmram p.smmTmp.addr msgSize = true) (authentic : Authentic decrypt .outbound shm)
    (fits : ∀ message ∈ waiting decrypt .outbound shm, ulen p message ≤ txFrameSize) :
    ∃ done taken, output p decrypt shm d = some (done, taken) ∧
      done.sent = d.sent ++ ((waiting decrypt .outbound shm).take 1).map (wireFrame p) ∧
      (done.poll p).sent = done.sent ++ ((waiting decrypt .outbound shm).drop 1).getLast?.toList.map
        (fun last => List.replicate (max (ulen p last) 64) 0) := by
  have enough := Nat.lt_succ_of_le (waiting_length decrypt .outbound shm)
  have loop := txEnclavePacket_waiting ⟨p.smmTmp.byte.read 0 msgSize, 0⟩ d.backdoorStep1 within
    authentic enough
  have found : Ready d.backdoorStep1.nic := ⟨ready.on, ready.size, ready.low, ready.high, ready.idle⟩
  obtain ⟨after, sends, wire, polled⟩ := sendMessages_wire found rfl clear fits
  rw [sends] at loop
  obtain ⟨⟨last, taken⟩, drained, rfl⟩ := Option.map_eq_some_iff.mp loop
  refine ⟨last.backdoorStep2, taken, ?_, wire, polled⟩
  rw [output, drained]
  rfl

end Output

/-- What a queue holds is what waits. -/
theorem waiting_queue {aead : Aead 16} {e : Direction} {shm : Memory} {head : Nat}
    {messages : List (List UInt8)} (queue : Order.Queue aead e shm head messages) :
    waiting aead.decrypt e shm = messages := by
  induction messages generalizing shm head with
  | nil =>
    refine waiting_nil (search_none.mpr fun i bound owned => ?_)
    exact e.sender_ne_receiver ((queue.all_free i bound).symm.trans owned)
  | cons message rest ih =>
    obtain ⟨taken, drained⟩ := queue.get
    obtain ⟨_, nothing⟩ | ⟨i, bound, owned, least, result⟩ := getMessage_cases aead.decrypt e shm
    · cases nothing.symm.trans taken
    obtain ⟨_, forged⟩ | ⟨opened, plain, received⟩ := result
    · cases forged.symm.trans taken
    · cases received.symm.trans taken
      have found : search e e.receiver shm = some head := search_some.mpr ⟨bound, owned, least⟩
      rw [waiting_cons found ((held_owned aead.decrypt owned).trans plain), ih drained]

theorem queue_authentic {aead : Aead 16} {e : Direction} {shm : Memory} {messages : List (List UInt8)}
    (queue : Order.Queue aead e shm 0 messages) : Authentic aead.decrypt e shm := by
  intro i bound owned
  have inside : i < messages.length := by
    by_contra outside
    exact e.sender_ne_receiver ((queue.free i bound (Or.inr (by omega))).symm.trans owned)
  have packet := queue.packets i inside
  rw [Nat.zero_add] at packet
  rw [held_owned aead.decrypt owned, packet, aead.decrypt_encrypt]
  exact Option.some_ne_none _

theorem wireFrame_head {p : Platform} {message : List UInt8} (long : 1 ≤ ulen p message) :
    (wireFrame p message).head? = some 0xf4 := by
  obtain ⟨rest, size⟩ := Nat.exists_eq_add_of_le long
  have first : smmTmp p message 4 = 0xf4 := by
    have hop := smmTmp_nextHop p message
    rw [nextHop_eq] at hop
    exact (List.cons.inj hop).1
  rw [wireFrame, size, Memory.read_append]
  exact congrArg some first

section Output
variable {p : Platform} {decrypt : Decryption} {shm : Memory} {d : Driver}

/-- One SMI sends every waiting message, and nothing else, exactly if there is
at most one: counted up to the end of the SMI, or with the NIC's next poll. -/
theorem batched_output_complete_iff (ready : Ready d.nic) (clear : d.Clear)
    (secure : ∀ k < msgSize, InSmram (p.smmTmp.addr + k)) (authentic : Authentic decrypt .outbound shm)
    (valid : ∀ message ∈ waiting decrypt .outbound shm,
      1 ≤ ulen p message ∧ ulen p message ≤ txFrameSize) :
    ∃ done taken, output p decrypt shm d = some (done, taken) ∧
      (done.sent.Perm (d.sent ++ (waiting decrypt .outbound shm).map (wireFrame p)) ↔
        (waiting decrypt .outbound shm).length ≤ 1) ∧
      ((done.poll p).sent.Perm (d.sent ++ (waiting decrypt .outbound shm).map (wireFrame p)) ↔
        (waiting decrypt .outbound shm).length ≤ 1) := by
  obtain ⟨done, taken, ran, wire, polled⟩ := output_wire ready clear
    (isWithinSmram_of_inside secure (by decide) (by decide)) authentic
    (fun message member => (valid message member).2)
  refine ⟨done, taken, ran, ?_⟩
  rw [polled, wire, List.append_assoc, List.perm_append_left_iff, List.perm_append_left_iff]
  generalize waiting decrypt .outbound shm = messages at valid
  match messages with
  | [] => simp
  | [_] => simp
  | first :: second :: rest =>
    have many : ¬ (first :: second :: rest).length ≤ 1 := by simp
    refine ⟨iff_of_false (fun same => ?_) many, iff_of_false (fun same => ?_) many⟩
    · have size := same.length_eq
      simp at size
    · -- Every frame starts with the next hop's address, the one sent by the poll with a zero.
      have kept := (List.perm_cons _).mp same
      obtain ⟨last, final⟩ : ∃ last, (second :: rest).getLast? = some last :=
        ⟨_, List.getLast?_eq_some_getLast (List.cons_ne_nil second rest)⟩
      have zeros : List.replicate (max (ulen p last) 64) 0 ∈ (second :: rest).map (wireFrame p) := by
        refine kept.subset ?_
        simp [final]
      obtain ⟨message, member, equal⟩ := List.mem_map.mp zeros
      have start := wireFrame_head (valid message (List.mem_cons_of_mem first member)).1
      rw [equal, List.head?_replicate, if_neg (by omega)] at start
      exact absurd start (by decide)

end Output

/-! A region with messages in it, and a frame of 60 bytes. -/

def shortMessage : List UInt8 := [60, 0, 0, 0] ++ List.replicate (msgSize - 4) 0

theorem shortMessage_whole : shortMessage.length = msgSize := by
  simp only [shortMessage, List.length_append, List.length_replicate]
  decide

theorem shortMessage_ulen (p : Platform) : ulen p shortMessage = 60 := by
  rw [ulen_eq]
  rfl

theorem started_ready : Ready started.nic :=
  ⟨rfl, rfl, by decide, by decide, fun _ _ => by simp only [started]; decide⟩

theorem exists_queue (aead : Aead 16) (e : Direction) {message : List UInt8}
    (whole : message.length = msgSize) (count : Nat) (room : count ≤ maxEntry) :
    ∃ shm, Order.Queue aead e shm 0 (List.replicate count message) := by
  induction count with
  | zero => exact ⟨freshRing, .empty fun i bound => freshRing_owner e bound⟩
  | succ count ih =>
    obtain ⟨shm, queue⟩ := ih (by omega)
    obtain full | ⟨stores, _, queue⟩ := queue.put whole
    · rw [List.length_replicate] at full
      omega
    · exact ⟨_, List.replicate_succ' ▸ queue⟩

theorem second_frame_stays_behind :
    ∃ shm done taken, Authentic (transparent 16).decrypt .outbound shm ∧
      waiting (transparent 16).decrypt .outbound shm = [shortMessage, shortMessage] ∧
      output qemuPlatform (transparent 16).decrypt shm started = some (done, taken) ∧
      done.sent = [wireFrame qemuPlatform shortMessage] ∧
      (done.poll qemuPlatform).sent = [wireFrame qemuPlatform shortMessage, List.replicate 64 0] ∧
      ¬ (done.poll qemuPlatform).sent.Perm
        [wireFrame qemuPlatform shortMessage, wireFrame qemuPlatform shortMessage] := by
  obtain ⟨shm, queue⟩ : ∃ shm, Order.Queue (transparent 16) .outbound shm 0
      [shortMessage, shortMessage] := exists_queue _ _ shortMessage_whole 2 (by decide)
  have both := waiting_queue queue
  have fits : ∀ message ∈ waiting (transparent 16).decrypt .outbound shm,
      ulen qemuPlatform message ≤ txFrameSize := by
    simp [both, shortMessage_ulen, txFrameSize]
  obtain ⟨done, taken, ran, wire, polled⟩ := output_wire started_ready (fun _ _ => rfl)
    (isWithinSmram_of_inside qemuPlatform_secure (by decide) (by decide)) (queue_authentic queue) fits
  have last : max (ulen qemuPlatform shortMessage) 64 = 64 := by rw [shortMessage_ulen]; rfl
  have sent : done.sent = [wireFrame qemuPlatform shortMessage] := by
    rw [wire, both]
    rfl
  have later : (done.poll qemuPlatform).sent =
      [wireFrame qemuPlatform shortMessage, List.replicate 64 0] := by
    rw [polled, sent, both]
    exact congrArg (fun count => [_, List.replicate count 0]) last
  refine ⟨shm, done, taken, queue_authentic queue, both, ran, sent, later, fun same => ?_⟩
  rw [later] at same
  have zeros := List.perm_singleton.mp ((List.perm_cons _).mp same)
  have start : (wireFrame qemuPlatform shortMessage).head? = some 0xf4 :=
    wireFrame_head (by rw [shortMessage_ulen]; decide)
  rw [← (List.cons.inj zeros).1] at start
  exact absurd start (by decide)

theorem batched_output_complete_iff_single :
    ∃ shm done taken, (waiting (transparent 16).decrypt .outbound shm).length = 1 ∧
      output qemuPlatform (transparent 16).decrypt shm started = some (done, taken) ∧
      (done.poll qemuPlatform).sent.Perm [wireFrame qemuPlatform shortMessage] := by
  obtain ⟨shm, queue⟩ : ∃ shm, Order.Queue (transparent 16) .outbound shm 0 [shortMessage] :=
    exists_queue _ _ shortMessage_whole 1 (by decide)
  have only := waiting_queue queue
  obtain ⟨done, taken, ran, _, complete⟩ := batched_output_complete_iff started_ready
    (fun _ _ => rfl) qemuPlatform_secure (queue_authentic queue)
    (by simp [only, shortMessage_ulen, txFrameSize])
  rw [only] at complete
  exact ⟨shm, done, taken, by rw [only]; rfl, ran, complete.mpr (by decide)⟩

end Aurora.Smm.Transmit
