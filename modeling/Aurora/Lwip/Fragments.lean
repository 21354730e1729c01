import Aurora.Lwip.Reassembly

/-! What the reassembly buffer holds over whole runs: queues of received fragments in
order and apart, each fragment in one place. -/
namespace Aurora.Lwip.Reassembly
open Lib Tiling

/-! The insertion into a queue. -/
section Chain

abbrev InOrder (queue : List Fragment) : Prop := queue.Pairwise (Before Fragment.start Fragment.stop)

/-- Where the part of a queue behind `prev` has to begin if there is no hole. -/
def joint (prev : Option Fragment) (queue : List Fragment) : Nat :=
  match prev with
  | some prev => prev.stop
  | none => (queue.head?.map Fragment.start).getD 0

theorem noHoles_iff (prev : Fragment) (queue : List Fragment) :
    noHoles prev queue = true ↔ Tiles Fragment.start Fragment.stop prev.stop queue := by
  induction queue generalizing prev with
  | nil => simp [noHoles, Tiles]
  | cons q rest ih =>
    simp only [noHoles, Tiles]
    split <;> simp_all

/-- How a fragment gets into a queue: behind all that come before it and in front of the
others. -/
structure Inserted (new : Fragment) (list queue front behind : List Fragment) : Prop where
  list_eq : list = front ++ behind
  queue_eq : queue = front ++ new :: behind
  before : ∀ q ∈ front, Before Fragment.start Fragment.stop q new
  after : ∀ q ∈ behind, Before Fragment.start Fragment.stop new q

theorem Inserted.perm {new : Fragment} {list queue front behind : List Fragment}
    (inserted : Inserted new list queue front behind) : queue.Perm (new :: list) := by
  rw [inserted.list_eq, inserted.queue_eq]
  exact List.perm_middle

theorem Inserted.inOrder {new : Fragment} {list queue front behind : List Fragment}
    (inserted : Inserted new list queue front behind) (ordered : InOrder list) : InOrder queue := by
  rw [inserted.list_eq] at ordered
  rw [inserted.queue_eq]
  obtain ⟨first, second, across⟩ := List.pairwise_append.mp ordered
  refine List.pairwise_append.mpr ⟨first, List.pairwise_cons.mpr ⟨inserted.after, second⟩, ?_⟩
  intro q inside r other
  obtain rfl | later := List.mem_cons.mp other
  · exact inserted.before q inside
  · exact across q inside r later

theorem chainFrag_some {new : Fragment} {prev : Option Fragment} {valid : Bool}
    {list queue behind : List Fragment} {result : Bool} (ordered : InOrder list)
    (chained : chainFrag new prev valid list = some (queue, behind, result)) :
    ∃ front, Inserted new list queue front behind ∧
      (result = true ↔ valid = true ∧
        Tiles Fragment.start Fragment.stop (joint prev (front ++ [new])) (front ++ [new])) := by
  induction list generalizing prev valid queue with
  | nil =>
    simp only [chainFrag, Option.some.injEq, Prod.mk.injEq] at chained
    obtain ⟨rfl, rfl, rfl⟩ := chained
    refine ⟨[], ⟨rfl, rfl, by simp, by simp⟩, ?_⟩
    cases prev <;> simp [joint, Tiles]
  | cons q rest ih =>
    obtain ⟨first, ordered⟩ := List.pairwise_cons.mp ordered
    -- in front of this one the new fragment is in front of all
    have here (less : new.start < q.start) (fits : new.stop ≤ q.start) :
        ∀ r ∈ q :: rest, Before Fragment.start Fragment.stop new r := by
      intro r inside
      obtain rfl | later := List.mem_cons.mp inside
      · exact ⟨less, fits⟩
      · have := (first r later).1
        exact ⟨by omega, by omega⟩
    unfold chainFrag at chained
    split at chained
    · rename_i less
      split at chained
      all_goals
        split at chained
        · cases chained
        · rename_i clear
          simp only [Option.some.injEq, Prod.mk.injEq] at chained
          obtain ⟨rfl, rfl, rfl⟩ := chained
          exact ⟨[], ⟨rfl, rfl, by simp, here less (by omega)⟩, by simp [joint, Tiles]⟩
    · split at chained
      · cases chained
      · split at chained
        · cases chained
        · rename_i notLess other clear
          split at chained
          · cases chained
          · rename_i inner
            simp only [Option.some.injEq, Prod.mk.injEq] at chained
            obtain ⟨rfl, rfl, rfl⟩ := chained
            obtain ⟨front, inserted, linked⟩ := ih ordered inner
            refine ⟨q :: front, ⟨?_, ?_, ?_, inserted.after⟩, ?_⟩
            · rw [inserted.list_eq, List.cons_append]
            · rw [inserted.queue_eq, List.cons_append]
            · intro r inside
              obtain rfl | later := List.mem_cons.mp inside
              · exact ⟨by omega, by omega⟩
              · exact inserted.before r later
            · rw [linked]
              cases prev <;> simp [joint, Tiles, and_assoc]

theorem begins_iff {front : List Fragment} {new : Fragment} {behind : List Fragment} :
    (Tiles Fragment.start Fragment.stop (joint none (front ++ [new])) (front ++ [new]) ∧
        ((front ++ new :: behind).head?.any fun first => first.start == 0) = true) ∧
      Tiles Fragment.start Fragment.stop new.stop behind ↔
      Tiles Fragment.start Fragment.stop 0 (front ++ new :: behind) := by
  have whole : Tiles Fragment.start Fragment.stop 0 (front ++ new :: behind) ↔
      Tiles Fragment.start Fragment.stop 0 (front ++ [new]) ∧
        Tiles Fragment.start Fragment.stop new.stop behind := by
    rw [List.append_cons front new behind, tiles_append, reach_concat]
  rw [whole]
  cases front with
  | nil => simp [joint, Tiles, eq_comm (a := 0)]
  | cons first rest =>
    simp only [List.cons_append, joint, Tiles, List.head?_cons, Option.map_some, Option.getD_some,
      Option.any_some, beq_iff_eq, true_and, eq_comm (a := 0)]
    rw [and_comm (a := Tiles _ _ _ _)]

theorem chainAndValidate_some {ipr : Reassdata} {f : Fragment} {isLast finished : Bool} {queue : List Fragment}
    (ordered : InOrder ipr.p) (chained : chainAndValidate ipr f isLast = some (queue, finished)) :
    ∃ front behind, Inserted f ipr.p queue front behind ∧ f.start ≤ f.stop ∧
      (finished = true ↔ (isLast = true ∨ ipr.last = true) ∧ Tiles Fragment.start Fragment.stop 0 queue) := by
  unfold chainAndValidate at chained
  split at chained
  · cases chained
  · split at chained
    · cases chained
    · rename_i whole
      split at chained
      · cases chained
      · rename_i behind valid inner
        simp only [Option.some.injEq, Prod.mk.injEq] at chained
        obtain ⟨rfl, rfl⟩ := chained
        obtain ⟨front, inserted, linked⟩ := chainFrag_some ordered inner
        refine ⟨front, behind, inserted, Nat.le_of_not_lt whole, ?_⟩
        rw [inserted.queue_eq, ← begins_iff, ← noHoles_iff]
        simp only [Bool.and_eq_true, Bool.or_eq_true, linked, true_and, and_assoc]

end Chain

/-! What holds in every reachable buffer. -/
section Sound

/-- What the fragments of one datagram agree on. -/
def IpHdr.key (h : IpHdr) : UInt32 × UInt32 × UInt16 := (h.src, h.dest, h.id)

theorem addressesAndIdMatch_iff {a b : IpHdr} : a.addressesAndIdMatch b = true ↔ a.key = b.key := by
  simp [IpHdr.addressesAndIdMatch, IpHdr.key, and_assoc]

structure Queued (ipr : Reassdata) : Prop where
  ordered : InOrder ipr.p
  own : ∀ f ∈ ipr.p, f.iphdr.key = ipr.iphdr.key
  spans : ∀ f ∈ ipr.p, f.stop = f.start + f.data.flatten.length
  first : ∀ f ∈ ipr.p, f.start = 0 → f.iphdr = ipr.iphdr
  last : ipr.last = true → ∃ f ∈ ipr.p, f.iphdr.more = false ∧ ipr.datagramLen = f.stop

/-- A datagram in the buffer. The header of a first fragment is kept only together with
that fragment. -/
structure Kept (ipr : Reassdata) : Prop extends Queued ipr where
  begun : ipr.iphdr.offsetBytes = 0 → ∃ f ∈ ipr.p, f.start = 0

/-- A datagram found or made for a fragment that is not in its queue yet. -/
structure Ready (f : Fragment) (ipr : Reassdata) : Prop extends Queued ipr where
  key : f.iphdr.key = ipr.iphdr.key
  mine : f.start = 0 → f.iphdr = ipr.iphdr ∨ ∃ g ∈ ipr.p, g.start = 0
  begun : ipr.iphdr.offsetBytes = 0 → f.start = 0 ∨ ∃ g ∈ ipr.p, g.start = 0

theorem Ready.kept {f : Fragment} {ipr : Reassdata} (ready : Ready f ipr) (later : f.start ≠ 0) : Kept ipr :=
  { ready.toQueued with begun := fun zero => (ready.begun zero).resolve_left later }

theorem Ready.inserted {f : Fragment} {ipr : Reassdata} {queue front behind : List Fragment} {len : Nat} {last : Bool}
    (ready : Ready f ipr) (inserted : Inserted f ipr.p queue front behind)
    (spans : f.stop = f.start + f.data.flatten.length)
    (final : last = true → ∃ g ∈ queue, g.iphdr.more = false ∧ len = g.stop) :
    Kept { ipr with p := queue, datagramLen := len, last := last } := by
  have inside (g : Fragment) : g ∈ queue ↔ g = f ∨ g ∈ ipr.p := by
    rw [inserted.perm.mem_iff, List.mem_cons]
  -- no fragment at zero is beside another one
  have alone (zero : f.start = 0) : ¬ ∃ g ∈ ipr.p, g.start = 0 := by
    rintro ⟨g, member, other⟩
    rw [inserted.list_eq, List.mem_append] at member
    obtain before | after := member
    · have := (inserted.before g before).1
      omega
    · have := (inserted.after g after).1
      omega
  refine ⟨⟨inserted.inOrder ready.ordered, ?_, ?_, ?_, final⟩, ?_⟩
  · intro g member
    obtain rfl | old := (inside g).mp member
    · exact ready.key
    · exact ready.own g old
  · intro g member
    obtain rfl | old := (inside g).mp member
    · exact spans
    · exact ready.spans g old
  · intro g member zero
    obtain rfl | old := (inside g).mp member
    · exact (ready.mine zero).resolve_right (alone zero)
    · exact ready.first g old zero
  · intro zero
    obtain here | ⟨g, old, there⟩ := ready.begun zero
    · exact ⟨f, (inside f).mpr (Or.inl rfl), here⟩
    · exact ⟨g, (inside g).mpr (Or.inr old), there⟩

def total (list : List Reassdata) : Nat := (list.map Reassdata.clen).sum

/-- The fragments in the buffer. -/
def pending (list : List Reassdata) : List Fragment := list.flatMap Reassdata.p

@[simp] theorem total_append (before after : List Reassdata) :
    total (before ++ after) = total before + total after := by
  simp [total]

@[simp] theorem total_cons (r : Reassdata) (rest : List Reassdata) : total (r :: rest) = r.clen + total rest := by
  simp [total]

@[simp] theorem pending_append (before after : List Reassdata) :
    pending (before ++ after) = pending before ++ pending after := List.flatMap_append

@[simp] theorem pending_cons (r : Reassdata) (rest : List Reassdata) : pending (r :: rest) = r.p ++ pending rest := rfl

theorem pending_sublist {part all : List Reassdata} (fewer : part.Sublist all) :
    (pending part).Sublist (pending all) := by
  induction fewer with
  | slnil => exact List.Sublist.refl _
  | cons r _ ih => exact ih.trans (List.sublist_append_right _ _)
  | cons_cons r _ ih => exact ih.append_left _

/-- The counter of pbufs is that of the queues, and within its limit. -/
structure Sound (s : Buffer) : Prop where
  count : s.pbufcount = total s.reassdatagrams
  limit : s.pbufcount ≤ 10
  kept : ∀ ipr ∈ s.reassdatagrams, Kept ipr

theorem total_eraseIdx {list : List Reassdata} {i : Nat} {ipr : Reassdata} (here : list[i]? = some ipr) :
    total (list.eraseIdx i) + ipr.clen = total list := by
  obtain ⟨inside, rfl⟩ := List.getElem?_eq_some_iff.mp here
  have split : list = list.take i ++ list[i] :: list.drop (i + 1) := by simp
  conv_rhs => rw [split]
  rw [List.eraseIdx_eq_take_drop_succ]
  simp only [total_append, total_cons]
  omega

theorem freeCompleteDatagram_ok {ipr : Reassdata} {freed : Nat} (few : ipr.clen ≤ 10)
    (freeable : freeCompleteDatagram ipr = .ok freed) : freed = ipr.clen := by
  unfold freeCompleteDatagram at freeable
  split at freeable
  · cases freeable
  · cases freeable
    exact Nat.mod_eq_of_lt (by omega)

theorem freeCompleteDatagram_error {ipr : Reassdata} {fault : Fault}
    (failed : freeCompleteDatagram ipr = .error fault) : fault = .nullDereference := by
  unfold freeCompleteDatagram at failed
  split at failed
  · cases failed
    rfl
  · cases failed

/-- Datagrams were removed to make room. -/
structure Removed (s t : Buffer) : Prop where
  sound : Sound t
  fewer : t.reassdatagrams.Sublist s.reassdatagrams
  less : t.pbufcount ≤ s.pbufcount

theorem Removed.refl {s : Buffer} (sound : Sound s) : Removed s s := ⟨sound, List.Sublist.refl _, Nat.le_refl _⟩

theorem Removed.trans {s t u : Buffer} (first : Removed s t) (second : Removed t u) : Removed s u :=
  ⟨second.sound, second.fewer.trans first.fewer, second.less.trans first.less⟩

/-- One round of the loop in `ip_reass_remove_oldest_datagram`. -/
theorem removed_eraseIdx {s : Buffer} {ipr : Reassdata} {i current : Nat} (sound : Sound s)
    (here : s.reassdatagrams[i]? = some ipr) (freeable : freeCompleteDatagram ipr = .ok current) :
    Removed s ⟨s.reassdatagrams.eraseIdx i, (s.pbufcount + 65536 - current) % 65536⟩ := by
  have sum := total_eraseIdx here
  have count := sound.count
  have limit := sound.limit
  have all := freeCompleteDatagram_ok (by omega) freeable
  have fewer : (s.reassdatagrams.eraseIdx i).Sublist s.reassdatagrams := List.eraseIdx_sublist _ _
  refine ⟨⟨?_, ?_, fun r inside => sound.kept r (fewer.subset inside)⟩, fewer, ?_⟩ <;> dsimp only <;> omega

theorem removeOldestDatagram_ok {fraghdr : IpHdr} {needed freed result : Nat} {s t : Buffer} (sound : Sound s)
    (removed : removeOldestDatagram fraghdr needed freed s = .ok (result, t)) : Removed s t := by
  fun_induction removeOldestDatagram fraghdr needed freed s with
  | case1 freed s none =>
    cases removed
    exact .refl sound
  | case2 => cases removed
  | case3 freed s ipr i search current freeable rest again ih =>
    have step := removed_eraseIdx sound (oldest_mem search).1 freeable
    exact step.trans (ih step.sound removed)
  | case4 freed s ipr i search current freeable rest enough =>
    obtain ⟨-, rfl⟩ := Prod.mk.inj (Except.ok.inj removed)
    exact removed_eraseIdx sound (oldest_mem search).1 freeable

theorem makeRoom_ok {fraghdr : IpHdr} {clen : Nat} {s t : Buffer} {stay : Bool} (sound : Sound s)
    (made : makeRoom fraghdr clen s = .ok (stay, t)) :
    Removed s t ∧ (stay = true → t.pbufcount + clen ≤ 10) := by
  unfold makeRoom at made
  split at made
  · split at made
    · cases made
    · rename_i removed
      obtain ⟨rfl, rfl⟩ := Prod.mk.inj (Except.ok.inj made)
      exact ⟨removeOldestDatagram_ok sound removed, fun stay => (of_decide_eq_true stay).2⟩
  · obtain ⟨rfl, rfl⟩ := Prod.mk.inj (Except.ok.inj made)
    exact ⟨.refl sound, fun _ => by omega⟩

/-- The datagram of a fragment, among the others. -/
structure Opened (f : Fragment) (ipr : Reassdata) (before after : List Reassdata) (t : Buffer) : Prop where
  list_eq : t.reassdatagrams = before ++ ipr :: after
  passed : ∀ r ∈ before, r.iphdr.addressesAndIdMatch f.iphdr = false
  ready : Ready f ipr
  kept : ∀ r ∈ before ++ after, Kept r
  count : t.pbufcount = total t.reassdatagrams

theorem store_eq {ipr new : Reassdata} {before after : List Reassdata} (same : ipr.iphdr.key = new.iphdr.key)
    (passed : ∀ r ∈ before, r.iphdr.addressesAndIdMatch new.iphdr = false) :
    store new (before ++ ipr :: after) = before ++ new :: after := by
  induction before with
  | nil => simp [store, addressesAndIdMatch_iff, same]
  | cons r rest ih =>
    obtain ⟨other, passed⟩ := List.forall_mem_cons.mp passed
    simp [store, other, ih passed]

theorem Sound.enqueue {f : Fragment} {s : Buffer} (sound : Sound s) :
    Opened f ⟨f.iphdr, [], 0, false, 15⟩ [] s.reassdatagrams
      { s with reassdatagrams := ⟨f.iphdr, [], 0, false, 15⟩ :: s.reassdatagrams } where
  list_eq := rfl
  passed := by simp
  ready := ⟨⟨List.Pairwise.nil, by simp, by simp, by simp, by simp⟩, rfl, fun _ => Or.inl rfl,
    fun zero => Or.inl zero⟩
  kept := sound.kept
  count := by simp [sound.count, Reassdata.clen]

/-- What `findDatagram` leaves, with a datagram or without. -/
def Found (f : Fragment) (s : Buffer) : Option Reassdata → Buffer → Prop
  | none, t => Removed s t
  | some ipr, t => (∃ before after, Opened f ipr before after t) ∧
      (pending t.reassdatagrams).Sublist (pending s.reassdatagrams) ∧ t.pbufcount ≤ s.pbufcount

theorem enqueueNewDatagram_ok {memory : Bool × Bool} {f : Fragment} {s t : Buffer} {found : Option Reassdata}
    (sound : Sound s) (made : enqueueNewDatagram memory f.iphdr f.clen s = .ok (found, t)) : Found f s found t := by
  unfold enqueueNewDatagram at made
  split at made
  · obtain ⟨rfl, rfl⟩ := Prod.mk.inj (Except.ok.inj made)
    exact ⟨⟨_, _, sound.enqueue⟩, List.Sublist.refl _, Nat.le_refl _⟩
  · split at made
    · cases made
    · rename_i removed
      have removed := removeOldestDatagram_ok sound removed
      split at made
      · obtain ⟨rfl, rfl⟩ := Prod.mk.inj (Except.ok.inj made)
        exact ⟨⟨_, _, removed.sound.enqueue⟩, by simpa using pending_sublist removed.fewer, removed.less⟩
      · obtain ⟨rfl, rfl⟩ := Prod.mk.inj (Except.ok.inj made)
        exact removed

theorem findDatagram_ok {memory : Bool × Bool} {f : Fragment} {s t : Buffer} {found : Option Reassdata}
    (sound : Sound s) (made : findDatagram memory f s = .ok (found, t)) : Found f s found t := by
  unfold findDatagram at made
  split at made
  · exact enqueueNewDatagram_ok sound made
  · rename_i ipr search
    obtain ⟨same, before, after, layout, passed⟩ := List.find?_eq_some_iff_append.mp search
    have same := addressesAndIdMatch_iff.mp same
    have passed : ∀ r ∈ before, r.iphdr.addressesAndIdMatch f.iphdr = false :=
      fun r inside => by simpa using passed r inside
    have kept : Kept ipr := sound.kept ipr (by simp [layout])
    have others : ∀ r ∈ before ++ after, Kept r := by
      intro r inside
      refine sound.kept r ?_
      rw [layout]
      simp only [List.mem_append, List.mem_cons] at inside ⊢
      tauto
    split at made
    · rename_i replaced
      obtain ⟨rfl, rfl⟩ := Prod.mk.inj (Except.ok.inj made)
      have zero : f.start = 0 := by
        rw [Fragment.start, IpHdr.offsetBytes]
        omega
      -- the header kept so far is of a later fragment, so the first one is not here
      have missing : ∀ g ∈ ipr.p, g.start ≠ 0 := by
        intro g inside first
        have header := kept.first g inside first
        rw [Fragment.start, header, IpHdr.offsetBytes] at first
        omega
      have ready : Ready f { ipr with iphdr := f.iphdr } :=
        ⟨⟨kept.ordered, fun g inside => (kept.own g inside).trans same, kept.spans,
          fun g inside first => absurd first (missing g inside), kept.last⟩, rfl, fun _ => Or.inl rfl,
          fun _ => Or.inl zero⟩
      have stored : store { ipr with iphdr := f.iphdr } (before ++ ipr :: after) =
          before ++ { ipr with iphdr := f.iphdr } :: after := store_eq same passed
      refine ⟨⟨before, after, ?_, passed, ready, others, ?_⟩, ?_, Nat.le_refl _⟩
      · rw [layout, stored]
      · have count := sound.count
        rw [layout] at count ⊢
        rw [stored]
        simpa [Reassdata.clen] using count
      · rw [layout, stored]
        simp
    · rename_i held
      obtain ⟨rfl, rfl⟩ := Prod.mk.inj (Except.ok.inj made)
      have ready : Ready f ipr := by
        refine ⟨kept.toQueued, same.symm, fun zero => Or.inr (kept.begun ?_), fun zero => Or.inr (kept.begun zero)⟩
        rw [Fragment.start, IpHdr.offsetBytes] at zero
        rw [IpHdr.offsetBytes]
        omega
      exact ⟨⟨before, after, layout, passed, ready, others, sound.count⟩, List.Sublist.refl _, Nat.le_refl _⟩

/-- A datagram put together from fragments: they tile it from zero, each with the bytes
of its place, and belong together. The header is that of the first one; its length comes
from a fragment without the flag for more, which is not always the one at the end. -/
structure Assembled (d : Datagram) (parts : List Fragment) : Prop where
  tiles : Tiles Fragment.start Fragment.stop 0 parts
  spans : ∀ f ∈ parts, f.stop = f.start + f.data.flatten.length
  data : d.data = parts.flatMap Fragment.data
  own : ∀ f ∈ parts, f.iphdr.key = d.iphdr.key
  header : ∃ first ∈ parts, ∃ last ∈ parts, first.start = 0 ∧ last.iphdr.more = false ∧
    d.iphdr = wholeHdr first.iphdr last.stop

def Delivered : Option Datagram → List Fragment → Prop
  | none, parts => parts = []
  | some d, parts => Assembled d parts

theorem Kept.assembled {ipr : Reassdata} (kept : Kept ipr) (last : ipr.last = true) (nonempty : ipr.p ≠ [])
    (tiles : Tiles Fragment.start Fragment.stop 0 ipr.p) :
    Assembled ⟨wholeHdr ipr.iphdr ipr.datagramLen, ipr.p.flatMap Fragment.data⟩ ipr.p := by
  refine ⟨tiles, kept.spans, rfl, kept.own, ?_⟩
  obtain ⟨final, inside, clear, len⟩ := kept.last last
  obtain ⟨first, rest, split⟩ := List.exists_cons_of_ne_nil nonempty
  have here : first ∈ ipr.p := by simp [split]
  have zero : first.start = 0 := by
    rw [split] at tiles
    exact tiles.1.symm
  exact ⟨first, here, final, inside, zero, clear, by rw [kept.first first here zero, len]⟩

theorem Fragment.spans_of_le {f : Fragment} (plain : f.iphdr.hlBytes = 20) (whole : f.start ≤ f.stop) :
    f.stop = f.start + f.data.flatten.length := by
  have sized := f.sized
  have bound := f.iphdr.len.toNat_lt
  rw [Fragment.stop, ← Fragment.start, plain] at whole ⊢
  have small : f.start < 65536 := by
    rw [Fragment.start, IpHdr.offsetBytes]
    omega
  omega

theorem Inserted.clen {new : Fragment} {list queue front behind : List Fragment}
    (inserted : Inserted new list queue front behind) :
    (queue.map Fragment.clen).sum = new.clen + (list.map Fragment.clen).sum := by
  rw [inserted.queue_eq, inserted.list_eq]
  simp only [List.map_append, List.map_cons, List.sum_append, List.sum_cons]
  omega

/-- What one call adds: nothing is made up, and what is handed on leaves the buffer. -/
structure Carried (f : Fragment) (s : Buffer) (result : Option Datagram) (t : Buffer) : Prop where
  sound : Sound t
  moved : ∃ parts, Delivered result parts ∧
    (parts ++ pending t.reassdatagrams).Subperm (f :: pending s.reassdatagrams)

theorem Removed.carried {f : Fragment} {s t : Buffer} (removed : Removed s t) : Carried f s none t :=
  ⟨removed.sound, [], rfl, ((pending_sublist removed.fewer).trans (List.sublist_cons_self _ _)).subperm⟩

/-- The datagram with a fragment in its queue. -/
def Reassdata.extended (ipr : Reassdata) (f : Fragment) (queue : List Fragment) : Reassdata :=
  { ipr with
    p := queue
    datagramLen := if !f.iphdr.more then f.stop else ipr.datagramLen
    last := ipr.last || !f.iphdr.more }

theorem Ready.extended {f : Fragment} {ipr : Reassdata} {queue front behind : List Fragment} (ready : Ready f ipr)
    (inserted : Inserted f ipr.p queue front behind) (spans : f.stop = f.start + f.data.flatten.length) :
    Kept (ipr.extended f queue) := by
  refine ready.inserted inserted spans fun last => ?_
  cases more : f.iphdr.more with
  | false => exact ⟨f, by simp [inserted.queue_eq], more, by simp⟩
  | true =>
    obtain ⟨g, inside, final, len⟩ := ready.last (by simpa [more] using last)
    exact ⟨g, inserted.perm.mem_iff.mpr (List.mem_cons_of_mem _ inside), final, by simpa using len⟩

/-! What `addFragment` does. -/
section Add

/-- A last fragment that ends beyond what a datagram can hold. -/
def Fragment.TooLong (f : Fragment) : Prop := f.iphdr.more = false ∧ (f.stop < f.start ∨ 65515 < f.stop)

/-- At offset zero no length is too long. -/
theorem Fragment.TooLong.start_ne_zero {f : Fragment} (long : f.TooLong) (plain : f.iphdr.hlBytes = 20) :
    f.start ≠ 0 := by
  have bound := f.iphdr.len.toNat_lt
  have ends := long.2
  rw [Fragment.stop, ← Fragment.start, plain] at ends
  omega

variable {f : Fragment} {ipr : Reassdata} {s : Buffer}

theorem addFragment_tooLong (long : f.TooLong) : addFragment f ipr s = .ok (none, s) := by
  unfold addFragment
  exact if_pos (by simpa [Fragment.TooLong, Fragment.stop, Fragment.start] using long)

theorem addFragment_none (short : ¬ f.TooLong) (chained : chainAndValidate ipr f (!f.iphdr.more) = none) :
    addFragment f ipr s =
      .error (.doubleFree { s with pbufcount := (s.pbufcount + 65536 - f.clen % 65536) % 65536 }) := by
  unfold addFragment
  dsimp only
  rw [if_neg (by simpa [Fragment.TooLong, Fragment.stop, Fragment.start] using short), chained]

theorem addFragment_some {queue : List Fragment} {finished : Bool} (short : ¬ f.TooLong)
    (chained : chainAndValidate ipr f (!f.iphdr.more) = some (queue, finished)) :
    addFragment f ipr s =
      if finished then
        .ok (some ⟨wholeHdr ipr.iphdr (ipr.extended f queue).datagramLen, queue.flatMap Fragment.data⟩,
          ⟨s.reassdatagrams.eraseP fun r => r.iphdr.addressesAndIdMatch f.iphdr,
            ((s.pbufcount + f.clen) % 65536 + 65536 - (ipr.extended f queue).clen % 65536) % 65536⟩)
      else .ok (none, ⟨store (ipr.extended f queue) s.reassdatagrams, (s.pbufcount + f.clen) % 65536⟩) := by
  unfold addFragment
  dsimp only
  rw [if_neg (by simpa [Fragment.TooLong, Fragment.stop, Fragment.start] using short), chained]
  rfl

end Add

section Opened
variable {f : Fragment} {ipr : Reassdata} {before after : List Reassdata} {s : Buffer}

theorem Opened.forall_kept (opened : Opened f ipr before after s) {new : Reassdata} (kept : Kept new) :
    ∀ r ∈ before ++ new :: after, Kept r := by
  intro r inside
  obtain first | rfl | second := by simpa only [List.mem_append, List.mem_cons] using inside
  · exact opened.kept r (List.mem_append_left _ first)
  · exact kept
  · exact opened.kept r (List.mem_append_right _ second)

theorem Opened.stored (opened : Opened f ipr before after s) (queue : List Fragment) :
    store (ipr.extended f queue) s.reassdatagrams = before ++ ipr.extended f queue :: after := by
  rw [opened.list_eq]
  refine store_eq rfl fun r inside => ?_
  have other := opened.passed r inside
  rw [Bool.eq_false_iff, ne_eq, addressesAndIdMatch_iff, opened.ready.key] at other
  rwa [Bool.eq_false_iff, ne_eq, addressesAndIdMatch_iff]

theorem Opened.erased (opened : Opened f ipr before after s) :
    s.reassdatagrams.eraseP (fun r => r.iphdr.addressesAndIdMatch f.iphdr) = before ++ after := by
  have same := addressesAndIdMatch_iff.mpr opened.ready.key.symm
  rw [opened.list_eq, List.eraseP_append_right _ (by simpa using opened.passed),
    List.eraseP_cons_of_pos (p := fun r : Reassdata => r.iphdr.addressesAndIdMatch f.iphdr) same]

/-- The fragments, with the new one in its queue. -/
theorem Opened.moved (opened : Opened f ipr before after s) {queue front behind : List Fragment}
    (inserted : Inserted f ipr.p queue front behind) :
    (pending before ++ (queue ++ pending after)).Perm (f :: pending s.reassdatagrams) := by
  rw [opened.list_eq, pending_append, pending_cons]
  exact ((inserted.perm.append_right _).append_left _).trans List.perm_middle

/-- The fragment is queued, and the datagram waits for more. -/
theorem Opened.waiting (opened : Opened f ipr before after s) {queue front behind : List Fragment}
    (inserted : Inserted f ipr.p queue front behind) (spans : f.stop = f.start + f.data.flatten.length)
    (room : s.pbufcount + f.clen ≤ 10) :
    Carried f s none ⟨store (ipr.extended f queue) s.reassdatagrams, (s.pbufcount + f.clen) % 65536⟩ := by
  have count := opened.count
  have clen : (ipr.extended f queue).clen = f.clen + ipr.clen := inserted.clen
  rw [opened.list_eq, total_append, total_cons] at count
  rw [opened.stored]
  refine ⟨⟨?_, ?_, opened.forall_kept (opened.ready.extended inserted spans)⟩, [], rfl, ?_⟩
  · dsimp only
    rw [total_append, total_cons, clen]
    omega
  · dsimp only
    omega
  · dsimp only
    rw [List.nil_append, pending_append, pending_cons]
    exact (opened.moved inserted).subperm

/-- The fragment was the missing one. -/
theorem Opened.finished (opened : Opened f ipr before after s) {queue front behind : List Fragment}
    (inserted : Inserted f ipr.p queue front behind) (spans : f.stop = f.start + f.data.flatten.length)
    (room : s.pbufcount + f.clen ≤ 10) (last : (!f.iphdr.more) = true ∨ ipr.last = true)
    (tiles : Tiles Fragment.start Fragment.stop 0 queue) :
    Carried f s
      (some ⟨wholeHdr ipr.iphdr (ipr.extended f queue).datagramLen, queue.flatMap Fragment.data⟩)
      ⟨s.reassdatagrams.eraseP fun r => r.iphdr.addressesAndIdMatch f.iphdr,
        ((s.pbufcount + f.clen) % 65536 + 65536 - (ipr.extended f queue).clen % 65536) % 65536⟩ := by
  have count := opened.count
  have clen : (ipr.extended f queue).clen = f.clen + ipr.clen := inserted.clen
  rw [opened.list_eq, total_append, total_cons] at count
  rw [opened.erased, clen]
  have kept := opened.ready.extended inserted spans
  refine ⟨⟨?_, ?_, opened.kept⟩, queue, kept.assembled ?_ ?_ tiles, ?_⟩
  · dsimp only
    rw [total_append]
    omega
  · dsimp only
    omega
  · rw [Reassdata.extended, Bool.or_comm]
    simpa using last
  · simp [Reassdata.extended, inserted.queue_eq]
  · dsimp only
    rw [pending_append, ← List.append_assoc]
    refine List.Perm.subperm (List.Perm.trans ?_ (opened.moved inserted))
    rw [← List.append_assoc]
    exact List.perm_append_comm.append_right _

theorem addFragment_ok {t : Buffer} {result : Option Datagram} (opened : Opened f ipr before after s)
    (plain : f.iphdr.hlBytes = 20) (room : s.pbufcount + f.clen ≤ 10)
    (added : addFragment f ipr s = .ok (result, t)) : Carried f s result t := by
  by_cases long : f.TooLong
  · rw [addFragment_tooLong long] at added
    obtain ⟨rfl, rfl⟩ := Prod.mk.inj (Except.ok.inj added)
    refine ⟨⟨opened.count, by omega, ?_⟩, [], rfl, (List.sublist_cons_self _ _).subperm⟩
    rw [opened.list_eq]
    exact opened.forall_kept (opened.ready.kept (long.start_ne_zero plain))
  · cases chained : chainAndValidate ipr f (!f.iphdr.more) with
    | none =>
      rw [addFragment_none long chained] at added
      cases added
    | some chain =>
      obtain ⟨queue, finished⟩ := chain
      obtain ⟨front, behind, inserted, whole, complete⟩ := chainAndValidate_some opened.ready.ordered chained
      have spans := Fragment.spans_of_le plain whole
      rw [addFragment_some long chained] at added
      split at added
      · rename_i done
        obtain ⟨last, tiles⟩ := complete.mp done
        obtain ⟨rfl, rfl⟩ := Prod.mk.inj (Except.ok.inj added)
        exact opened.finished inserted spans room last tiles
      · obtain ⟨rfl, rfl⟩ := Prod.mk.inj (Except.ok.inj added)
        exact opened.waiting inserted spans room

end Opened

theorem Carried.of_fewer {f : Fragment} {s t u : Buffer} {result : Option Datagram} (carried : Carried f t result u)
    (fewer : (pending t.reassdatagrams).Sublist (pending s.reassdatagrams)) : Carried f s result u := by
  obtain ⟨sound, parts, delivered, moved⟩ := carried
  exact ⟨sound, parts, delivered, moved.trans (fewer.cons_cons f).subperm⟩

theorem enqueueFragment_ok {memory : Bool × Bool} {f : Fragment} {s t : Buffer} {result : Option Datagram}
    (sound : Sound s) (plain : f.iphdr.hlBytes = 20) (room : s.pbufcount + f.clen ≤ 10)
    (passed : enqueueFragment memory f s = .ok (result, t)) : Carried f s result t := by
  unfold enqueueFragment at passed
  split at passed
  · cases passed
  · rename_i found
    obtain ⟨rfl, rfl⟩ := Prod.mk.inj (Except.ok.inj passed)
    exact Removed.carried (findDatagram_ok sound found)
  · rename_i found
    obtain ⟨⟨before, after, opened⟩, fewer, less⟩ := findDatagram_ok sound found
    exact (addFragment_ok opened plain (by omega) passed).of_fewer fewer

theorem ip4Reass_ok {memory : Bool × Bool} {f : Fragment} {s t : Buffer} {result : Option Datagram} (sound : Sound s)
    (passed : ip4Reass memory f s = .ok (result, t)) : Carried f s result t := by
  unfold ip4Reass at passed
  split at passed
  · obtain ⟨rfl, rfl⟩ := Prod.mk.inj (Except.ok.inj passed)
    exact (Removed.refl sound).carried
  · rename_i plain
    split at passed
    · obtain ⟨rfl, rfl⟩ := Prod.mk.inj (Except.ok.inj passed)
      exact (Removed.refl sound).carried
    · split at passed
      · cases passed
      · rename_i made
        obtain ⟨rfl, rfl⟩ := Prod.mk.inj (Except.ok.inj passed)
        exact (makeRoom_ok sound made).1.carried
      · rename_i made
        obtain ⟨removed, room⟩ := makeRoom_ok sound made
        exact (enqueueFragment_ok removed.sound (not_not.mp plain) (room rfl) passed).of_fewer
          (pending_sublist removed.fewer)

/-! Which fault it is. Only the queue of the fragment itself can free it. -/
section Faults
variable {fault : Fault} {f : Fragment} {s : Buffer}

theorem removeOldestDatagram_error {fraghdr : IpHdr} {needed freed : Nat}
    (failed : removeOldestDatagram fraghdr needed freed s = .error fault) : fault = .nullDereference := by
  fun_induction removeOldestDatagram fraghdr needed freed s with
  | case1 => cases failed
  | case2 _ _ _ _ _ _ freeing =>
    cases failed
    exact freeCompleteDatagram_error freeing
  | case3 _ _ _ _ _ _ _ _ _ ih => exact ih failed
  | case4 => cases failed

theorem makeRoom_error {fraghdr : IpHdr} {clen : Nat} (failed : makeRoom fraghdr clen s = .error fault) :
    fault = .nullDereference := by
  unfold makeRoom at failed
  split at failed
  · split at failed
    · rename_i removing
      cases failed
      exact removeOldestDatagram_error removing
    · cases failed
  · cases failed

theorem findDatagram_error {memory : Bool × Bool} (failed : findDatagram memory f s = .error fault) :
    fault = .nullDereference := by
  unfold findDatagram enqueueNewDatagram at failed
  split at failed
  · split at failed
    · cases failed
    · split at failed
      · rename_i removing
        cases failed
        exact removeOldestDatagram_error removing
      · split at failed <;> cases failed
  · split at failed <;> cases failed

theorem addFragment_error {ipr : Reassdata} (failed : addFragment f ipr s = .error fault) :
    fault = .doubleFree { s with pbufcount := (s.pbufcount + 65536 - f.clen % 65536) % 65536 } := by
  by_cases long : f.TooLong
  · rw [addFragment_tooLong long] at failed
    cases failed
  · cases chained : chainAndValidate ipr f (!f.iphdr.more) with
    | none =>
      rw [addFragment_none long chained] at failed
      exact (Except.error.inj failed).symm
    | some chain =>
      rw [addFragment_some long chained] at failed
      split at failed <;> cases failed

/-- A fragment that is freed twice has lowered the counter below the number of pbufs. -/
theorem ip4Reass_doubleFree {memory : Bool × Bool} {left : Buffer} (sound : Sound s)
    (failed : ip4Reass memory f s = .error (.doubleFree left)) :
    (left.pbufcount + f.clen) % 65536 = total left.reassdatagrams := by
  unfold ip4Reass at failed
  split at failed
  · cases failed
  split at failed
  · cases failed
  split at failed
  · rename_i making
    cases failed
    cases makeRoom_error making
  · cases failed
  · rename_i made
    obtain ⟨removed, room⟩ := makeRoom_ok sound made
    unfold enqueueFragment at failed
    split at failed
    · rename_i finding
      cases failed
      cases findDatagram_error finding
    · cases failed
    · rename_i found
      obtain ⟨⟨before, after, opened⟩, _, less⟩ := findDatagram_ok removed.sound found
      cases addFragment_error failed
      have count := opened.count
      have limit := room rfl
      dsimp only
      omega

end Faults

/-- One pass of the timer over the datagrams. -/
theorem ipReassTmr_ok {list kept : List Reassdata} {freed : Nat} (few : total list ≤ 10)
    (all : ∀ r ∈ list, Kept r) (passed : ipReassTmr list = .ok (kept, freed)) :
    (∀ r ∈ kept, Kept r) ∧ total kept + freed = total list ∧ (pending kept).Sublist (pending list) := by
  induction list generalizing kept freed with
  | nil =>
    obtain ⟨rfl, rfl⟩ := Prod.mk.inj (Except.ok.inj passed)
    exact ⟨by simp, rfl, List.Sublist.refl _⟩
  | cons r rest ih =>
    obtain ⟨first, others⟩ := List.forall_mem_cons.mp all
    rw [total_cons] at few ⊢
    unfold ipReassTmr at passed
    split at passed
    · split at passed
      · cases passed
      · rename_i inner
        obtain ⟨rfl, rfl⟩ := Prod.mk.inj (Except.ok.inj passed)
        obtain ⟨well, sum, fewer⟩ := ih (by omega) others inner
        refine ⟨List.forall_mem_cons.mpr ⟨⟨⟨first.ordered, first.own, first.spans, first.first, first.last⟩,
          first.begun⟩, well⟩, ?_, fewer.append_left _⟩
        have same : ({ r with timer := r.timer - 1 } : Reassdata).clen = r.clen := rfl
        rw [total_cons, same]
        omega
    · split at passed
      · cases passed
      · cases passed
      · rename_i freeable inner
        obtain ⟨rfl, rfl⟩ := Prod.mk.inj (Except.ok.inj passed)
        obtain ⟨well, sum, fewer⟩ := ih (by omega) others inner
        have := freeCompleteDatagram_ok (by omega) freeable
        exact ⟨well, by omega, fewer.trans (List.sublist_append_right _ _)⟩

theorem tick_ok {s t : Buffer} (sound : Sound s) (passed : tick s = .ok t) :
    Sound t ∧ (pending t.reassdatagrams).Sublist (pending s.reassdatagrams) := by
  have count := sound.count
  have limit := sound.limit
  unfold tick at passed
  split at passed
  · cases passed
  · rename_i inner
    cases passed
    obtain ⟨well, sum, fewer⟩ := ipReassTmr_ok (by omega) sound.kept inner
    exact ⟨⟨by dsimp only; omega, by dsimp only; omega, well⟩, fewer⟩

end Sound

/-! Runs of the stack's input and its timer, up to a fault. -/
section Runs

/-- `ip4_input` sends here what has the flag for more or an offset. What it checks in
between, the checksum and the address, only drops. -/
def IpHdr.isFragment (h : IpHdr) : Bool := h.offset.toNat % 16384 ≠ 0

inductive Step : Buffer → List (Fragment × Option Datagram) → Buffer → Prop where
  | input (memory : Bool × Bool) : ip4Trim chain = some f → f.iphdr.isFragment = true →
      ip4Reass memory f s = .ok (result, t) → Step s [(f, result)] t
  | timer : tick s = .ok t → Step s [] t

/-- What was handed on and what is still in the buffer, of what was received. -/
def Accounted (events : List (Fragment × Option Datagram)) (s : Buffer) : Prop :=
  Sound s ∧ ∃ parts, List.Forall₂ Assembled (events.filterMap Prod.snd) parts ∧
    (parts.flatten ++ pending s.reassdatagrams).Subperm (events.map Prod.fst)

theorem Accounted.step {events emitted : List (Fragment × Option Datagram)} {s t : Buffer}
    (accounted : Accounted events s) (step : Step s emitted t) : Accounted (events ++ emitted) t := by
  obtain ⟨sound, parts, assembled, moved⟩ := accounted
  cases step with
  | timer passed =>
    obtain ⟨sound, fewer⟩ := tick_ok sound passed
    rw [List.append_nil]
    exact ⟨sound, parts, assembled, (fewer.append_left _).subperm.trans moved⟩
  | @input _ f _ result _ memory _ _ passed =>
    obtain ⟨sound, new, delivered, carried⟩ := ip4Reass_ok sound passed
    have all : (parts.flatten ++ (new ++ pending t.reassdatagrams)).Subperm
        ((events ++ [(f, result)]).map Prod.fst) := by
      refine ((List.subperm_append_left _).mpr carried).trans ?_
      refine List.perm_middle.subperm.trans ?_
      rw [List.map_append]
      exact ((List.subperm_cons f).mpr moved).trans (List.perm_append_singleton f _).symm.subperm
    cases result with
    | none =>
      cases delivered
      exact ⟨sound, parts, by simpa using assembled, by simpa using all⟩
    | some d =>
      refine ⟨sound, parts ++ [new], ?_, by simpa using all⟩
      rw [List.filterMap_append]
      exact List.rel_append assembled (.cons delivered .nil)

theorem accounted {events : List (Fragment × Option Datagram)} {s : Buffer} (run : Run Step ⟨[], 0⟩ events s) :
    Accounted events s :=
  run.invariant (P := Accounted)
    ⟨⟨rfl, Nat.zero_le _, by simp⟩, [], .nil, List.Subperm.refl _⟩ Accounted.step

/-- The first eight bytes of a datagram, with the flag for more, and what follows. -/
def opening : Fragment :=
  ⟨⟨0x45, 0, 28, 7, 0x2000, 64, 17, 0, 0x0100000a, 0x0200000a⟩, [[1, 2, 3, 4, 5, 6, 7, 8]], rfl, by simp⟩

def closing : Fragment :=
  ⟨⟨0x45, 0, 21, 7, 1, 64, 17, 0, 0x0100000a, 0x0200000a⟩, [[9]], rfl, by simp⟩

theorem opening_arrives :
    ip4Trim [[0x45, 0, 0, 28, 0, 7, 0x20, 0, 64, 17, 0, 0, 10, 0, 0, 1, 10, 0, 0, 2, 1, 2, 3, 4, 5, 6, 7, 8]] =
      some opening := rfl

theorem closing_arrives :
    ip4Trim [[0x45, 0, 0, 21, 0, 7, 0, 1, 64, 17, 0, 0, 10, 0, 0, 1, 10, 0, 0, 2, 9]] = some closing := rfl

theorem opening_run : Run Step ⟨[], 0⟩ [(opening, none)] ⟨[⟨opening.iphdr, [opening], 0, false, 15⟩], 1⟩ :=
  Run.single (Step.input (true, true) opening_arrives rfl rfl)

theorem opening_closing_run : Run Step ⟨[], 0⟩
    ([(opening, none)] ++ [(closing, some ⟨wholeHdr opening.iphdr 9, [[1, 2, 3, 4, 5, 6, 7, 8], [9]]⟩)]) ⟨[], 0⟩ :=
  Run.next opening_run (Step.input (true, true) closing_arrives rfl rfl)

/-- Every datagram that is handed on is put together from fragments that were received,
and no fragment goes into two datagrams or twice into one. -/
theorem datagrams_from_fragments {events : List (Fragment × Option Datagram)} {s : Buffer}
    (run : Run Step ⟨[], 0⟩ events s) :
    ∃ parts, List.Forall₂ Assembled (events.filterMap Prod.snd) parts ∧
      parts.flatten.Subperm (events.map Prod.fst) := by
  obtain ⟨_, parts, assembled, moved⟩ := accounted run
  exact ⟨parts, assembled, (List.sublist_append_left _ _).subperm.trans moved⟩

theorem datagrams_from_two_fragments : ∃ parts,
    List.Forall₂ Assembled [⟨wholeHdr opening.iphdr 9, [[1, 2, 3, 4, 5, 6, 7, 8], [9]]⟩] parts ∧
      parts.flatten.Subperm [opening, closing] :=
  datagrams_from_fragments opening_closing_run

/-- Up to a fault the queues never hold more pbufs than allowed, and the counter is exact.
A fragment that is freed twice takes itself off the counter, which is then too low. -/
theorem reassembly_bounded {events : List (Fragment × Option Datagram)} {s : Buffer}
    (run : Run Step ⟨[], 0⟩ events s) :
    s.pbufcount = total s.reassdatagrams ∧ total s.reassdatagrams ≤ 10 ∧
      ∀ memory f left, ip4Reass memory f s = .error (.doubleFree left) →
        0 < f.clen ∧ (left.pbufcount + f.clen) % 65536 = total left.reassdatagrams := by
  have sound := (accounted run).1
  refine ⟨sound.count, sound.count ▸ sound.limit, fun memory f left failed => ⟨?_, ip4Reass_doubleFree sound failed⟩⟩
  exact List.length_pos_of_ne_nil f.pbufs

/-- One fragment is queued and counted; its copy leaves the counter at zero. -/
theorem reassembly_bounded_copy :
    1 = total [⟨opening.iphdr, [opening], 0, false, 15⟩] ∧ total [⟨opening.iphdr, [opening], 0, false, 15⟩] ≤ 10 ∧
      ip4Reass (true, true) opening ⟨[⟨opening.iphdr, [opening], 0, false, 15⟩], 1⟩ =
        .error (.doubleFree ⟨[⟨opening.iphdr, [opening], 0, false, 15⟩], 0⟩) ∧
      (0 + opening.clen) % 65536 = total [⟨opening.iphdr, [opening], 0, false, 15⟩] := by
  obtain ⟨count, limit, twice⟩ := reassembly_bounded opening_run
  have copy : ip4Reass (true, true) opening ⟨[⟨opening.iphdr, [opening], 0, false, 15⟩], 1⟩ =
      .error (.doubleFree ⟨[⟨opening.iphdr, [opening], 0, false, 15⟩], 0⟩) := rfl
  exact ⟨count, limit, copy, (twice _ _ _ copy).2⟩

end Runs

end Aurora.Lwip.Reassembly
