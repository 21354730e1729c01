import Aurora.Lwip.Fragments

/-! Which fragments bring the reassembly down: those that overlap a fragment in the
buffer, which are freed twice, and a last fragment that is too long, which leaves an
empty queue for the timer. -/
namespace Aurora.Lwip.Reassembly
open Lib Tiling

/-! Overlaps. -/
section Overlap

abbrev Clear (a b : Fragment) : Prop := Apart Fragment.start Fragment.stop a b

theorem clear_of_lt {a b : Fragment} (less : a.start < b.start) : Clear a b ↔ a.stop ≤ b.start := apart_iff_of_lt less

theorem clear_of_gt {a b : Fragment} (less : b.start < a.start) : Clear a b ↔ b.stop ≤ a.start :=
  apart_comm.trans (apart_iff_of_lt less)

theorem chainFrag_none {new : Fragment} {prev : Option Fragment} {valid : Bool} {list : List Fragment}
    (ordered : InOrder list) (passed : ∀ q ∈ prev, q.stop ≤ new.start) :
    chainFrag new prev valid list = none ↔ ∃ q ∈ list, ¬ Clear q new := by
  induction list generalizing prev valid with
  | nil => simp [chainFrag]
  | cons q rest ih =>
    obtain ⟨first, ordered⟩ := List.pairwise_cons.mp ordered
    rw [List.exists_mem_cons_iff]
    unfold chainFrag
    split
    · rename_i less
      -- what comes behind `q` overlaps the new fragment only if `q` does
      have here : (¬ Clear q new ∨ ∃ r ∈ rest, ¬ Clear r new) ↔ q.start < new.stop := by
        rw [clear_of_gt less, not_le, or_iff_left_iff_imp]
        rintro ⟨r, inside, clash⟩
        have later := (first r inside).1
        rw [clear_of_gt (less.trans later)] at clash
        omega
      rw [here]
      cases prev with
      | none => simp
      | some prev =>
        have := passed prev rfl
        simp
        omega
    · rename_i notLess
      split
      · rename_i same
        simp [Apart, same]
      · rename_i other
        have above : q.start < new.start := by omega
        rw [clear_of_lt above]
        split
        · rename_i inside
          simp [inside]
        · rename_i clear
          have onward : chainFrag new (some q) (valid && prev.all fun prev => prev.stop == q.start) rest = none ↔
              ∃ r ∈ rest, ¬ Clear r new := ih ordered (by simpa using clear)
          rw [← onward]
          split <;> simp_all

theorem chainAndValidate_none {ipr : Reassdata} {f : Fragment} {isLast : Bool} (ordered : InOrder ipr.p)
    (plain : f.iphdr.hlBytes = 20) :
    chainAndValidate ipr f isLast = none ↔ f.stop < f.start ∨ ∃ q ∈ ipr.p, ¬ Clear q f := by
  have sized := f.sized
  have chain : chainFrag f none true ipr.p = none ↔ ∃ q ∈ ipr.p, ¬ Clear q f := chainFrag_none ordered (by simp)
  rw [← chain]
  unfold chainAndValidate
  rw [if_neg (by omega)]
  split
  · simp [*]
  · split <;> simp_all

theorem addFragment_doubleFree {f : Fragment} {ipr : Reassdata} {s : Buffer} (ordered : InOrder ipr.p)
    (plain : f.iphdr.hlBytes = 20) :
    (∃ left, addFragment f ipr s = .error (.doubleFree left)) ↔
      ¬ f.TooLong ∧ (f.stop < f.start ∨ ∃ q ∈ ipr.p, ¬ Clear q f) := by
  have dropped : chainAndValidate ipr f (!f.iphdr.more) = none ↔ f.stop < f.start ∨ ∃ q ∈ ipr.p, ¬ Clear q f :=
    chainAndValidate_none ordered plain
  rw [← dropped]
  by_cases long : f.TooLong
  · simp [addFragment_tooLong long, long]
  · cases chained : chainAndValidate ipr f (!f.iphdr.more) with
    | none => simp [addFragment_none long chained, long]
    | some result =>
      rw [addFragment_some long chained]
      split <;> simp

/-- With room for a fragment and memory for its datagram, nothing else is touched. -/
theorem ip4Reass_room {f : Fragment} {s : Buffer} {again : Bool} (plain : f.iphdr.hlBytes = 20)
    (room : s.pbufcount + f.clen ≤ 10) :
    ip4Reass (true, again) f s = enqueueFragment (true, again) f s := by
  have sized := f.sized
  rw [ip4Reass, if_neg (not_not.mpr plain), if_neg (by omega), makeRoom, if_neg (by omega)]

/-- In every reachable buffer with room, the fragments that are freed twice are those
without IP options that overlap one of the same datagram, be it a copy of it, and those
that wrap around without being the last. -/
theorem double_free_iff {events : List (Fragment × Option Datagram)} {s : Buffer} {f : Fragment} {again : Bool}
    (run : Run Step ⟨[], 0⟩ events s) (room : s.pbufcount + f.clen ≤ 10) :
    (∃ left, ip4Reass (true, again) f s = .error (.doubleFree left)) ↔
      f.iphdr.hlBytes = 20 ∧ ¬ f.TooLong ∧ (f.stop < f.start ∨
        ∃ ipr, s.reassdatagrams.find? (fun r => r.iphdr.addressesAndIdMatch f.iphdr) = some ipr ∧
          ∃ q ∈ ipr.p, ¬ Clear q f) := by
  have sound := (accounted run).1
  by_cases plain : f.iphdr.hlBytes = 20
  swap
  · rw [ip4Reass, if_pos plain]
    refine iff_of_false ?_ fun right => plain right.1
    rintro ⟨left, failed⟩
    cases failed
  rw [and_iff_right plain, ip4Reass_room plain room]
  cases search : s.reassdatagrams.find? fun r => r.iphdr.addressesAndIdMatch f.iphdr with
  | none =>
    simp only [enqueueFragment, findDatagram, search, enqueueNewDatagram, if_true]
    rw [addFragment_doubleFree List.Pairwise.nil plain]
    simp
  | some ipr =>
    have ordered := (sound.kept ipr (List.mem_of_find?_eq_some search)).ordered
    simp only [enqueueFragment, findDatagram, search, Option.some.injEq, exists_eq_left']
    split
    · rename_i found
      split at found
      all_goals cases found
    · rename_i found
      split at found
      all_goals cases found
    · rename_i found
      split at found
      all_goals
        cases found
        exact addFragment_doubleFree ordered plain

theorem double_free_of_copy : ∃ left,
    ip4Reass (true, true) opening ⟨[⟨opening.iphdr, [opening], 0, false, 15⟩], 1⟩ = .error (.doubleFree left) :=
  (double_free_iff opening_run (by decide)).mpr
    ⟨rfl, fun long => Bool.noConfusion long.1, Or.inr ⟨_, rfl, opening, by simp, fun clear => clear.1 rfl⟩⟩

end Overlap

/-! The timer over an empty queue. -/
section Timer

def ticks : Nat → Buffer → Except Fault Buffer
  | 0, s => .ok s
  | n + 1, s => (tick s).bind (ticks n)

theorem ipReassTmr_error {list : List Reassdata} {fault : Fault} (failed : ipReassTmr list = .error fault) :
    fault = .nullDereference := by
  induction list with
  | nil => cases failed
  | cons r rest ih =>
    unfold ipReassTmr at failed
    split at failed
    · split at failed
      · rename_i inner
        cases failed
        exact ih inner
      · cases failed
    · split at failed
      · rename_i first
        cases failed
        exact freeCompleteDatagram_error first
      · rename_i inner
        cases failed
        exact ih inner
      · cases failed

/-- A pass that succeeds has not reached the end of an empty queue's time. -/
theorem ipReassTmr_empty {list kept : List Reassdata} {freed : Nat} {r : Reassdata} (inside : r ∈ list)
    (empty : r.p = []) (passed : ipReassTmr list = .ok (kept, freed)) :
    0 < r.timer ∧ { r with timer := r.timer - 1 } ∈ kept := by
  induction list generalizing kept freed with
  | nil => cases inside
  | cons q rest ih =>
    unfold ipReassTmr at passed
    split at passed
    · rename_i running
      split at passed
      · cases passed
      · rename_i inner
        obtain ⟨rfl, rfl⟩ := Prod.mk.inj (Except.ok.inj passed)
        obtain rfl | later := List.mem_cons.mp inside
        · exact ⟨running, List.mem_cons_self⟩
        · obtain ⟨running, there⟩ := ih later inner
          exact ⟨running, List.mem_cons_of_mem _ there⟩
    · split at passed
      · cases passed
      · cases passed
      · rename_i freeable inner
        obtain ⟨rfl, rfl⟩ := Prod.mk.inj (Except.ok.inj passed)
        obtain rfl | later := List.mem_cons.mp inside
        · simp [freeCompleteDatagram, empty] at freeable
        · exact ih later inner

theorem tick_empty {s : Buffer} {r : Reassdata} (inside : r ∈ s.reassdatagrams) (empty : r.p = []) :
    tick s = .error .nullDereference ∨
      ∃ t, tick s = .ok t ∧ 0 < r.timer ∧ { r with timer := r.timer - 1 } ∈ t.reassdatagrams := by
  unfold tick
  cases pass : ipReassTmr s.reassdatagrams with
  | error fault => exact Or.inl (congrArg _ (ipReassTmr_error pass))
  | ok result => exact Or.inr ⟨_, rfl, ipReassTmr_empty inside empty pass⟩

theorem ticks_empty {n : Nat} {s : Buffer} {r : Reassdata} (inside : r ∈ s.reassdatagrams) (empty : r.p = [])
    (soon : r.timer ≤ n) : ticks (n + 1) s = .error .nullDereference := by
  induction n generalizing s r with
  | zero =>
    obtain failed | ⟨t, _, running, _⟩ := tick_empty inside empty
    · rw [ticks, failed]
      rfl
    · omega
  | succ n ih =>
    rw [ticks]
    obtain failed | ⟨t, passed, _, there⟩ := tick_empty inside empty
    · rw [failed]
      rfl
    · rw [passed]
      exact ih there empty (Nat.sub_le_of_le_add soon)

/-- One last fragment that is too long, without IP options and of a datagram of its own,
is dropped but leaves its empty queue behind. Unless something happens to that queue
before, the sixteenth pass of the timer looks into it. -/
theorem too_long_last_crashes_timer {f : Fragment} {s : Buffer} {again : Bool} (plain : f.iphdr.hlBytes = 20)
    (long : f.TooLong)
    (alone : s.reassdatagrams.find? (fun r => r.iphdr.addressesAndIdMatch f.iphdr) = none)
    (room : s.pbufcount + f.clen ≤ 10) :
    ∃ t, ip4Reass (true, again) f s = .ok (none, t) ∧
      t = { s with reassdatagrams := ⟨f.iphdr, [], 0, false, 15⟩ :: s.reassdatagrams } ∧
      ticks 16 t = .error .nullDereference := by
  refine ⟨{ s with reassdatagrams := ⟨f.iphdr, [], 0, false, 15⟩ :: s.reassdatagrams }, ?_, rfl,
    ticks_empty List.mem_cons_self rfl (Nat.le_refl _)⟩
  rw [ip4Reass_room plain room]
  simp only [enqueueFragment, findDatagram, alone, enqueueNewDatagram, if_true]
  exact addFragment_tooLong long

theorem too_long_last_crashes_timer_one_byte :
    ∃ t, ip4Reass (true, true) ⟨⟨0x45, 0, 21, 7, 8191, 64, 17, 0, 1, 2⟩, [[9]], rfl, by simp⟩ ⟨[], 0⟩ = .ok (none, t) ∧
      t = ⟨[⟨⟨0x45, 0, 21, 7, 8191, 64, 17, 0, 1, 2⟩, [], 0, false, 15⟩], 0⟩ ∧
      ticks 16 t = .error .nullDereference :=
  too_long_last_crashes_timer rfl ⟨rfl, by decide⟩ rfl (by decide)

end Timer

end Aurora.Lwip.Reassembly
