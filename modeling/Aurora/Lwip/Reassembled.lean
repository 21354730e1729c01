import Aurora.Lwip.ReassemblyFaults

/-! Fragments of one datagram that arrive in any order are put together to it, whatever
else is in the buffer, which is then as it was. -/
namespace Aurora.Lwip.Reassembly
open Lib Tiling

/-- A datagram cut into fragments, none of them empty. -/
structure Cut (parts : List Fragment) : Prop where
  tiles : Tiles Fragment.start Fragment.stop 0 parts
  proper : ∀ f ∈ parts, f.start < f.stop
  fits : ∀ f ∈ parts, f.stop ≤ 65515
  plain : ∀ f ∈ parts, f.iphdr.hlBytes = 20
  same : ∀ f ∈ parts, ∀ g ∈ parts, f.iphdr.key = g.iphdr.key
  more : ∀ f ∈ parts, f.iphdr.more = false ↔ parts.getLast? = some f

/-- One fragment after the other, with memory for a datagram. -/
def receiveAll : List Fragment → Buffer → Except Fault (List Datagram × Buffer)
  | [], s => .ok ([], s)
  | f :: rest, s => (ip4Reass (true, true) f s).bind fun first =>
      (receiveAll rest first.2).map fun later => (first.1.toList ++ later.1, later.2)

namespace Cut
variable {parts fed : List Fragment} {f : Fragment} (cut : Cut parts)
include cut

theorem inOrder : InOrder parts := cut.tiles.pairwise cut.proper

theorem clear (few : (f :: fed).Subperm parts) : ∀ q ∈ fed, Clear q f := by
  obtain ⟨list, perm, fewer⟩ := few
  have apart : parts.Pairwise Clear := cut.inOrder.imp Before.apart
  have both : (f :: fed).Pairwise Clear := (perm.pairwise_iff apart_comm.mp).mp (apart.sublist fewer)
  exact fun q inside => apart_comm.mp ((List.pairwise_cons.mp both).1 q inside)

theorem eq_of_perm {queue : List Fragment} (ordered : InOrder queue) (all : queue.Perm parts) : queue = parts :=
  all.eq_of_pairwise (fun _ _ _ _ first second => absurd first.1 (Nat.lt_asymm second.1)) ordered cut.inOrder

/-- A queue is complete exactly if all fragments are there. -/
theorem complete_iff {queue : List Fragment} (ordered : InOrder queue) (few : queue.Subperm parts)
    (nonempty : queue ≠ []) :
    (∃ g ∈ queue, g.iphdr.more = false) ∧ Tiles Fragment.start Fragment.stop 0 queue ↔ queue.Perm parts := by
  have fewer : queue.Sublist parts := List.sublist_of_subperm_of_pairwise few ordered cut.inOrder
  constructor
  · rintro ⟨⟨g, inside, last⟩, tiles⟩
    have last := (cut.more g (fewer.subset inside)).mp last
    rw [cut.tiles.eq_of_sublist cut.proper fewer tiles (by simp [last, inside])]
  · intro all
    obtain rfl := cut.eq_of_perm ordered all
    have last := List.getLast_mem nonempty
    exact ⟨⟨_, last, (cut.more _ last).mpr (List.getLast?_eq_some_getLast nonempty)⟩, cut.tiles⟩

end Cut

/-! The buffer while the fragments come in. -/
section Feeding

/-- The datagram that gathers what came so far. -/
structure Gathers (fed : List Fragment) (ipr : Reassdata) : Prop where
  perm : ipr.p.Perm fed
  closed : (∃ g ∈ fed, g.iphdr.more = false) → ipr.last = true

/-- Nothing has come yet, or the datagram is in front of all that was there before. -/
inductive Fed (key : UInt32 × UInt32 × UInt16) (s : Buffer) : List Fragment → Buffer → Prop where
  | nothing : Fed key s [] s
  | gathering (ipr : Reassdata) (count : Nat) : Sound ⟨ipr :: s.reassdatagrams, count⟩ → ipr.iphdr.key = key →
      Gathers fed ipr → Fed key s fed ⟨ipr :: s.reassdatagrams, count⟩

variable {parts fed : List Fragment} {f : Fragment} {s t : Buffer}

theorem Fed.sound {key : UInt32 × UInt32 × UInt16} (sound : Sound s) (before : Fed key s fed t) : Sound t := by
  cases before with
  | nothing => exact sound
  | gathering _ _ sound => exact sound

theorem Fed.count {key : UInt32 × UInt32 × UInt16} (sound : Sound s) (before : Fed key s fed t) :
    t.pbufcount = s.pbufcount + (fed.map Fragment.clen).sum := by
  cases before with
  | nothing => simp
  | gathering ipr count final _ gathers =>
    have sum := final.count
    have old := sound.count
    have clen : ipr.clen = (fed.map Fragment.clen).sum := (gathers.perm.map Fragment.clen).sum_nat
    dsimp only at sum ⊢
    rw [total_cons] at sum
    omega

theorem Fed.find (alone : s.reassdatagrams.find? (fun r => r.iphdr.addressesAndIdMatch f.iphdr) = none)
    (before : Fed f.iphdr.key s fed t) :
    ∃ ipr, findDatagram (true, true) f t = .ok (some ipr, ⟨ipr :: s.reassdatagrams, t.pbufcount⟩) ∧
      Gathers fed ipr := by
  cases before with
  | nothing =>
    refine ⟨⟨f.iphdr, [], 0, false, 15⟩, ?_, .refl _, by simp⟩
    simp only [findDatagram, alone, enqueueNewDatagram, if_true]
  | gathering ipr count sound same gathers =>
    have here : ipr.iphdr.addressesAndIdMatch f.iphdr = true := addressesAndIdMatch_iff.mpr same
    unfold findDatagram
    rw [List.find?_cons_of_pos (p := fun r : Reassdata => r.iphdr.addressesAndIdMatch f.iphdr) here]
    dsimp only
    split
    · refine ⟨{ ipr with iphdr := f.iphdr }, ?_, gathers.perm, gathers.closed⟩
      simp only [store, here, if_true]
    · exact ⟨ipr, rfl, gathers⟩

theorem Gathers.closed_iff {ipr : Reassdata} (gathers : Gathers fed ipr) (ready : Ready f ipr) :
    (!f.iphdr.more || ipr.last) = true ↔ ∃ g ∈ f :: fed, g.iphdr.more = false := by
  constructor
  · intro last
    cases more : f.iphdr.more with
    | false => exact ⟨f, List.mem_cons_self, more⟩
    | true =>
      obtain ⟨g, old, final, _⟩ := ready.last (by simpa [more] using last)
      exact ⟨g, List.mem_cons_of_mem _ (gathers.perm.mem_iff.mp old), final⟩
  · rintro ⟨g, there, final⟩
    obtain rfl | old := List.mem_cons.mp there
    · simp [final]
    · simp [gathers.closed ⟨g, old, final⟩]

/-- One more fragment. -/
theorem Fed.receive (cut : Cut parts) (sound : Sound s)
    (alone : s.reassdatagrams.find? (fun r => r.iphdr.addressesAndIdMatch f.iphdr) = none)
    (before : Fed f.iphdr.key s fed t) (few : (f :: fed).Subperm parts) (room : t.pbufcount + f.clen ≤ 10) :
    (¬ (f :: fed).Perm parts ∧ ∃ u, ip4Reass (true, true) f t = .ok (none, u) ∧ Fed f.iphdr.key s (f :: fed) u) ∨
      (f :: fed).Perm parts ∧ ∃ d, ip4Reass (true, true) f t = .ok (some d, s) ∧ Assembled d parts := by
  have inside : f ∈ parts := few.subset List.mem_cons_self
  have proper := cut.proper f inside
  have fits := cut.fits f inside
  obtain ⟨ipr, found, gathers⟩ := before.find alone
  obtain ⟨⟨front, rear, opened⟩, -, -⟩ := findDatagram_ok (before.sound sound) found
  have kept := opened.ready.ordered
  have passed : ip4Reass (true, true) f t = addFragment f ipr ⟨ipr :: s.reassdatagrams, t.pbufcount⟩ := by
    rw [ip4Reass_room (cut.plain f inside) room, enqueueFragment, found]
  have short : ¬ f.TooLong := fun long => by
    have := long.2
    omega
  have clear : ¬ (f.stop < f.start ∨ ∃ q ∈ ipr.p, ¬ Clear q f) := by
    rintro (wrapped | ⟨q, there, clash⟩)
    · omega
    · exact clash (cut.clear few q (gathers.perm.mem_iff.mp there))
  cases chained : chainAndValidate ipr f (!f.iphdr.more) with
  | none => exact absurd ((chainAndValidate_none kept (cut.plain f inside)).mp chained) clear
  | some result =>
    obtain ⟨queue, finished⟩ := result
    obtain ⟨left, right, inserted, whole, complete⟩ := chainAndValidate_some kept chained
    have all : queue.Perm (f :: fed) := inserted.perm.trans (gathers.perm.cons f)
    have nonempty : queue ≠ [] := by simp [inserted.queue_eq]
    have done : finished = true ↔ (f :: fed).Perm parts := by
      have whole := cut.complete_iff (inserted.inOrder kept) (all.subperm.trans few) nonempty
      simp only [all.mem_iff] at whole
      rw [complete, ← Bool.or_eq_true, gathers.closed_iff opened.ready, whole]
      exact ⟨all.symm.trans, all.trans⟩
    have extended := opened.ready.extended inserted (Fragment.spans_of_le (cut.plain f inside) whole)
    have added := addFragment_some (s := ⟨ipr :: s.reassdatagrams, t.pbufcount⟩) short chained
    rw [← passed] at added
    have same : ipr.iphdr.addressesAndIdMatch f.iphdr = true := addressesAndIdMatch_iff.mpr opened.ready.key.symm
    cases finished with
    | false =>
      have stored : store (ipr.extended f queue) (ipr :: s.reassdatagrams) =
          ipr.extended f queue :: s.reassdatagrams := by
        simp [store, Reassdata.extended, addressesAndIdMatch_iff]
      rw [if_neg Bool.false_ne_true, stored] at added
      refine Or.inl ⟨fun perm => Bool.false_ne_true (done.mpr perm), _, added,
        .gathering _ _ (ip4Reass_ok (before.sound sound) added).sound opened.ready.key.symm ⟨all, ?_⟩⟩
      rw [Reassdata.extended, Bool.or_comm]
      exact (gathers.closed_iff opened.ready).mpr
    | true =>
      have perm := done.mp rfl
      obtain ⟨last, tiles⟩ := complete.mp rfl
      rw [if_pos rfl,
        List.eraseP_cons_of_pos (p := fun r : Reassdata => r.iphdr.addressesAndIdMatch f.iphdr) same] at added
      have count := (ip4Reass_ok (before.sound sound) added).sound.count
      rw [← sound.count] at count
      dsimp only at count
      rw [count] at added
      refine Or.inr ⟨perm, _, added, ?_⟩
      have assembled := extended.assembled (by rw [Reassdata.extended, Bool.or_comm]; simpa using last) nonempty tiles
      rwa [cut.eq_of_perm (inserted.inOrder kept) (all.trans perm)] at assembled ⊢

theorem Fed.receiveAll {arrivals : List Fragment} (cut : Cut parts) (sound : Sound s)
    (alone : ∀ f ∈ parts, s.reassdatagrams.find? (fun r => r.iphdr.addressesAndIdMatch f.iphdr) = none)
    (room : s.pbufcount + (parts.map Fragment.clen).sum ≤ 10) {key : UInt32 × UInt32 × UInt16}
    (own : ∀ f ∈ parts, f.iphdr.key = key) (before : Fed key s fed t) (nonempty : arrivals ≠ [])
    (all : (arrivals ++ fed).Perm parts) : ∃ d, receiveAll arrivals t = .ok ([d], s) ∧ Assembled d parts := by
  induction arrivals generalizing fed t with
  | nil => exact absurd rfl nonempty
  | cons f rest ih =>
    have there : f ∈ parts := all.subset (by simp)
    have few : (f :: fed).Subperm parts := by
      refine List.Subperm.trans (List.Sublist.subperm ?_) all.subperm
      exact (List.sublist_append_right rest fed).cons_cons f
    have sum : (f.clen + (fed.map Fragment.clen).sum) ≤ (parts.map Fragment.clen).sum := by
      rw [← (all.map Fragment.clen).sum_nat]
      simp
    have count := before.count sound
    obtain rfl := own f there
    obtain ⟨missing, u, passed, after⟩ | ⟨perm, d, passed, assembled⟩ :=
      before.receive cut sound (alone f there) few (by omega)
    · have more : rest ≠ [] := by
        rintro rfl
        exact missing all
      obtain ⟨d, received, assembled⟩ := ih after more (List.perm_middle.trans all)
      exact ⟨d, by simp [Reassembly.receiveAll, passed, received, Except.bind, Except.map], assembled⟩
    · have none_left : rest = [] := by
        have here := perm.length_eq
        have whole := all.length_eq
        simp only [List.length_cons, List.length_append] at here whole
        exact List.length_eq_zero_iff.mp (by omega)
      subst none_left
      exact ⟨d, by simp [Reassembly.receiveAll, passed, Except.bind, Except.map], assembled⟩

end Feeding

/-- From every reachable buffer that holds nothing of a datagram and has room for it, its
fragments, in whatever order they arrive, give that datagram with the last of them and
leave the buffer as it was. -/
theorem fragments_reassemble {events : List (Fragment × Option Datagram)} {s : Buffer} {parts arrivals : List Fragment}
    (run : Run Step ⟨[], 0⟩ events s) (cut : Cut parts) (nonempty : parts ≠ [])
    (alone : ∀ f ∈ parts, s.reassdatagrams.find? (fun r => r.iphdr.addressesAndIdMatch f.iphdr) = none)
    (room : s.pbufcount + (parts.map Fragment.clen).sum ≤ 10) (order : arrivals.Perm parts) :
    ∃ d, receiveAll arrivals s = .ok ([d], s) ∧ Assembled d parts := by
  obtain ⟨first, rest, rfl⟩ := List.exists_cons_of_ne_nil nonempty
  refine Fed.nothing.receiveAll cut (accounted run).1 alone room
    (fun f inside => cut.same f inside first List.mem_cons_self) ?_ (by simpa using order)
  rintro rfl
  exact absurd order.symm.eq_nil (List.cons_ne_nil _ _)

theorem fragments_reassemble_last_first :
    ∃ d, receiveAll [closing, opening] ⟨[], 0⟩ = .ok ([d], ⟨[], 0⟩) ∧ Assembled d [opening, closing] := by
  have cut : Cut [opening, closing] := by
    have other : closing ≠ opening := fun same => absurd (congrArg (fun f => f.iphdr.len) same) (by decide)
    have more : opening.iphdr.more = true := rfl
    have last : closing.iphdr.more = false := rfl
    exact ⟨⟨rfl, rfl, trivial⟩, by simp; decide, by simp; decide, by simp; decide, by simp; decide,
      by simp [other, more, last]⟩
  exact fragments_reassemble .start cut (List.cons_ne_nil _ _) (fun _ _ => rfl) (by decide) (.swap _ _ _)

end Aurora.Lwip.Reassembly
