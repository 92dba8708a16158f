import RlAqs.Queue.LadderAccess
import RlAqs.Library.Sums

/-!
The invariant of the ladder. `Sound` is about the counters and the buckets and
holds at all times; `Aligned` is about the times of the rungs and holds while
the ladder has events.
-/

namespace RlAqs

namespace Ladder

def events (ladder : Ladder) (index : Nat) : Nat := (ladder.rung index).events

structure Sound (ladder : Ladder) : Prop where
  thres : ladder.thres = defaultThres
  rungs : ladder.nRung ≤ maxRungs
  lowest : ladder.lowestRung < ladder.nRung
  packed : ∀ index < ladder.nRung, (ladder.rung index).Packed
  deeper : ∀ index < ladder.nRung, 0 < index → (ladder.rung index).buckets = defaultThres
  first : (ladder.rung 0).buckets = ladder.bucketsFirstRung
  unused : ∀ index > ladder.lowestRung, ladder.events index = 0
  counted : ladder.nbc = ∑ index ∈ Finset.range maxRungs, ladder.events index

/-- A rung below the first covers the bucket behind the current one of the rung above it,
in 49 steps. -/
structure Aligned (ladder : Ladder) : Prop where
  width : 0 < (ladder.rung 0).bucketwidth
  start : (ladder.rung 0).currentBucket = 0
  timed : ∀ index ≤ ladder.lowestRung,
    (ladder.rung index).rCur = (ladder.rung index).rStart +
      (ladder.rung index).currentBucket * (ladder.rung index).bucketwidth
  nested : ∀ index < ladder.lowestRung,
    (ladder.rung (index + 1)).bucketwidth * 49 = (ladder.rung index).bucketwidth ∧
      (ladder.rung (index + 1)).rStart =
        (ladder.rung index).rCur - (ladder.rung index).bucketwidth
  room : ∀ index ≤ ladder.lowestRung, (ladder.rung index).currentBucket ≤ 49
  ahead : ∀ index ≤ ladder.lowestRung, ladder.events index ≠ 0 →
    (ladder.rung index).currentBucket < 49

structure Valid (ladder : Ladder) : Prop where
  sound : ladder.Sound
  aligned : ladder.nbc ≠ 0 → ladder.Aligned

theorem rung_init {thres index : Nat} (inside : index < (init thres).nRung) :
    (init thres).rung index = Rung.fresh thres := by
  rw [nRung, init, List.length_replicate] at inside
  rw [rung, init, List.getD_eq_getElem?_getD, List.getElem?_replicate, if_pos inside]
  rfl

theorem init_sound : (init defaultThres).Sound where
  thres := rfl
  rungs := by decide
  lowest := by decide
  packed := by
    intro index inside
    rw [rung_init inside]
    exact Rung.fresh_packed defaultThres (by decide)
  deeper := by
    intro index inside _
    rw [rung_init inside]
    rfl
  first := rfl
  unused := by
    intro index _
    simp only [events, rung, init, List.getD_eq_getElem?_getD, List.getElem?_replicate]
    split <;> rfl
  counted := by decide

theorem init_valid : (init defaultThres).Valid :=
  ⟨init_sound, fun loaded => absurd rfl loaded⟩

theorem events_outside (ladder : Ladder) {index : Nat} (outside : ladder.nRung ≤ index) :
    ladder.events index = 0 := by
  rw [events, rung_of_outside ladder outside]
  rfl

theorem Sound.unloaded {ladder : Ladder} (sound : ladder.Sound) (empty : ladder.nbc = 0)
    (index : Nat) : ladder.events index = 0 := by
  by_cases inside : index < maxRungs
  · have all := sound.counted
    rw [empty] at all
    exact Finset.sum_eq_zero_iff.mp all.symm index (Finset.mem_range.mpr inside)
  · exact events_outside ladder (by have := sound.rungs; omega)

theorem Sound.events_first {ladder : Ladder} (sound : ladder.Sound)
    (first : ladder.lowestRung = 0) : ladder.events 0 = ladder.nbc := by
  have alone : ∑ index ∈ Finset.range maxRungs, ladder.events index = ladder.events 0 := by
    apply Finset.sum_eq_single_of_mem 0 (by decide)
    intro index _ other
    exact sound.unused index (by omega)
  rw [sound.counted, alone]

theorem Sound.changed {ladder next : Ladder} (sound : ladder.Sound) {index : Nat}
    (inside : index < ladder.nRung) (thres : next.thres = ladder.thres)
    (nRung : next.nRung = ladder.nRung)
    (bucketsFirstRung : next.bucketsFirstRung = ladder.bucketsFirstRung)
    (lowest : next.lowestRung < ladder.nRung)
    (others : ∀ query ≠ index, next.rung query = ladder.rung query)
    (packed : (next.rung index).Packed)
    (buckets : (next.rung index).buckets = (ladder.rung index).buckets)
    (unused : ∀ query > next.lowestRung, next.events query = 0)
    (counted : next.nbc + ladder.events index = ladder.nbc + next.events index) :
    next.Sound where
  thres := by rw [thres, sound.thres]
  rungs := by rw [nRung]; exact sound.rungs
  lowest := by rwa [nRung]
  packed := by
    intro query bound
    by_cases same : query = index
    · rwa [same]
    · rw [others query same]
      exact sound.packed query (by rwa [← nRung])
  deeper := by
    intro query bound positive
    by_cases same : query = index
    · rw [same, buckets]
      exact sound.deeper index inside (by omega)
    · rw [others query same]
      exact sound.deeper query (by rwa [← nRung]) positive
  first := by
    rw [bucketsFirstRung, ← sound.first]
    by_cases same : 0 = index
    · rw [same, buckets]
    · rw [others 0 same]
  unused := unused
  counted := by
    have sum := Sums.sum_range_changed ladder.events next.events
      (Nat.lt_of_lt_of_le inside sound.rungs)
      fun query other => by rw [events, others query other, events]
    have before := sound.counted
    omega

/-! The times of the rungs. -/

theorem Aligned.width_pos {ladder : Ladder} (aligned : ladder.Aligned) (index : Nat)
    (used : index ≤ ladder.lowestRung) : 0 < (ladder.rung index).bucketwidth := by
  induction index with
  | zero => exact aligned.width
  | succ index ih =>
      have above := ih (by omega)
      have step := (aligned.nested index (by omega)).1
      linarith

theorem Aligned.rCur_step {ladder : Ladder} (aligned : ladder.Aligned) {index : Nat}
    (used : index < ladder.lowestRung) :
    (ladder.rung (index + 1)).rCur ≤ (ladder.rung index).rCur := by
  obtain ⟨width, start⟩ := aligned.nested index used
  have positive := aligned.width_pos (index + 1) used
  have room : ((ladder.rung (index + 1)).currentBucket : ℚ) ≤ 49 := by
    exact_mod_cast aligned.room (index + 1) used
  rw [aligned.timed (index + 1) used, start]
  nlinarith

theorem Aligned.rCur_anti {ladder : Ladder} (aligned : ladder.Aligned) {upper lower : Nat}
    (order : upper ≤ lower) (used : lower ≤ ladder.lowestRung) :
    (ladder.rung lower).rCur ≤ (ladder.rung upper).rCur := by
  induction lower, order using Nat.le_induction with
  | base => exact le_refl _
  | succ lower _ ih => exact (aligned.rCur_step used).trans (ih (by omega))

/-- A time that a rung takes, because the rung above it refuses it, lies before its end. -/
theorem Aligned.ahead_of_refused {ladder : Ladder} (aligned : ladder.Aligned) {index : Nat}
    {ts : ℚ} (used : index ≤ ladder.lowestRung) (above : (ladder.rung index).rCur ≤ ts)
    (refused : ∀ query < index, ts < (ladder.rung query).rCur) :
    (ladder.rung index).currentBucket < 49 := by
  cases index with
  | zero => simp [aligned.start]
  | succ index =>
      have below := refused index (by omega)
      obtain ⟨width, start⟩ := aligned.nested index (by omega)
      have positive := aligned.width_pos (index + 1) used
      rw [aligned.timed (index + 1) used, start] at above
      by_contra full
      have full : (49 : ℚ) ≤ (ladder.rung (index + 1)).currentBucket := by
        exact_mod_cast not_lt.mp full
      nlinarith

theorem Aligned.bucket_eq {ladder : Ladder} (aligned : ladder.Aligned) (sound : ladder.Sound)
    {index : Nat} {ts : ℚ} (used : index ≤ ladder.lowestRung)
    (above : (ladder.rung index).rCur ≤ ts)
    (refused : ∀ query < index, ts < (ladder.rung query).rCur) :
    ladder.bucket ts index = (ladder.rung index).currentBucket := by
  cases index with
  | zero => rw [bucket_of_first aligned.start, aligned.start]
  | succ index =>
      have below := refused index (by omega)
      obtain ⟨width, start⟩ := aligned.nested index (by omega)
      have inside : index + 1 < ladder.nRung := Nat.lt_of_le_of_lt used sound.lowest
      have buckets := sound.deeper (index + 1) inside (by omega)
      rw [aligned.timed (index + 1) used] at above
      apply bucket_of_open 49 (aligned.width_pos (index + 1) used) above
      · rw [start]
        push_cast
        linarith
      · norm_num
      · rw [buckets]
        decide

theorem Aligned.current_bound {ladder : Ladder} (sound : ladder.Sound) {index : Nat}
    (inside : index < ladder.nRung)
    (ahead : (ladder.rung index).currentBucket < 49)
    (start : (ladder.rung 0).currentBucket = 0) :
    (ladder.rung index).currentBucket < (ladder.rung index).lists.length := by
  rw [(sound.packed index inside).allocated]
  cases index with
  | zero =>
      rw [start]
      exact (sound.packed 0 inside).buckets
  | succ index =>
      rw [sound.deeper (index + 1) inside (by omega)]
      exact Nat.lt_trans ahead (by decide)

end Ladder

end RlAqs
