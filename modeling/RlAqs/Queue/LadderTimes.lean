import RlAqs.Queue.LadderDelist

/-!
What the times of the rungs say about the events in them: a rung holds nothing
before its `rCur`, and what lies below a rung is not after the `rCur` of the rung.
-/

namespace RlAqs

namespace Ladder

structure Timed (ladder : Ladder) : Prop where
  above : ∀ index ≤ ladder.lowestRung, ∀ x ∈ ladder.held index,
    (ladder.rung index).rCur ≤ x.arrival
  below : ∀ index < ladder.lowestRung, ∀ deeper > index, ∀ x ∈ ladder.held deeper,
    x.arrival ≤ (ladder.rung index).rCur

theorem rCur_putAll (ladder : Ladder) (index : Nat) (list : List Entry) (query : Nat) :
    ((ladder.putAll index list).rung query).rCur = (ladder.rung query).rCur := by
  by_cases same : query = index
  · by_cases inside : query < ladder.nRung
    · subst same
      rw [rung_putAll_self ladder list inside]
      rfl
    · rw [rung_of_outside _ (by simpa using inside), rung_of_outside _ (by omega)]
  · rw [rung_putAll_of_ne ladder list same]

theorem Timed.push {ladder : Ladder} (timed : ladder.Timed) (valid : ladder.Valid)
    {entry : Entry} (takes : ladder.Takes entry.arrival) :
    (ladder.putAll (ladder.place entry.arrival) [entry]).Timed := by
  obtain ⟨_, reached, refused⟩ := place_spec takes.2
  have held := valid.push_held takes
  constructor
  · intro index used x member
    rw [rCur_putAll]
    rw [held] at member
    by_cases same : index = ladder.place entry.arrival
    · rw [same, Function.update_self, Multiset.mem_cons] at member
      rcases member with rfl | member
      · rwa [same]
      · rw [same] at used ⊢
        exact timed.above _ used x member
    · rw [Function.update_of_ne same] at member
      exact timed.above index used x member
  · intro index used deeper order x member
    rw [rCur_putAll]
    rw [held] at member
    by_cases same : deeper = ladder.place entry.arrival
    · rw [same, Function.update_self, Multiset.mem_cons] at member
      rcases member with rfl | member
      · exact (refused index (by omega)).le
      · exact timed.below index used _ (by omega) x member
    · rw [Function.update_of_ne same] at member
      exact timed.below index used deeper order x member

theorem Timed.epoch {ladder : Ladder} (sound : ladder.Sound) (unloaded : ladder.nbc = 0)
    (list : List Entry) (maxTS minTS : ℚ) (start : ∀ x ∈ list, minTS ≤ x.arrival) :
    (ladder.epoch list maxTS minTS).Timed := by
  have lowest := sound.epoch_lowestRung unloaded list maxTS minTS
  constructor
  · intro index used x member
    obtain rfl : index = 0 := by omega
    rw [sound.epoch_held unloaded, Function.update_self] at member
    rw [sound.epoch_rCur unloaded]
    exact start x member
  · intro index used
    omega

theorem Timed.pushedBack {ladder : Ladder} (timed : ladder.Timed) (valid : ladder.Valid)
    (loaded : ladder.nbc ≠ 0) (room : ladder.lowestRung < maxRungs - 1) (list : List Entry)
    (range : ∀ x ∈ list, ladder.lowest.rCur - ladder.lowest.bucketwidth ≤ x.arrival ∧
      x.arrival ≤ ladder.lowest.rCur) : (ladder.pushedBack list).Timed := by
  have sound := valid.sound
  have held := sound.pushedBack_held list room
  have low : (ladder.pushedBack list).lowestRung = ladder.lowestRung + 1 :=
    sound.openRung_lowestRung
  have upper : ∀ index ≤ ladder.lowestRung,
      ((ladder.pushedBack list).rung index).rCur = (ladder.rung index).rCur := by
    intro index used
    rw [Ladder.pushedBack, rCur_putAll, sound.rung_openRung_used used]
  constructor
  · intro index used x member
    rw [held] at member
    by_cases same : index = ladder.lowestRung + 1
    · rw [same, Function.update_self] at member
      rw [same, Ladder.pushedBack, rCur_putAll, sound.rung_openRung_self room]
      exact (range x member).1
    · rw [Function.update_of_ne same] at member
      rw [upper index (by omega)]
      exact timed.above index (by omega) x member
  · intro index used deeper order x member
    rw [held] at member
    rw [upper index (by omega)]
    by_cases same : deeper = ladder.lowestRung + 1
    · rw [same, Function.update_self] at member
      have anti := (valid.aligned loaded).rCur_anti
        (show index ≤ ladder.lowestRung by omega)
        (Nat.le_refl ladder.lowestRung)
      exact (range x member).2.trans anti
    · rw [Function.update_of_ne same] at member
      by_cases last : index = ladder.lowestRung
      · rw [held_of_unloaded sound (sound.unused deeper (by omega))] at member
        exact absurd member (Multiset.notMem_zero x)
      · exact timed.below index (by omega) deeper order x member

theorem Delisted.timed {ladder next : Ladder} {list : List Entry} {index : Nat}
    (delisted : ladder.Delisted next list index) (timed : ladder.Timed) : next.Timed := by
  have kept : ∀ query x, x ∈ next.held query → query ≠ index ∧ x ∈ ladder.held query := by
    intro query x member
    rw [delisted.held] at member
    by_cases same : query = index
    · rw [same, Function.update_self] at member
      exact absurd member (Multiset.notMem_zero x)
    · rw [Function.update_of_ne same] at member
      exact ⟨same, member⟩
  have lowest := delisted.lowest
  have below := delisted.used
  constructor
  · intro query used x member
    obtain ⟨other, before⟩ := kept query x member
    rw [delisted.upper query (by omega)]
    exact timed.above query (by omega) x before
  · intro query used deeper order x member
    obtain ⟨other, before⟩ := kept deeper x member
    rw [delisted.upper query (by omega)]
    exact timed.below query (by omega) deeper order x before

end Ladder

end RlAqs
