import RlAqs.Queue.LadderInvariant

/-!
The operations of a valid ladder: none of them leaves the arrays, each keeps the
ladder valid, and `held` says where the events are afterwards.
-/

namespace RlAqs

namespace Ladder

def held (ladder : Ladder) (index : Nat) : Multiset Entry := (ladder.rung index).held

theorem held_of_unloaded {ladder : Ladder} (sound : ladder.Sound) {index : Nat}
    (unloaded : ladder.events index = 0) : ladder.held index = 0 := by
  by_cases inside : index < ladder.nRung
  · have packed := sound.packed index inside
    exact Multiset.card_eq_zero.mp (packed.card_held.trans unloaded)
  · rw [held, rung_of_outside ladder (by omega)]
    rfl

theorem held_changed {ladder next : Ladder} {index : Nat} {content : Multiset Entry}
    (others : ∀ query ≠ index, next.rung query = ladder.rung query)
    (own : (next.rung index).held = content) :
    next.held = Function.update ladder.held index content := by
  funext query
  by_cases same : query = index
  · rw [same, Function.update_self]
    exact own
  · rw [Function.update_of_ne same, held, held, others query same]

/-! Appending to a current bucket. -/

theorem Sound.putAll {ladder : Ladder} (sound : ladder.Sound) {index : Nat}
    (list : List Entry) (used : index ≤ ladder.lowestRung)
    (bound : (ladder.rung index).currentBucket < (ladder.rung index).lists.length) :
    (ladder.putAll index list).Sound := by
  have inside : index < ladder.nRung := Nat.lt_of_le_of_lt used sound.lowest
  have own := rung_putAll_self ladder list inside
  refine sound.changed inside rfl (putAll_nRung ladder index list) rfl sound.lowest
    (fun query other => rung_putAll_of_ne ladder list other) ?_ ?_ ?_ ?_
  · rw [own]
    exact (sound.packed index inside).putAll list bound
  · rw [own]
    rfl
  · intro query above
    rw [putAll_lowestRung] at above
    rw [events, rung_putAll_of_ne ladder list (by omega)]
    exact sound.unused query above
  · rw [putAll_nbc, events, events, own]
    simp only [Rung.putAll]
    omega

theorem Sound.held_putAll {ladder : Ladder} (sound : ladder.Sound) {index : Nat}
    (list : List Entry) (used : index ≤ ladder.lowestRung)
    (bound : (ladder.rung index).currentBucket < (ladder.rung index).lists.length) :
    (ladder.putAll index list).held =
      Function.update ladder.held index (ladder.held index + list) := by
  have inside : index < ladder.nRung := Nat.lt_of_le_of_lt used sound.lowest
  apply held_changed fun query other => rung_putAll_of_ne ladder list other
  rw [rung_putAll_self ladder list inside]
  exact (sound.packed index inside).held_putAll list bound

theorem Aligned.putAll {ladder : Ladder} (aligned : ladder.Aligned) (sound : ladder.Sound)
    {index : Nat} (list : List Entry) (used : index ≤ ladder.lowestRung)
    (ahead : (ladder.rung index).currentBucket < 49) : (ladder.putAll index list).Aligned := by
  have inside : index < ladder.nRung := Nat.lt_of_le_of_lt used sound.lowest
  have times : ∀ query,
      ((ladder.putAll index list).rung query).currentBucket = (ladder.rung query).currentBucket ∧
      ((ladder.putAll index list).rung query).bucketwidth = (ladder.rung query).bucketwidth ∧
      ((ladder.putAll index list).rung query).rCur = (ladder.rung query).rCur ∧
      ((ladder.putAll index list).rung query).rStart = (ladder.rung query).rStart := by
    intro query
    by_cases same : query = index
    · rw [same, rung_putAll_self ladder list inside]
      exact ⟨rfl, rfl, rfl, rfl⟩
    · rw [rung_putAll_of_ne ladder list same]
      exact ⟨rfl, rfl, rfl, rfl⟩
  constructor
  · rw [(times 0).2.1]
    exact aligned.width
  · rw [(times 0).1]
    exact aligned.start
  · intro query bound
    rw [(times query).1, (times query).2.1, (times query).2.2.1, (times query).2.2.2]
    exact aligned.timed query bound
  · intro query bound
    rw [(times query).2.1, (times query).2.2.1, (times (query + 1)).2.1,
      (times (query + 1)).2.2.2]
    exact aligned.nested query bound
  · intro query bound
    rw [(times query).1]
    exact aligned.room query bound
  · intro query bound loaded
    rw [(times query).1]
    by_cases same : query = index
    · rwa [same]
    · rw [events, rung_putAll_of_ne ladder list same] at loaded
      exact aligned.ahead query bound loaded

def place (ladder : Ladder) (ts : ℚ) : Nat := ladder.findRung ts ladder.lowestRung

theorem place_spec {ladder : Ladder} {ts : ℚ} (fits : ladder.lowest.rCur ≤ ts) :
    ladder.place ts ≤ ladder.lowestRung ∧ (ladder.rung (ladder.place ts)).rCur ≤ ts ∧
      ∀ index < ladder.place ts, ts < (ladder.rung index).rCur :=
  ladder.findRung_spec ts ladder.lowestRung (Nat.le_refl _) fits fun index bound => by omega

/-- A ladder takes the times from the `rCur` of its lowest rung on. -/
def Takes (ladder : Ladder) (ts : ℚ) : Prop := ladder.nbc ≠ 0 ∧ ladder.lowest.rCur ≤ ts

instance (ladder : Ladder) (ts : ℚ) : Decidable (ladder.Takes ts) :=
  inferInstanceAs (Decidable (_ ∧ _))

theorem push_refused {ladder : Ladder} {entry : Entry} (refused : ¬ ladder.Takes entry.arrival) :
    ∃ code, ladder.push entry = (.error (.thrown code), ladder) := by
  simp only [Takes, not_and, not_le] at refused
  by_cases unloaded : ladder.nbc = 0
  · exact ⟨.noEpochInit, by simp [push, getNBC, unloaded]⟩
  · exact ⟨.rungNotFound, by simp [push, getNBC, unloaded, refused unloaded]⟩

theorem Valid.place_ahead {ladder : Ladder} (valid : ladder.Valid) {ts : ℚ}
    (takes : ladder.Takes ts) : (ladder.rung (ladder.place ts)).currentBucket < 49 := by
  obtain ⟨used, above, refused⟩ := place_spec takes.2
  exact (valid.aligned takes.1).ahead_of_refused used above refused

theorem Valid.place_bound {ladder : Ladder} (valid : ladder.Valid) {ts : ℚ}
    (takes : ladder.Takes ts) : (ladder.rung (ladder.place ts)).currentBucket <
      (ladder.rung (ladder.place ts)).lists.length := by
  obtain ⟨used, above, refused⟩ := place_spec takes.2
  exact Aligned.current_bound valid.sound (Nat.lt_of_le_of_lt used valid.sound.lowest)
    (valid.place_ahead takes) (valid.aligned takes.1).start

theorem Valid.push_eq {ladder : Ladder} (valid : ladder.Valid) {entry : Entry}
    (takes : ladder.Takes entry.arrival) :
    ladder.push entry = (.ok true, ladder.putAll (ladder.place entry.arrival) [entry]) := by
  obtain ⟨used, above, refused⟩ := place_spec takes.2
  have aligned := valid.aligned takes.1
  have inside := Nat.lt_of_le_of_lt used valid.sound.lowest
  have entered := ladder.enter_eq entry inside
    (aligned.bucket_eq valid.sound used above refused) (valid.place_bound takes)
  simp only [place] at used entered ⊢
  simp only [push, getNBC, takes.1, not_lt.mpr takes.2, used, entered, ↓reduceIte]

theorem Valid.push_valid {ladder : Ladder} (valid : ladder.Valid) {entry : Entry}
    (takes : ladder.Takes entry.arrival) :
    (ladder.putAll (ladder.place entry.arrival) [entry]).Valid :=
  ⟨valid.sound.putAll [entry] (place_spec takes.2).1 (valid.place_bound takes),
    fun _ => (valid.aligned takes.1).putAll valid.sound [entry] (place_spec takes.2).1
      (valid.place_ahead takes)⟩

theorem Valid.push_held {ladder : Ladder} (valid : ladder.Valid) {entry : Entry}
    (takes : ladder.Takes entry.arrival) :
    (ladder.putAll (ladder.place entry.arrival) [entry]).held =
      Function.update ladder.held (ladder.place entry.arrival)
        (entry ::ₘ ladder.held (ladder.place entry.arrival)) := by
  rw [valid.sound.held_putAll [entry] (place_spec takes.2).1 (valid.place_bound takes),
    Multiset.coe_singleton, add_comm, Multiset.singleton_add]

end Ladder

end RlAqs
