import RlAqs.Queue.LadderTotal

/-! Opening a rung, and the two operations that fill it: `pushBack` and the copy of `spawn`. -/

namespace RlAqs

namespace Ladder

def extended (ladder : Ladder) : Ladder :=
  if ladder.lowestRung + 1 ≥ ladder.nRung ∧ ladder.nRung < maxRungs then
    ladder.createRung else ladder

def nestedIn (thres : Nat) (previous rung : Rung) : Rung :=
  { rung with
    bucketwidth := previous.bucketwidth / (thres - 1 : Nat)
    rStart := previous.rCur - previous.bucketwidth
    rCur := previous.rCur - previous.bucketwidth
    currentBucket := 0 }

theorem rung_createRung_of_ne (ladder : Ladder) {query : Nat} (other : query ≠ ladder.nRung) :
    ladder.createRung.rung query = ladder.rung query := by
  simp only [nRung] at other
  simp only [createRung, rung, List.getD_eq_getElem?_getD, List.getElem?_append]
  by_cases inside : query < ladder.rungs.length
  · simp [inside]
  · have past : query - ladder.rungs.length ≠ 0 := by omega
    rw [if_neg inside, List.getElem?_eq_none (l := ladder.rungs) (by omega),
      List.getElem?_eq_none (by simp only [List.length_singleton]; omega)]

theorem rung_createRung_self (ladder : Ladder) :
    ladder.createRung.rung ladder.nRung = Rung.fresh ladder.thres := by
  simp [createRung, rung, nRung]

theorem createRung_nRung (ladder : Ladder) : ladder.createRung.nRung = ladder.nRung + 1 := by
  simp [createRung, nRung]

theorem Sound.createRung {ladder : Ladder} (sound : ladder.Sound)
    (room : ladder.nRung < maxRungs) : ladder.createRung.Sound where
  thres := sound.thres
  rungs := by rw [createRung_nRung]; exact room
  lowest := by rw [createRung_nRung]; exact Nat.lt_succ_of_lt sound.lowest
  packed := by
    intro query inside
    rw [createRung_nRung] at inside
    by_cases last : query = ladder.nRung
    · rw [last, rung_createRung_self, sound.thres]
      exact Rung.fresh_packed defaultThres (by decide)
    · rw [rung_createRung_of_ne ladder last]
      exact sound.packed query (by omega)
  deeper := by
    intro query inside positive
    rw [createRung_nRung] at inside
    by_cases last : query = ladder.nRung
    · rw [last, rung_createRung_self]
      exact sound.thres
    · rw [rung_createRung_of_ne ladder last]
      exact sound.deeper query (by omega) positive
  first := by
    have lowest := sound.lowest
    rw [rung_createRung_of_ne ladder (by omega)]
    exact sound.first
  unused := by
    intro query above
    by_cases last : query = ladder.nRung
    · rw [events, last, rung_createRung_self]
      rfl
    · rw [events, rung_createRung_of_ne ladder last]
      exact sound.unused query above
  counted := by
    have same : ∀ query, ladder.createRung.events query = ladder.events query := by
      intro query
      by_cases last : query = ladder.nRung
      · rw [last, events_outside ladder (Nat.le_refl _), events, rung_createRung_self]
        rfl
      · rw [events, rung_createRung_of_ne ladder last, events]
    simp only [same]
    exact sound.counted

theorem Sound.extended {ladder : Ladder} (sound : ladder.Sound) : ladder.extended.Sound := by
  simp only [Ladder.extended]
  split
  · rename_i create
    exact sound.createRung create.2
  · exact sound

theorem extended_nRung {ladder : Ladder} (lowest : ladder.lowestRung < ladder.nRung)
    (room : ladder.lowestRung < maxRungs - 1) :
    ladder.lowestRung + 1 < ladder.extended.nRung := by
  simp only [Ladder.extended]
  split
  · rw [createRung_nRung]
    omega
  · rename_i keep
    simp only [maxRungs] at room keep
    omega

theorem Sound.extended_nRung {ladder : Ladder} (sound : ladder.Sound)
    (room : ladder.lowestRung < maxRungs - 1) :
    ladder.lowestRung + 1 < ladder.extended.nRung :=
  Ladder.extended_nRung sound.lowest room

@[simp] theorem extended_thres (ladder : Ladder) : ladder.extended.thres = ladder.thres := by
  simp only [extended]
  split <;> rfl

@[simp] theorem extended_lowestRung (ladder : Ladder) :
    ladder.extended.lowestRung = ladder.lowestRung := by
  simp only [extended]
  split <;> rfl

@[simp] theorem extended_nbc (ladder : Ladder) : ladder.extended.nbc = ladder.nbc := by
  simp only [extended]
  split <;> rfl

theorem rung_extended {ladder : Ladder} (lowest : ladder.lowestRung < ladder.nRung) {query : Nat}
    (used : query ≤ ladder.lowestRung) : ladder.extended.rung query = ladder.rung query := by
  simp only [Ladder.extended]
  split
  · exact rung_createRung_of_ne ladder (by omega)
  · rfl

theorem Sound.rung_extended {ladder : Ladder} (sound : ladder.Sound) {query : Nat}
    (used : query ≤ ladder.lowestRung) : ladder.extended.rung query = ladder.rung query :=
  Ladder.rung_extended sound.lowest used

theorem openRung_eq {ladder : Ladder} (lowest : ladder.lowestRung < ladder.nRung) :
    ladder.openRung =
      { ladder.extended.modifyRung (ladder.lowestRung + 1)
          (nestedIn ladder.thres ladder.lowest) with lowestRung := ladder.lowestRung + 1 } := by
  have above := rung_extended lowest (Nat.le_refl ladder.lowestRung)
  simp only [Ladder.extended, nRung] at above ⊢
  by_cases create : ladder.lowestRung + 1 ≥ ladder.rungs.length ∧ ladder.rungs.length < maxRungs
  · simp only [create, and_self, ↓reduceIte] at above ⊢
    simp only [openRung, nRung, create, and_self, ↓reduceIte]
    change modifyRung _ _ (nestedIn _ (ladder.createRung.rung _)) = _
    rw [above]
    rfl
  · simp only [openRung, nRung, create, ↓reduceIte]
    rfl

theorem Sound.openRung_eq {ladder : Ladder} (sound : ladder.Sound) :
    ladder.openRung =
      { ladder.extended.modifyRung (ladder.lowestRung + 1)
          (nestedIn ladder.thres ladder.lowest) with lowestRung := ladder.lowestRung + 1 } :=
  Ladder.openRung_eq sound.lowest

theorem Sound.rung_openRung_of_ne {ladder : Ladder} (sound : ladder.Sound) {query : Nat}
    (other : query ≠ ladder.lowestRung + 1) :
    ladder.openRung.rung query = ladder.extended.rung query := by
  rw [sound.openRung_eq]
  exact rung_modifyRung_of_ne _ _ other

theorem Sound.rung_openRung_self {ladder : Ladder} (sound : ladder.Sound)
    (room : ladder.lowestRung < maxRungs - 1) :
    ladder.openRung.rung (ladder.lowestRung + 1) =
      nestedIn ladder.thres ladder.lowest (ladder.extended.rung (ladder.lowestRung + 1)) := by
  rw [sound.openRung_eq]
  exact rung_modifyRung_self _ _ (sound.extended_nRung room)

theorem Sound.rung_openRung_used {ladder : Ladder} (sound : ladder.Sound) {query : Nat}
    (used : query ≤ ladder.lowestRung) : ladder.openRung.rung query = ladder.rung query := by
  rw [sound.rung_openRung_of_ne (by omega), sound.rung_extended used]

theorem Sound.openRung_lowestRung {ladder : Ladder} (sound : ladder.Sound) :
    ladder.openRung.lowestRung = ladder.lowestRung + 1 := by
  rw [sound.openRung_eq]

theorem Sound.openRung_nbc {ladder : Ladder} (sound : ladder.Sound) :
    ladder.openRung.nbc = ladder.nbc := by
  rw [sound.openRung_eq]
  simp

theorem Sound.openRung {ladder : Ladder} (sound : ladder.Sound)
    (room : ladder.lowestRung < maxRungs - 1) : ladder.openRung.Sound := by
  have wide := sound.extended_nRung room
  have extended := sound.extended
  have unloaded : ladder.extended.events (ladder.lowestRung + 1) = 0 :=
    extended.unused _ (by simp)
  have own := sound.rung_openRung_self room
  have packed := extended.packed (ladder.lowestRung + 1) wide
  refine extended.changed wide ?_ ?_ ?_ ?_ (fun query => sound.rung_openRung_of_ne) ?_ ?_ ?_ ?_
  · rw [sound.openRung_eq]
    rfl
  · rw [sound.openRung_eq]
    exact modifyRung_nRung _ _ _
  · rw [sound.openRung_eq]
    rfl
  · rw [sound.openRung_lowestRung]
    exact wide
  · rw [own]
    exact packed.unloaded unloaded rfl rfl unloaded
  · rw [own]
    rfl
  · intro query above
    rw [sound.openRung_lowestRung] at above
    rw [events, sound.rung_openRung_of_ne (by omega)]
    exact extended.unused query (by rw [extended_lowestRung]; omega)
  · rw [sound.openRung_nbc, extended_nbc, events, events, own]
    rfl

theorem Sound.openRung_events {ladder : Ladder} (sound : ladder.Sound)
    (room : ladder.lowestRung < maxRungs - 1) :
    ladder.openRung.events (ladder.lowestRung + 1) = 0 := by
  rw [events, sound.rung_openRung_self room]
  exact sound.extended.unused _ (by simp)

theorem Sound.openRung_held {ladder : Ladder} (sound : ladder.Sound)
    (room : ladder.lowestRung < maxRungs - 1) : ladder.openRung.held = ladder.held := by
  funext query
  by_cases used : query ≤ ladder.lowestRung
  · rw [held, held, sound.rung_openRung_used used]
  · rw [held_of_unloaded sound (sound.unused query (by omega)),
      held_of_unloaded (sound.openRung room)]
    by_cases last : query = ladder.lowestRung + 1
    · rw [last]
      exact sound.openRung_events room
    · exact (sound.openRung room).unused query (by rw [sound.openRung_lowestRung]; omega)

theorem Aligned.openRung {ladder : Ladder} (aligned : ladder.Aligned) (sound : ladder.Sound)
    (room : ladder.lowestRung < maxRungs - 1) : ladder.openRung.Aligned := by
  have own := sound.rung_openRung_self room
  have steps : ((ladder.thres - 1 : Nat) : ℚ) = 49 := by
    rw [sound.thres]
    norm_num [defaultThres]
  have low := sound.openRung_lowestRung
  constructor
  · rw [sound.rung_openRung_used (by omega)]
    exact aligned.width
  · rw [sound.rung_openRung_used (by omega)]
    exact aligned.start
  · intro query bound
    by_cases last : query = ladder.lowestRung + 1
    · rw [last, own]
      simp [nestedIn]
    · rw [sound.rung_openRung_used (by omega)]
      exact aligned.timed query (by omega)
  · intro query bound
    by_cases last : query = ladder.lowestRung
    · rw [last, own, sound.rung_openRung_used (Nat.le_refl _)]
      simp only [nestedIn, steps, lowest]
      exact ⟨by ring, trivial⟩
    · rw [sound.rung_openRung_used (by omega), sound.rung_openRung_used (by omega)]
      exact aligned.nested query (by omega)
  · intro query bound
    by_cases last : query = ladder.lowestRung + 1
    · rw [last, own]
      simp [nestedIn]
    · rw [sound.rung_openRung_used (by omega)]
      exact aligned.room query (by omega)
  · intro query bound loaded
    by_cases last : query = ladder.lowestRung + 1
    · rw [last, own]
      simp [nestedIn]
    · rw [events, sound.rung_openRung_used (by omega)] at loaded
      rw [sound.rung_openRung_used (by omega)]
      exact aligned.ahead query (by omega) loaded

theorem Sound.openRung_bound {ladder : Ladder} (sound : ladder.Sound)
    (room : ladder.lowestRung < maxRungs - 1) :
    (ladder.openRung.rung (ladder.lowestRung + 1)).currentBucket = 0 ∧
      0 < (ladder.openRung.rung (ladder.lowestRung + 1)).lists.length := by
  have opened := sound.openRung room
  have inside : ladder.lowestRung + 1 < ladder.openRung.nRung := by
    rw [← sound.openRung_lowestRung]
    exact opened.lowest
  have packed := opened.packed _ inside
  refine ⟨?_, ?_⟩
  · rw [sound.rung_openRung_self room]
    rfl
  · rw [packed.allocated]
    exact packed.buckets

/-! The list of the bottom goes to a new rung. -/

def pushedBack (ladder : Ladder) (list : List Entry) : Ladder :=
  ladder.openRung.putAll (ladder.lowestRung + 1) list

theorem pushBack_refused {ladder : Ladder} (list : List Entry)
    (full : ¬ ladder.lowestRung < maxRungs - 1) :
    ladder.pushBack list = (.error (.thrown .rungOutOfBounds), ladder, list) := by
  simp only [pushBack, spawn, full, ↓reduceIte]

theorem Sound.pushBack_eq {ladder : Ladder} (sound : ladder.Sound) (list : List Entry)
    (room : ladder.lowestRung < maxRungs - 1) :
    ladder.pushBack list = (.ok (), ladder.pushedBack list, []) := by
  obtain ⟨first, allocated⟩ := sound.openRung_bound room
  have inside : ladder.lowestRung + 1 < ladder.openRung.nRung := by
    rw [← sound.openRung_lowestRung]
    exact (sound.openRung room).lowest
  simp only [pushBack, spawn, room, ↓reduceIte, Bool.false_eq_true]
  rw [sound.openRung_lowestRung]
  exact pushRung_eq _ list inside first allocated

theorem Valid.pushedBack {ladder : Ladder} (valid : ladder.Valid) (list : List Entry)
    (loaded : ladder.nbc ≠ 0) (room : ladder.lowestRung < maxRungs - 1) :
    (ladder.pushedBack list).Valid := by
  have sound := valid.sound
  obtain ⟨first, allocated⟩ := sound.openRung_bound room
  have used : ladder.lowestRung + 1 ≤ ladder.openRung.lowestRung :=
    sound.openRung_lowestRung.ge
  constructor
  · exact (sound.openRung room).putAll list used (by rwa [first])
  · intro _
    exact ((valid.aligned loaded).openRung sound room).putAll (sound.openRung room) list used
      (by rw [first]; norm_num)

theorem Sound.pushedBack_held {ladder : Ladder} (sound : ladder.Sound) (list : List Entry)
    (room : ladder.lowestRung < maxRungs - 1) :
    (ladder.pushedBack list).held =
      Function.update ladder.held (ladder.lowestRung + 1) (list : Multiset Entry) := by
  obtain ⟨first, allocated⟩ := sound.openRung_bound room
  have opened := sound.openRung room
  rw [Ladder.pushedBack, opened.held_putAll list sound.openRung_lowestRung.ge (by rwa [first]),
    sound.openRung_held room, held_of_unloaded sound (sound.unused _ (Nat.lt_succ_self _)),
    zero_add]

end Ladder

end RlAqs
