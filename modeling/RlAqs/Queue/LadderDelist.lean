import RlAqs.Queue.LadderEpoch

/-!
`delist` takes everything a valid ladder holds in its deepest rung with events,
also when it spawns a rung on the way.
-/

namespace RlAqs

namespace Ladder

def pass (ladder : Ladder) (index : Nat) : Ladder :=
  ladder.modifyRung index fun rung => { rung with rCur := rung.rCur + rung.bucketwidth }

def takeCurrent (ladder : Ladder) (index : Nat) : Ladder :=
  { ladder.modifyRung index Rung.closed with
    nbc := ladder.nbc - (ladder.rung index).current.length }

def closeLowest (ladder : Ladder) : Ladder :=
  let closed := (ladder.takeCurrent ladder.lowestRung).pass ladder.lowestRung
  if ladder.lowestRung > 0 then closed.dropLowest else closed

def spawned (ladder : Ladder) : Ladder :=
  let opened := (ladder.pass ladder.lowestRung).openRung
  (opened.takeCurrent ladder.lowestRung).putAll (ladder.lowestRung + 1) ladder.lowest.current

section Rungs

variable (ladder : Ladder) {index query : Nat}

theorem rung_pass_self (inside : index < ladder.nRung) :
    (ladder.pass index).rung index =
      { ladder.rung index with
        rCur := (ladder.rung index).rCur + (ladder.rung index).bucketwidth } :=
  rung_modifyRung_self ladder _ inside

theorem rung_pass_of_ne (other : query ≠ index) :
    (ladder.pass index).rung query = ladder.rung query :=
  rung_modifyRung_of_ne ladder _ other

theorem rung_takeCurrent_self (inside : index < ladder.nRung) :
    (ladder.takeCurrent index).rung index = (ladder.rung index).closed :=
  rung_modifyRung_self ladder _ inside

theorem rung_takeCurrent_of_ne (other : query ≠ index) :
    (ladder.takeCurrent index).rung query = ladder.rung query :=
  rung_modifyRung_of_ne ladder _ other

theorem rung_dropLowest_of_ne (other : query ≠ ladder.lowestRung) :
    ladder.dropLowest.rung query = ladder.rung query :=
  rung_modifyRung_of_ne ladder _ other

theorem rung_dropLowest_self (inside : ladder.lowestRung < ladder.nRung) :
    ladder.dropLowest.rung ladder.lowestRung =
      { ladder.lowest with rCur := dblMax, rStart := dblMax, currentBucket := 0 } :=
  rung_modifyRung_self ladder _ inside

theorem dropLowest_nRung : ladder.dropLowest.nRung = ladder.nRung :=
  modifyRung_nRung ladder _ _

@[simp] theorem pass_nRung : (ladder.pass index).nRung = ladder.nRung :=
  modifyRung_nRung ladder _ _

@[simp] theorem takeCurrent_nRung : (ladder.takeCurrent index).nRung = ladder.nRung :=
  modifyRung_nRung ladder _ _

end Rungs

theorem Sound.events_le {ladder : Ladder} (sound : ladder.Sound) (index : Nat) :
    ladder.events index ≤ ladder.nbc := by
  by_cases inside : index < maxRungs
  · rw [sound.counted]
    exact Sums.term_le_sum ladder.events inside
  · rw [events_outside ladder (by have := sound.rungs; omega)]
    exact Nat.zero_le _

theorem Sound.pass {ladder : Ladder} (sound : ladder.Sound) {index : Nat}
    (inside : index < ladder.nRung) : (ladder.pass index).Sound := by
  have own := rung_pass_self ladder inside
  refine sound.changed inside rfl (modifyRung_nRung _ _ _) rfl sound.lowest
    (fun query => rung_pass_of_ne ladder) ?_ ?_ ?_ ?_
  · rw [own]
    exact (sound.packed index inside).timed rfl rfl rfl rfl
  · rw [own]
  · intro query above
    by_cases same : query = index
    · rw [same, events, own]
      exact sound.unused index (by rwa [← same])
    · rw [events, rung_pass_of_ne ladder same]
      exact sound.unused query above
  · rw [events, events, own]
    rfl

theorem pass_held {ladder : Ladder} {index : Nat} (inside : index < ladder.nRung) :
    (ladder.pass index).held = ladder.held := by
  rw [held_changed (fun query => rung_pass_of_ne ladder) rfl, rung_pass_self ladder inside]
  exact Function.update_eq_self index ladder.held

theorem Sound.takeCurrent {ladder : Ladder} (sound : ladder.Sound) {index : Nat}
    (inside : index < ladder.nRung) : (ladder.takeCurrent index).Sound := by
  have own := rung_takeCurrent_self ladder inside
  have packed := sound.packed index inside
  refine sound.changed inside rfl (modifyRung_nRung _ _ _) rfl sound.lowest
    (fun query => rung_takeCurrent_of_ne ladder) ?_ ?_ ?_ ?_
  · rw [own]
    exact packed.closed
  · rw [own]
    rfl
  · intro query above
    by_cases same : query = index
    · rw [same, events, own]
      exact packed.closed_events
    · rw [events, rung_takeCurrent_of_ne ladder same]
      exact sound.unused query above
  · have bound := sound.events_le index
    have counted := packed.counted
    rw [events, events, own, packed.closed_events]
    rw [events] at bound
    simp only [Ladder.takeCurrent]
    omega

theorem Sound.takeCurrent_held {ladder : Ladder} (sound : ladder.Sound) {index : Nat}
    (inside : index < ladder.nRung) :
    (ladder.takeCurrent index).held = Function.update ladder.held index 0 := by
  apply held_changed fun query => rung_takeCurrent_of_ne ladder
  rw [rung_takeCurrent_self ladder inside]
  have packed := (sound.packed index inside).closed
  exact Multiset.card_eq_zero.mp
    (packed.card_held.trans (sound.packed index inside).closed_events)

theorem Sound.dropLowest {ladder : Ladder} (sound : ladder.Sound)
    (unloaded : ladder.events ladder.lowestRung = 0) : ladder.dropLowest.Sound := by
  have own := rung_dropLowest_self ladder sound.lowest
  refine sound.changed sound.lowest rfl (dropLowest_nRung ladder) rfl
    (Nat.lt_of_le_of_lt (Nat.sub_le _ _) sound.lowest)
    (fun query => rung_dropLowest_of_ne ladder) ?_ ?_ ?_ ?_
  · rw [own]
    exact (sound.packed _ sound.lowest).unloaded unloaded rfl rfl unloaded
  · rw [own]
    rfl
  · intro query above
    simp only [Ladder.dropLowest, modifyRung_lowestRung] at above
    by_cases same : query = ladder.lowestRung
    · rw [same, events, own]
      exact unloaded
    · rw [events, rung_dropLowest_of_ne ladder same]
      exact sound.unused query (by omega)
  · rw [events, events, own]
    rfl

theorem Sound.dropLowest_held {ladder : Ladder} (sound : ladder.Sound) :
    ladder.dropLowest.held = ladder.held := by
  rw [held_changed (fun query => rung_dropLowest_of_ne ladder) rfl,
    rung_dropLowest_self ladder sound.lowest]
  exact Function.update_eq_self ladder.lowestRung ladder.held

theorem Aligned.shortened {ladder next : Ladder} (aligned : ladder.Aligned)
    (lowest : next.lowestRung ≤ ladder.lowestRung)
    (same : ∀ query ≤ next.lowestRung, next.rung query = ladder.rung query) :
    next.Aligned where
  width := by rw [same 0 (Nat.zero_le _)]; exact aligned.width
  start := by rw [same 0 (Nat.zero_le _)]; exact aligned.start
  timed := fun query bound => by
    rw [same query bound]
    exact aligned.timed query (by omega)
  nested := fun query bound => by
    rw [same query (by omega), same (query + 1) (by omega)]
    exact aligned.nested query (by omega)
  room := fun query bound => by
    rw [same query bound]
    exact aligned.room query (by omega)
  ahead := fun query bound loaded => by
    rw [events, same query bound] at loaded
    rw [same query bound]
    exact aligned.ahead query (by omega) loaded

theorem Valid.dropLowest {ladder : Ladder} (valid : ladder.Valid)
    (positive : 0 < ladder.lowestRung)
    (unloaded : ladder.events ladder.lowestRung = 0) : ladder.dropLowest.Valid := by
  refine ⟨valid.sound.dropLowest unloaded, fun loaded => ?_⟩
  apply (valid.aligned loaded).shortened (Nat.sub_le _ _)
  intro query bound
  simp only [Ladder.dropLowest, modifyRung_lowestRung] at bound
  exact rung_dropLowest_of_ne ladder (by omega)

structure Skipped (ladder next : Ladder) : Prop where
  valid : next.Valid
  nbc : next.nbc = ladder.nbc
  held : next.held = ladder.held
  lowest : next.lowestRung ≤ ladder.lowestRung
  loaded : next.events next.lowestRung ≠ 0
  upper : ∀ query ≤ next.lowestRung, next.rung query = ladder.rung query

theorem Valid.skipEmptyRungs {ladder : Ladder} (valid : ladder.Valid) (loaded : ladder.nbc ≠ 0)
    (rounds : Nat) (enough : ladder.lowestRung ≤ rounds) :
    Skipped ladder (skipEmptyRungs rounds ladder) := by
  have stop : ∀ ladder : Ladder, ladder.Valid → ladder.nbc ≠ 0 →
      ¬ (ladder.lowestRung > 0 ∧ ladder.lowest.events = 0) → Skipped ladder ladder := by
    intro ladder valid loaded last
    refine ⟨valid, rfl, rfl, Nat.le_refl _, fun unloaded => ?_, fun _ _ => rfl⟩
    have first : ladder.lowestRung = 0 := by
      by_contra positive
      exact last ⟨by omega, unloaded⟩
    rw [first, valid.sound.events_first first] at unloaded
    exact loaded unloaded
  induction rounds generalizing ladder with
  | zero => exact stop ladder valid loaded (by omega)
  | succ rounds ih =>
      simp only [Ladder.skipEmptyRungs]
      split
      · rename_i empty
        have dropped := valid.dropLowest empty.1 empty.2
        have next := ih dropped loaded
          (by simp only [Ladder.dropLowest, modifyRung_lowestRung]; omega)
        have below : ladder.dropLowest.lowestRung < ladder.lowestRung := by
          simp only [Ladder.dropLowest, modifyRung_lowestRung]
          omega
        refine ⟨next.valid, next.nbc, next.held.trans valid.sound.dropLowest_held,
          next.lowest.trans below.le, next.loaded, fun query bound => ?_⟩
        have low := next.lowest
        rw [next.upper query bound, rung_dropLowest_of_ne ladder (by omega)]
      · rename_i last
        exact stop ladder valid loaded last

theorem Sound.current_ne_nil {ladder : Ladder} (sound : ladder.Sound)
    (loaded : ladder.events ladder.lowestRung ≠ 0) : ladder.lowest.current ≠ [] := by
  intro none
  apply loaded
  rw [events, (sound.packed _ sound.lowest).counted]
  exact congrArg List.length none

theorem modifyRung_same (ladder : Ladder) (index : Nat) :
    ladder.modifyRung index (fun _ => ladder.rung index) = ladder := by
  refine ext_rungs rfl rfl rfl rfl (modifyRung_nRung _ _ _) fun query => ?_
  by_cases same : query = index
  · subst same
    by_cases inside : query < ladder.nRung
    · exact rung_modifyRung_self ladder _ inside
    · rw [rung_of_outside _ (by simpa using inside), rung_of_outside _ (by omega)]
  · exact rung_modifyRung_of_ne ladder _ same

theorem nextBucket_eq {ladder : Ladder} (loaded : ladder.lowest.events ≠ 0)
    (filled : ladder.lowest.current ≠ []) : ladder.nextBucket = (.ok (), ladder) := by
  have stay : ∀ rounds, Ladder.skipEmptyRungs rounds ladder = ladder := by
    intro rounds
    cases rounds with
    | zero => rfl
    | succ rounds => exact if_neg fun empty => loaded empty.2
  simp only [nextBucket, stay]
  rw [Rung.advance_of_current filled]
  exact congrArg (Prod.mk _) (modifyRung_same ladder ladder.lowestRung)

theorem Sound.nextBucket_eq {ladder : Ladder} (sound : ladder.Sound)
    (loaded : ladder.events ladder.lowestRung ≠ 0) : ladder.nextBucket = (.ok (), ladder) :=
  Ladder.nextBucket_eq loaded (sound.current_ne_nil loaded)

theorem Valid.nextBucket_eq {ladder : Ladder} (valid : ladder.Valid) (loaded : ladder.nbc ≠ 0) :
    ladder.nextBucket = (.ok (), Ladder.skipEmptyRungs ladder.lowestRung ladder) := by
  have skipped := valid.skipEmptyRungs loaded ladder.lowestRung (Nat.le_refl _)
  simp only [nextBucket]
  rw [Rung.advance_of_current (skipped.valid.sound.current_ne_nil skipped.loaded)]
  exact congrArg (Prod.mk _) (modifyRung_same _ _)

/-! The copy that spawns a rung. -/

theorem removeEvents_taken (ladder : Ladder) {above : Nat} (inside : above < ladder.nRung) :
    (ladder.modifyRung above fun rung =>
      { rung with
        currentBucket := rung.currentBucket + 1
        lists := rung.lists.set rung.currentBucket [] }).removeEvents above
          (ladder.rung above).current.length = ladder.takeCurrent above := by
  refine ext_rungs rfl rfl rfl rfl ?_ fun query => ?_
  · simp
  · by_cases same : query = above
    · rw [same, rung_removeEvents_self _ _ (by rwa [modifyRung_nRung]),
        rung_modifyRung_self _ _ inside, rung_takeCurrent_self ladder inside]
      rfl
    · rw [rung_removeEvents_of_ne _ _ same, rung_modifyRung_of_ne _ _ same,
        rung_takeCurrent_of_ne ladder same]

theorem enlist_eq {ladder : Ladder} (above : Nat) (lowest : ladder.lowestRung = above + 1)
    (inside : above + 1 < ladder.nRung)
    (bound : (ladder.rung above).currentBucket < (ladder.rung above).lists.length)
    (first : ladder.lowest.currentBucket = 0) (allocated : 0 < ladder.lowest.lists.length) :
    ladder.enlist =
      (.ok (), (ladder.takeCurrent above).putAll (above + 1) (ladder.rung above).current) := by
  have taken := ladder.removeEvents_taken (show above < ladder.nRung by omega)
  have found := Rung.getElem?_current bound
  have below : (ladder.takeCurrent above).rung (above + 1) = ladder.lowest := by
    rw [rung_takeCurrent_of_ne ladder (by omega), Ladder.lowest, lowest]
  have pushed := pushRung_eq (ladder.takeCurrent above) (ladder.rung above).current
    (by rwa [takeCurrent_nRung]) (by rw [below, first]) (by rwa [below])
  have at_above : ladder.lowestRung - 1 = above := by omega
  have at_below : (ladder.takeCurrent above).lowestRung = above + 1 := lowest
  simp only [enlist, at_above, found, taken, at_below, pushed]

theorem spawn_eq {ladder : Ladder} (lowest : ladder.lowestRung < ladder.nRung)
    (room : ladder.lowestRung < maxRungs - 1)
    (bound : ladder.lowest.currentBucket < ladder.lowest.lists.length)
    (allocated : 0 < ((ladder.pass ladder.lowestRung).openRung.rung
      (ladder.lowestRung + 1)).lists.length) :
    (ladder.pass ladder.lowestRung).spawn true = (.ok true, ladder.spawned) := by
  have inside : (ladder.pass ladder.lowestRung).lowestRung <
      (ladder.pass ladder.lowestRung).nRung := by rwa [pass_nRung]
  have opened := openRung_eq inside
  have low : (ladder.pass ladder.lowestRung).openRung.lowestRung = ladder.lowestRung + 1 := by
    rw [opened]
    rfl
  have wide : ladder.lowestRung + 1 < (ladder.pass ladder.lowestRung).openRung.nRung := by
    rw [opened]
    exact (extended_nRung inside room).trans_eq (modifyRung_nRung _ _ _).symm
  have top : (ladder.pass ladder.lowestRung).openRung.rung ladder.lowestRung =
      { ladder.lowest with rCur := ladder.lowest.rCur + ladder.lowest.bucketwidth } := by
    rw [opened]
    exact ((rung_modifyRung_of_ne _ _ (Nat.succ_ne_self _).symm).trans
      (rung_extended inside (Nat.le_refl _))).trans (rung_pass_self ladder lowest)
  have bottom : (ladder.pass ladder.lowestRung).openRung.lowest.currentBucket = 0 := by
    rw [Ladder.lowest, low, opened]
    exact congrArg Rung.currentBucket
      (rung_modifyRung_self _ _ (extended_nRung inside room))
  have entered := enlist_eq ladder.lowestRung low wide (by rw [top]; exact bound) bottom
    (by rw [Ladder.lowest, low]; exact allocated)
  rw [top] at entered
  have size : (ladder.pass ladder.lowestRung).lowestRung = ladder.lowestRung := rfl
  simp only [spawn, size, room, entered, ↓reduceIte]
  rfl

theorem Sound.spawn_eq {ladder : Ladder} (sound : ladder.Sound)
    (loaded : ladder.events ladder.lowestRung ≠ 0)
    (room : ladder.lowestRung < maxRungs - 1) :
    (ladder.pass ladder.lowestRung).spawn true = (.ok true, ladder.spawned) :=
  Ladder.spawn_eq sound.lowest room ((sound.packed _ sound.lowest).current_bound loaded)
    ((sound.pass sound.lowest).openRung_bound room).2

/-- What the spawning changes: the lowest rung is closed, the rung below it holds its events. -/
structure Spawned (ladder next : Ladder) : Prop where
  sound : next.Sound
  nbc : next.nbc = ladder.nbc
  lowest : next.lowestRung = ladder.lowestRung + 1
  current : next.lowest.current = ladder.lowest.current
  held : ∀ query < ladder.lowestRung, next.held query = ladder.held query
  emptied : next.held ladder.lowestRung = 0
  closed : next.rung ladder.lowestRung =
    { ladder.lowest.closed with rCur := ladder.lowest.rCur + ladder.lowest.bucketwidth }
  upper : ∀ query < ladder.lowestRung, next.rung query = ladder.rung query

theorem Sound.spawned {ladder : Ladder} (sound : ladder.Sound)
    (room : ladder.lowestRung < maxRungs - 1) : Spawned ladder ladder.spawned := by
  have passed := sound.pass sound.lowest
  have roomPassed : (ladder.pass ladder.lowestRung).lowestRung < maxRungs - 1 := room
  have opened := passed.openRung roomPassed
  have low : (ladder.pass ladder.lowestRung).openRung.lowestRung = ladder.lowestRung + 1 :=
    passed.openRung_lowestRung
  have inside : ladder.lowestRung < (ladder.pass ladder.lowestRung).openRung.nRung := by
    have := opened.lowest
    omega
  have taken := opened.takeCurrent inside
  have below : ((ladder.pass ladder.lowestRung).openRung.takeCurrent ladder.lowestRung).rung
      (ladder.lowestRung + 1) =
      (ladder.pass ladder.lowestRung).openRung.rung (ladder.lowestRung + 1) :=
    rung_takeCurrent_of_ne _ (by omega)
  obtain ⟨first, allocated⟩ := passed.openRung_bound roomPassed
  have unloaded := passed.openRung_events roomPassed
  have shell := opened.packed (ladder.lowestRung + 1) (by rw [← low]; exact opened.lowest)
  have used : ∀ query ≤ ladder.lowestRung,
      (ladder.pass ladder.lowestRung).openRung.rung query =
        (ladder.pass ladder.lowestRung).rung query :=
    fun query bound => passed.rung_openRung_used bound
  have bound : (((ladder.pass ladder.lowestRung).openRung.takeCurrent ladder.lowestRung).rung
      (ladder.lowestRung + 1)).currentBucket <
      (((ladder.pass ladder.lowestRung).openRung.takeCurrent ladder.lowestRung).rung
        (ladder.lowestRung + 1)).lists.length := by
    rw [below]
    exact first.trans_lt allocated
  have upper : ∀ query < ladder.lowestRung,
      ladder.spawned.rung query = ladder.rung query := by
    intro query bound
    rw [Ladder.spawned, rung_putAll_of_ne _ _ (by omega), rung_takeCurrent_of_ne _ (by omega),
      used query (by omega), rung_pass_of_ne _ (by omega)]
  have closed : ladder.spawned.rung ladder.lowestRung =
      { ladder.lowest.closed with
        rCur := ladder.lowest.rCur + ladder.lowest.bucketwidth } := by
    rw [Ladder.spawned, rung_putAll_of_ne _ _ (by omega), rung_takeCurrent_self _ inside,
      used _ (Nat.le_refl _), rung_pass_self _ sound.lowest]
    rfl
  have spawnedSound : ladder.spawned.Sound := taken.putAll _ low.ge bound
  have nextLow : ladder.spawned.lowestRung = ladder.lowestRung + 1 := by
    rw [Ladder.spawned, putAll_lowestRung]
    exact low
  refine ⟨spawnedSound, ?_, nextLow, ?_, ?_, ?_, closed, upper⟩
  · have count : ladder.lowest.current.length ≤ ladder.nbc := by
      have events := sound.events_le ladder.lowestRung
      rw [Ladder.events, (sound.packed _ sound.lowest).counted] at events
      exact events
    have same : ((ladder.pass ladder.lowestRung).openRung.rung ladder.lowestRung).current =
        ladder.lowest.current := by
      rw [used _ (Nat.le_refl _), rung_pass_self _ sound.lowest]
      rfl
    simp only [Ladder.spawned, putAll_nbc, Ladder.takeCurrent, same, passed.openRung_nbc]
    exact Nat.sub_add_cancel count
  · have blank : ((ladder.pass ladder.lowestRung).openRung.rung
        (ladder.lowestRung + 1)).current = [] := by
      apply List.eq_nil_of_length_eq_zero
      rw [← shell.counted]
      exact unloaded
    rw [Ladder.lowest, nextLow, Ladder.spawned,
      rung_putAll_self _ _ (by rw [← low]; exact taken.lowest), below,
      Rung.current_putAll _ _ (by rw [← below]; exact bound), blank, List.nil_append]
  · intro query bound
    rw [Ladder.held, upper query bound, Ladder.held]
  · apply held_of_unloaded spawnedSound
    rw [events, closed]
    exact (sound.packed _ sound.lowest).closed_events

/-! Taking the current bucket of the lowest rung. -/

theorem Sound.closeLowest {ladder : Ladder} (sound : ladder.Sound) :
    ladder.closeLowest.Sound ∧
      ladder.closeLowest.held = Function.update ladder.held ladder.lowestRung 0 ∧
      ladder.closeLowest.lowestRung = ladder.lowestRung - 1 ∧
      ladder.closeLowest.nbc = ladder.nbc - ladder.lowest.current.length ∧
      ∀ query < ladder.lowestRung, ladder.closeLowest.rung query = ladder.rung query := by
  have taken := sound.takeCurrent sound.lowest
  have inside : ladder.lowestRung < (ladder.takeCurrent ladder.lowestRung).nRung := by
    simpa using sound.lowest
  have passed := taken.pass inside
  have held := (pass_held inside).trans (sound.takeCurrent_held sound.lowest)
  have unloaded : ((ladder.takeCurrent ladder.lowestRung).pass ladder.lowestRung).events
      ladder.lowestRung = 0 := by
    rw [events, rung_pass_self _ inside, rung_takeCurrent_self ladder sound.lowest]
    exact (sound.packed _ sound.lowest).closed_events
  have upper : ∀ query < ladder.lowestRung,
      ((ladder.takeCurrent ladder.lowestRung).pass ladder.lowestRung).rung query =
        ladder.rung query := by
    intro query bound
    rw [rung_pass_of_ne _ (by omega), rung_takeCurrent_of_ne _ (by omega)]
  simp only [Ladder.closeLowest]
  split
  · refine ⟨passed.dropLowest unloaded, ?_, rfl, rfl, ?_⟩
    · rw [passed.dropLowest_held, held]
    · intro query bound
      have other : query ≠
          ((ladder.takeCurrent ladder.lowestRung).pass ladder.lowestRung).lowestRung := bound.ne
      rw [rung_dropLowest_of_ne _ other, upper query bound]
  · refine ⟨passed, held, ?_, rfl, upper⟩
    have first : ladder.lowestRung = 0 := by omega
    rw [first]
    exact first

theorem delist_eq {ladder next : Ladder} (inside : next.lowestRung < next.nRung)
    (packed : next.lowest.Packed)
    (advanced : ladder.advanceDequeueBucket true = (.ok (), next)) :
    ladder.delist = (.ok next.lowest.current, next.closeLowest) := by
  have closed : ((next.removeEvents next.lowestRung next.lowest.current.length).modifyRung
      next.lowestRung fun rung =>
        { rung with
          rCur := rung.rCur + rung.bucketwidth
          currentBucket := rung.currentBucket + 1
          lists := rung.lists.set rung.currentBucket [] }) =
      (next.takeCurrent next.lowestRung).pass next.lowestRung := by
    refine ext_rungs rfl rfl rfl rfl ?_ fun query => ?_
    · simp
    · by_cases same : query = next.lowestRung
      · rw [same, rung_modifyRung_self _ _ (by simpa using inside),
          rung_removeEvents_self _ _ inside,
          rung_pass_self (next.takeCurrent next.lowestRung) (by simpa using inside),
          rung_takeCurrent_self _ inside]
        rfl
      · rw [rung_modifyRung_of_ne _ _ same, rung_removeEvents_of_ne _ _ same,
          rung_pass_of_ne _ same, rung_takeCurrent_of_ne _ same]
  have unloaded : ((next.takeCurrent next.lowestRung).pass next.lowestRung).lowest.events = 0 := by
    have own := rung_pass_self (next.takeCurrent next.lowestRung)
      (by simpa using inside)
    rw [rung_takeCurrent_self _ inside] at own
    exact (congrArg Rung.events own).trans packed.closed_events
  have same : (next.removeEvents next.lowestRung next.lowest.current.length).lowestRung =
      next.lowestRung := rfl
  have last : ((next.takeCurrent next.lowestRung).pass next.lowestRung).lowestRung =
      next.lowestRung := rfl
  simp only [delist, advanced, same, closed, unloaded, last, and_true, Ladder.closeLowest]
  split <;> rfl

theorem Sound.delist_of_advanced {ladder next : Ladder} (sound : next.Sound)
    (advanced : ladder.advanceDequeueBucket true = (.ok (), next)) :
    ladder.delist = (.ok next.lowest.current, next.closeLowest) :=
  delist_eq sound.lowest (sound.packed _ sound.lowest) advanced

/-- What `delist` does: it hands out all events of the deepest rung that has any. -/
structure Delisted (ladder next : Ladder) (list : List Entry) (index : Nat) : Prop where
  valid : next.Valid
  content : (list : Multiset Entry) = ladder.held index
  filled : list ≠ []
  held : next.held = Function.update ladder.held index 0
  deeper : ∀ query > index, ladder.held query = 0
  nbc : next.nbc = ladder.nbc - list.length
  used : index ≤ ladder.lowestRung
  lowest : next.lowestRung ≤ index
  upper : ∀ query < index, next.rung query = ladder.rung query

theorem Skipped.deeper {ladder next : Ladder} (skipped : Skipped ladder next) :
    ∀ query > next.lowestRung, ladder.held query = 0 := by
  intro query above
  rw [← skipped.held]
  exact held_of_unloaded skipped.valid.sound (skipped.valid.sound.unused query above)

theorem Skipped.content {ladder next : Ladder} (skipped : Skipped ladder next) :
    (next.lowest.current : Multiset Entry) = ladder.held next.lowestRung := by
  rw [← skipped.held]
  exact ((skipped.valid.sound.packed _ skipped.valid.sound.lowest).held_eq).symm

theorem Skipped.last {ladder next : Ladder} (skipped : Skipped ladder next)
    (first : next.lowestRung = 0) : ladder.nbc = next.lowest.current.length := by
  have sound := skipped.valid.sound
  rw [← skipped.nbc, ← sound.events_first first]
  have counted := (sound.packed _ sound.lowest).counted
  rw [first] at counted
  rw [Ladder.lowest, first]
  exact counted

theorem Skipped.delisted {ladder middle next : Ladder} (skipped : Skipped ladder middle)
    (sound : next.Sound) (lowest : next.lowestRung = middle.lowestRung)
    (nbc : next.nbc = middle.nbc) (held : next.held = middle.held)
    (current : next.lowest.current = middle.lowest.current)
    (upper : ∀ query < middle.lowestRung, next.rung query = middle.rung query) :
    Delisted ladder next.closeLowest next.lowest.current middle.lowestRung := by
  obtain ⟨closedSound, closedHeld, closedLowest, closedNbc, closedUpper⟩ := sound.closeLowest
  have above : ∀ query < middle.lowestRung, next.closeLowest.rung query = ladder.rung query := by
    intro query bound
    rw [closedUpper query (by rwa [lowest]), upper query bound, skipped.upper query bound.le]
  constructor
  · refine ⟨closedSound, fun loaded => ?_⟩
    have positive : middle.lowestRung ≠ 0 := by
      intro first
      have all := skipped.last first
      rw [closedNbc, nbc, skipped.nbc, current, all] at loaded
      omega
    have before : ladder.nbc ≠ 0 := by
      rw [closedNbc, nbc, skipped.nbc] at loaded
      omega
    have aligned := skipped.valid.aligned (by rwa [skipped.nbc])
    apply aligned.shortened (by rw [closedLowest, lowest]; exact Nat.sub_le _ _)
    intro query bound
    rw [closedLowest, lowest] at bound
    rw [above query (by omega), skipped.upper query (by omega)]
  · rw [current]
    exact skipped.content
  · rw [current]
    exact skipped.valid.sound.current_ne_nil skipped.loaded
  · rw [closedHeld, held, lowest, skipped.held]
  · exact skipped.deeper
  · rw [closedNbc, nbc, skipped.nbc]
  · exact skipped.lowest
  · rw [closedLowest, lowest]
    exact Nat.sub_le _ _
  · exact above

theorem Aligned.advanced {ladder next : Ladder} (aligned : ladder.Aligned)
    (lowest : next.lowestRung = ladder.lowestRung) (positive : 0 < ladder.lowestRung)
    (loaded : ladder.events ladder.lowestRung ≠ 0)
    (unloaded : next.events ladder.lowestRung = 0)
    (closed : next.rung ladder.lowestRung =
      { ladder.lowest.closed with rCur := ladder.lowest.rCur + ladder.lowest.bucketwidth })
    (upper : ∀ query < ladder.lowestRung, next.rung query = ladder.rung query) :
    next.Aligned := by
  constructor
  · rw [upper 0 positive]
    exact aligned.width
  · rw [upper 0 positive]
    exact aligned.start
  · intro query bound
    have before := aligned.timed query (by omega)
    by_cases last : query = ladder.lowestRung
    · rw [last, closed]
      rw [last] at before
      simp only [Rung.closed, Ladder.lowest]
      push_cast
      rw [before]
      ring
    · rw [upper query (by omega)]
      exact before
  · intro query bound
    have before := aligned.nested query (by omega)
    rw [upper query (by omega)]
    by_cases last : query + 1 = ladder.lowestRung
    · rw [last] at before
      rw [last, closed]
      exact before
    · rw [upper (query + 1) (by omega)]
      exact before
  · intro query bound
    by_cases last : query = ladder.lowestRung
    · rw [last, closed]
      exact aligned.ahead ladder.lowestRung (Nat.le_refl _) loaded
    · rw [upper query (by omega)]
      exact aligned.room query (by omega)
  · intro query bound some
    by_cases last : query = ladder.lowestRung
    · rw [last] at some
      exact absurd unloaded some
    · rw [events, upper query (by omega)] at some
      rw [upper query (by omega)]
      exact aligned.ahead query (by omega) some

theorem Skipped.delisted_spawned {ladder middle next : Ladder} (skipped : Skipped ladder middle)
    (spawned : Spawned middle next) :
    Delisted ladder next.closeLowest next.lowest.current middle.lowestRung := by
  obtain ⟨closedSound, closedHeld, closedLowest, closedNbc, closedUpper⟩ :=
    spawned.sound.closeLowest
  have low : next.closeLowest.lowestRung = middle.lowestRung := by
    rw [closedLowest, spawned.lowest, Nat.add_sub_cancel]
  have above : ∀ query < middle.lowestRung, next.closeLowest.rung query = middle.rung query := by
    intro query bound
    rw [closedUpper query (by rw [spawned.lowest]; omega), spawned.upper query bound]
  have own := closedUpper middle.lowestRung (by rw [spawned.lowest]; omega)
  rw [spawned.closed] at own
  have unloaded : next.closeLowest.events middle.lowestRung = 0 := by
    rw [events, own]
    exact (skipped.valid.sound.packed _ skipped.valid.sound.lowest).closed_events
  constructor
  · refine ⟨closedSound, fun loaded => ?_⟩
    have positive : middle.lowestRung ≠ 0 := by
      intro first
      have all := skipped.last first
      rw [closedNbc, spawned.nbc, skipped.nbc, spawned.current, all] at loaded
      omega
    have before : ladder.nbc ≠ 0 := by
      rw [closedNbc, spawned.nbc, skipped.nbc] at loaded
      omega
    have aligned := skipped.valid.aligned (by rwa [skipped.nbc])
    exact aligned.advanced low (by omega) skipped.loaded unloaded own above
  · rw [spawned.current]
    exact skipped.content
  · rw [spawned.current]
    exact skipped.valid.sound.current_ne_nil skipped.loaded
  · funext query
    by_cases same : query = middle.lowestRung
    · rw [same, Function.update_self]
      exact held_of_unloaded closedSound unloaded
    · rw [Function.update_of_ne same, ← skipped.held]
      by_cases deeper : query < middle.lowestRung
      · rw [Ladder.held, above query deeper, Ladder.held]
      · rw [held_of_unloaded closedSound (closedSound.unused query (by omega)),
          held_of_unloaded skipped.valid.sound (skipped.valid.sound.unused query (by omega))]
  · exact skipped.deeper
  · rw [closedNbc, spawned.nbc, skipped.nbc]
  · exact skipped.lowest
  · exact low.le
  · intro query bound
    rw [above query bound, skipped.upper query bound.le]

/-! The three ways in which the dequeue bucket is advanced. -/

section Advanced

variable {ladder middle : Ladder} (skipped : Skipped ladder middle)
  (next : ladder.nextBucket = (.ok (), middle))

include skipped

theorem Skipped.spawned_loaded (room : middle.lowestRung < maxRungs - 1)
    (spawns : middle.lowest.current.length > middle.thres) :
    middle.spawned.events middle.spawned.lowestRung ≠ 0 := by
  have spawned := skipped.valid.sound.spawned room
  rw [events, (spawned.sound.packed _ spawned.sound.lowest).counted]
  change middle.spawned.lowest.current.length ≠ 0
  rw [spawned.current]
  omega

theorem Skipped.passed_loaded :
    (middle.pass middle.lowestRung).events (middle.pass middle.lowestRung).lowestRung ≠ 0 := by
  change (middle.pass middle.lowestRung).events middle.lowestRung ≠ 0
  rw [events, rung_pass_self middle skipped.valid.sound.lowest]
  exact skipped.loaded

include next

theorem Skipped.advance_spawned (room : middle.lowestRung < maxRungs - 1)
    (spawns : middle.lowest.current.length > middle.thres) :
    ladder.advanceDequeueBucket true = (.ok (), middle.spawned) := by
  have sound := skipped.valid.sound
  have opened := sound.spawn_eq skipped.loaded room
  simp only [Ladder.pass] at opened
  simp only [advanceDequeueBucket, next, spawns, and_self, ↓reduceIte, opened]
  exact (sound.spawned room).sound.nextBucket_eq (skipped.spawned_loaded room spawns)

theorem Skipped.advance_passed (full : ¬ middle.lowestRung < maxRungs - 1)
    (spawns : middle.lowest.current.length > middle.thres) :
    ladder.advanceDequeueBucket true = (.ok (), middle.pass middle.lowestRung) := by
  have passed := skipped.valid.sound.pass skipped.valid.sound.lowest
  have last : ¬ (middle.pass middle.lowestRung).lowestRung < maxRungs - 1 := full
  simp only [Ladder.pass] at last
  simp only [advanceDequeueBucket, next, spawns, and_self, ↓reduceIte, spawn, last]
  exact passed.nextBucket_eq skipped.passed_loaded

omit skipped in
theorem advance_kept (small : ¬ middle.lowest.current.length > middle.thres) :
    ladder.advanceDequeueBucket true = (.ok (), middle) := by
  simp only [advanceDequeueBucket, next, small, and_false, ↓reduceIte]

end Advanced

theorem Valid.delist_spec {ladder : Ladder} (valid : ladder.Valid) (loaded : ladder.nbc ≠ 0) :
    ∃ list next index, ladder.delist = (.ok list, next) ∧ Delisted ladder next list index := by
  have skipped := valid.skipEmptyRungs loaded ladder.lowestRung (Nat.le_refl _)
  have next := valid.nextBucket_eq loaded
  generalize Ladder.skipEmptyRungs ladder.lowestRung ladder = middle at skipped next
  have sound := skipped.valid.sound
  by_cases spawns : middle.lowest.current.length > middle.thres
  · by_cases room : middle.lowestRung < maxRungs - 1
    · have spawned := sound.spawned room
      exact ⟨_, _, _, spawned.sound.delist_of_advanced (skipped.advance_spawned next room spawns),
        skipped.delisted_spawned spawned⟩
    · have passed := sound.pass sound.lowest
      have current : (middle.pass middle.lowestRung).lowest.current = middle.lowest.current := by
        change ((middle.pass middle.lowestRung).rung middle.lowestRung).current = _
        rw [rung_pass_self middle sound.lowest]
        rfl
      exact ⟨_, _, _, passed.delist_of_advanced (skipped.advance_passed next room spawns),
        skipped.delisted passed rfl rfl (pass_held sound.lowest) current
          fun query bound => rung_pass_of_ne middle bound.ne⟩
  · exact ⟨_, _, _, sound.delist_of_advanced (advance_kept next spawns),
      skipped.delisted sound rfl rfl rfl rfl fun _ _ => rfl⟩

theorem Delisted.epoch {ladder next : Ladder} {events list : List Entry} {maxTS minTS : ℚ}
    {index : Nat} (sound : ladder.Sound) (unloaded : ladder.nbc = 0)
    (delisted : (ladder.epoch events maxTS minTS).Delisted next list index) :
    list.Perm events ∧ next.nbc = 0 ∧ next.held = fun _ => 0 := by
  have first : index = 0 := by
    have lowest := sound.epoch_lowestRung unloaded events maxTS minTS
    have used := delisted.used
    omega
  have content := delisted.content
  rw [first, sound.epoch_held unloaded, Function.update_self] at content
  have perm := Multiset.coe_eq_coe.mp content
  refine ⟨perm, ?_, ?_⟩
  · rw [delisted.nbc, sound.epoch_nbc unloaded, perm.length_eq, Nat.sub_self]
  · rw [delisted.held, sound.epoch_held unloaded, first, Function.update_idem]
    exact Function.update_eq_self 0 fun _ => 0

end Ladder

end RlAqs
