import RlAqs.Queue.LadderSpawn

/-! The start of an epoch on the first rung of a ladder without events. -/

namespace RlAqs

namespace Ladder

def restart (ladder : Ladder) (width minTS : ℚ) : Ladder :=
  let first := { ladder with lowestRung := 0 }.modifyRung 0 fun rung =>
    { rung with bucketwidth := width, rStart := minTS, rCur := minTS }
  { first with rungs := first.rungs.map fun rung : Rung => { rung with currentBucket := 0 } }

def grow (ladder : Ladder) (buckets : Nat) : Ladder :=
  if buckets ≥ ladder.bucketsFirstRung then ladder.resizeFirstRung buckets else ladder

def started (ladder : Ladder) (list : List Entry) (maxTS minTS : ℚ) : Ladder :=
  let width := bucketwidth maxTS minTS list.length
  let diff := if gslFcmp maxTS minTS (1 / 10 ^ 12) ≤ 0 then 0 else maxTS - minTS
  (ladder.restart width minTS).grow (toUInt32 (diff / width))

def epoch (ladder : Ladder) (list : List Entry) (maxTS minTS : ℚ) : Ladder :=
  (ladder.started list maxTS minTS).putAll 0 list

theorem pushList_started {ladder : Ladder} {list : List Entry} {maxTS minTS : ℚ}
    (unloaded : ladder.nbc = 0) (filled : list ≠ [])
    (inside : 0 < (ladder.started list maxTS minTS).nRung)
    (lowest : (ladder.started list maxTS minTS).lowestRung = 0)
    (current : ((ladder.started list maxTS minTS).rung 0).currentBucket = 0)
    (allocated : 0 < ((ladder.started list maxTS minTS).rung 0).lists.length) :
    ladder.pushList list maxTS minTS = (.ok (), ladder.epoch list maxTS minTS, []) := by
  have some : list.length ≠ 0 := fun none => filled (List.eq_nil_of_length_eq_zero none)
  have none : ¬ ladder.getNBC ≠ 0 := not_not_intro unloaded
  simp only [pushList, none, some, ↓reduceIte]
  change pushRung (ladder.started list maxTS minTS) (ladder.started list maxTS minTS).lowestRung
    list = _
  rw [lowest]
  exact pushRung_eq _ list inside current allocated

theorem restart_nRung (ladder : Ladder) (width minTS : ℚ) :
    (ladder.restart width minTS).nRung = ladder.nRung := by
  simp [restart, nRung, modifyRung]

theorem rung_map (ladder : Ladder) (index : Nat) :
    { ladder with
      rungs := ladder.rungs.map fun rung : Rung => { rung with currentBucket := 0 } }.rung index =
      { ladder.rung index with currentBucket := 0 } := by
  by_cases inside : index < ladder.rungs.length
  · simp [rung, inside]
  · simp only [rung, List.getD_eq_getElem?_getD]
    rw [List.getElem?_eq_none (by simpa using inside), List.getElem?_eq_none (by omega)]
    rfl

theorem rung_restart_of_ne (ladder : Ladder) (width minTS : ℚ) {index : Nat}
    (other : index ≠ 0) :
    (ladder.restart width minTS).rung index =
      { ladder.rung index with currentBucket := 0 } := by
  simp only [restart]
  rw [rung_map, rung_modifyRung_of_ne _ _ other]
  rfl

theorem rung_restart_first (ladder : Ladder) (width minTS : ℚ) (inside : 0 < ladder.nRung) :
    (ladder.restart width minTS).rung 0 =
      { ladder.rung 0 with
        bucketwidth := width, rStart := minTS, rCur := minTS, currentBucket := 0 } := by
  simp only [restart]
  rw [rung_map, rung_modifyRung_self _ _ (by exact inside)]
  rfl

theorem Sound.renewed {ladder next : Ladder} (sound : ladder.Sound)
    (thres : next.thres = ladder.thres) (nRung : next.nRung = ladder.nRung)
    (lowest : next.lowestRung < ladder.nRung)
    (packed : ∀ index < ladder.nRung, (next.rung index).Packed)
    (buckets : ∀ index, 0 < index → (next.rung index).buckets = (ladder.rung index).buckets)
    (first : (next.rung 0).buckets = next.bucketsFirstRung)
    (unloaded : ∀ index, next.events index = 0) (empty : next.nbc = 0) : next.Sound where
  thres := by rw [thres, sound.thres]
  rungs := by rw [nRung]; exact sound.rungs
  lowest := by rwa [nRung]
  packed := by rwa [nRung]
  deeper := by
    intro index inside positive
    rw [buckets index positive]
    exact sound.deeper index (by rwa [← nRung]) positive
  first := first
  unused := fun index _ => unloaded index
  counted := by
    rw [empty]
    exact (Finset.sum_eq_zero fun index _ => unloaded index).symm

theorem Sound.restart {ladder : Ladder} (sound : ladder.Sound) (empty : ladder.nbc = 0)
    (width minTS : ℚ) : (ladder.restart width minTS).Sound := by
  have inside : 0 < ladder.nRung := Nat.lt_of_le_of_lt (Nat.zero_le _) sound.lowest
  have own := rung_restart_first ladder width minTS inside
  refine sound.renewed rfl (restart_nRung ladder width minTS) inside ?_ ?_ ?_ ?_ empty
  · intro index bound
    have unloaded := sound.unloaded empty index
    by_cases first : index = 0
    · subst first
      rw [own]
      exact (sound.packed 0 bound).unloaded unloaded rfl rfl unloaded
    · rw [rung_restart_of_ne ladder width minTS first]
      exact (sound.packed index bound).unloaded unloaded rfl rfl unloaded
  · intro index positive
    rw [rung_restart_of_ne ladder width minTS (by omega)]
  · rw [own]
    exact sound.first
  · intro index
    have unloaded := sound.unloaded empty index
    by_cases first : index = 0
    · subst first
      rw [events, own]
      exact unloaded
    · rw [events, rung_restart_of_ne ladder width minTS first]
      exact unloaded

@[simp] theorem grow_lowestRung (ladder : Ladder) (buckets : Nat) :
    (ladder.grow buckets).lowestRung = ladder.lowestRung := by
  simp only [grow]
  split <;> rfl

@[simp] theorem grow_nbc (ladder : Ladder) (buckets : Nat) :
    (ladder.grow buckets).nbc = ladder.nbc := by
  simp only [grow]
  split <;> rfl

@[simp] theorem grow_thres (ladder : Ladder) (buckets : Nat) :
    (ladder.grow buckets).thres = ladder.thres := by
  simp only [grow]
  split <;> rfl

theorem rung_grow_first (ladder : Ladder) (buckets : Nat) (inside : 0 < ladder.nRung) :
    ((ladder.grow buckets).rung 0).bucketwidth = (ladder.rung 0).bucketwidth ∧
      ((ladder.grow buckets).rung 0).rStart = (ladder.rung 0).rStart ∧
      ((ladder.grow buckets).rung 0).rCur = (ladder.rung 0).rCur ∧
      ((ladder.grow buckets).rung 0).currentBucket = (ladder.rung 0).currentBucket := by
  simp only [grow]
  split
  · rw [resizeFirstRung, rung_modifyRung_self _ _ (by exact inside)]
    exact ⟨rfl, rfl, rfl, rfl⟩
  · exact ⟨rfl, rfl, rfl, rfl⟩

theorem Sound.grow {ladder : Ladder} (sound : ladder.Sound) (empty : ladder.nbc = 0)
    (buckets : Nat) : (ladder.grow buckets).Sound := by
  have inside : 0 < ladder.nRung := Nat.lt_of_le_of_lt (Nat.zero_le _) sound.lowest
  simp only [Ladder.grow]
  split
  · rename_i enough
    have wide : 0 < 2 * buckets := by
      have positive := (sound.packed 0 inside).buckets
      rw [sound.first] at positive
      omega
    have own : (ladder.resizeFirstRung buckets).rung 0 =
        { ladder.rung 0 with
          buckets := 2 * buckets
          lists := List.replicate (2 * buckets) [] } :=
      rung_modifyRung_self _ _ (by exact inside)
    have others : ∀ index ≠ 0,
        (ladder.resizeFirstRung buckets).rung index = ladder.rung index :=
      fun index other => rung_modifyRung_of_ne _ _ other
    have blank : ∀ bucket, (List.replicate (2 * buckets) ([] : List Entry)).getD bucket [] = [] := by
      intro bucket
      rw [List.getD_eq_getElem?_getD, List.getElem?_replicate]
      split <;> rfl
    refine sound.renewed rfl (modifyRung_nRung _ _ _) sound.lowest ?_ ?_ ?_ ?_ empty
    · intro index bound
      by_cases first : index = 0
      · rw [first, own]
        constructor
        · simp
        · exact wide
        · exact fun bucket _ => blank bucket
        · rw [Rung.current, blank]
          exact sound.unloaded empty 0
      · rw [others index first]
        exact sound.packed index bound
    · intro index positive
      rw [others index (by omega)]
    · rw [own]
      rfl
    · intro index
      by_cases first : index = 0
      · rw [first, events, own]
        exact sound.unloaded empty 0
      · rw [events, others index first]
        exact sound.unloaded empty index
  · exact sound

variable {ladder : Ladder} (sound : ladder.Sound) (empty : ladder.nbc = 0)
  (list : List Entry) (maxTS minTS : ℚ)

include sound empty

theorem Sound.epoch_start (width : ℚ) (buckets : Nat) :
    ((ladder.restart width minTS).grow buckets).Sound ∧
      ((ladder.restart width minTS).grow buckets).nbc = 0 ∧
      ((ladder.restart width minTS).grow buckets).lowestRung = 0 ∧
      (((ladder.restart width minTS).grow buckets).rung 0).bucketwidth = width ∧
      (((ladder.restart width minTS).grow buckets).rung 0).rStart = minTS ∧
      (((ladder.restart width minTS).grow buckets).rung 0).rCur = minTS ∧
      (((ladder.restart width minTS).grow buckets).rung 0).currentBucket = 0 := by
  have inside : 0 < ladder.nRung := Nat.lt_of_le_of_lt (Nat.zero_le _) sound.lowest
  have restarted := sound.restart empty width minTS
  have times := rung_grow_first (ladder.restart width minTS) buckets
    (by rwa [restart_nRung])
  rw [rung_restart_first ladder width minTS inside] at times
  refine ⟨restarted.grow empty buckets, ?_, ?_, times⟩
  · rw [grow_nbc]
    exact empty
  · rw [grow_lowestRung]
    rfl

theorem Sound.epoch_bound (width : ℚ) (buckets : Nat) :
    0 < ((ladder.restart width minTS).grow buckets).nRung ∧
      0 < (((ladder.restart width minTS).grow buckets).rung 0).lists.length := by
  obtain ⟨started, _⟩ := sound.epoch_start empty minTS width buckets
  have inside := Nat.lt_of_le_of_lt (Nat.zero_le _) started.lowest
  have packed := started.packed 0 inside
  exact ⟨inside, by rw [packed.allocated]; exact packed.buckets⟩

theorem Sound.pushList_eq (filled : list ≠ []) :
    ladder.pushList list maxTS minTS = (.ok (), ladder.epoch list maxTS minTS, []) := by
  obtain ⟨inside, allocated⟩ := sound.epoch_bound empty minTS _ _
  obtain ⟨_, _, lowest, _, _, _, current⟩ := sound.epoch_start empty minTS _ _
  exact pushList_started empty filled inside lowest current allocated

theorem Sound.epoch_held :
    (ladder.epoch list maxTS minTS).held =
      Function.update (fun _ => 0) 0 (list : Multiset Entry) := by
  simp only [epoch, started]
  generalize bucketwidth maxTS minTS list.length = width
  generalize toUInt32 _ = buckets
  obtain ⟨started, nbc, lowest, _, _, _, current⟩ := sound.epoch_start empty minTS width buckets
  obtain ⟨_, allocated⟩ := sound.epoch_bound empty minTS width buckets
  have blank : ((ladder.restart width minTS).grow buckets).held = fun _ => 0 := by
    funext index
    exact held_of_unloaded started (started.unloaded nbc index)
  rw [started.held_putAll list (Nat.zero_le _) (by rwa [current]), blank, zero_add]

theorem Sound.epoch_valid (order : minTS ≤ maxTS) (filled : list ≠ []) :
    (ladder.epoch list maxTS minTS).Valid := by
  have positive : 0 < bucketwidth maxTS minTS list.length := by
    simp only [bucketwidth]
    split
    · norm_num
    · rename_i different
      have less : minTS < maxTS := lt_of_le_of_ne order (Ne.symm different)
      have length : (0 : ℚ) < list.length := by
        exact_mod_cast List.length_pos_iff.mpr filled
      exact div_pos (by linarith) length
  simp only [epoch, started]
  generalize bucketwidth maxTS minTS list.length = width at positive
  generalize toUInt32 _ = buckets
  obtain ⟨started, nbc, lowest, widths, rStart, rCur, current⟩ :=
    sound.epoch_start empty minTS width buckets
  obtain ⟨_, allocated⟩ := sound.epoch_bound empty minTS width buckets
  have aligned : ((ladder.restart width minTS).grow buckets).Aligned := by
    constructor
    · rwa [widths]
    · exact current
    · intro index bound
      obtain rfl : index = 0 := by omega
      rw [rCur, rStart, current]
      simp
    · intro index bound
      omega
    · intro index bound
      obtain rfl : index = 0 := by omega
      rw [current]
      norm_num
    · intro index bound _
      obtain rfl : index = 0 := by omega
      rw [current]
      norm_num
  exact ⟨started.putAll list (Nat.zero_le _) (by rwa [current]),
    fun _ => aligned.putAll started list (Nat.zero_le _) (by rw [current]; norm_num)⟩

theorem Sound.epoch_lowestRung : (ladder.epoch list maxTS minTS).lowestRung = 0 :=
  (sound.epoch_start empty minTS _ _).2.2.1

theorem Sound.epoch_nbc : (ladder.epoch list maxTS minTS).nbc = list.length := by
  simp only [epoch, started, putAll_nbc]
  rw [(sound.epoch_start empty minTS _ _).2.1, zero_add]

theorem Sound.epoch_rCur : ((ladder.epoch list maxTS minTS).rung 0).rCur = minTS := by
  simp only [epoch, started]
  rw [rung_putAll_self _ list (sound.epoch_bound empty minTS _ _).1]
  exact (sound.epoch_start empty minTS _ _).2.2.2.2.2.1

end Ladder

end RlAqs
