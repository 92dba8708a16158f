import RlAqs.Queue.LadderDelist
import RlAqs.Queue.LadderEpoch

/-!
Which buckets an epoch fills, and what the following calls of `delist` should hand out: for a
ladder of any threshold from two on. With one, the width of a spawned rung is divided by zero.
-/

namespace RlAqs

def Rung.target (rung : Rung) (ts : ℚ) : Nat :=
  min ⌊(ts - rung.rStart) / rung.bucketwidth⌋.toNat (rung.buckets - 1)

namespace Ladder

def Placed (ladder : Ladder) (list : List Entry) : Prop :=
  ∀ bucket < (ladder.rung 0).buckets, ((ladder.rung 0).lists.getD bucket []).Perm
    (list.filter fun entry => (ladder.rung 0).target entry.arrival = bucket)

/-- The rung a list came from divides its events from those that are left, unless the list was in
the last bucket of the rung. -/
structure Delivered (ladder : Ladder) (list : List Entry) (next : Ladder) : Prop where
  filled : list ≠ []
  earlier : (∀ entry ∈ list, entry.arrival <
      (next.rung (ladder.advanceDequeueBucket true).2.lowestRung).rCur) ∨
    (ladder.advanceDequeueBucket true).2.lowest.currentBucket + 1 =
      (ladder.advanceDequeueBucket true).2.lowest.buckets
  later : ∀ index, ∀ entry ∈ next.held index,
    (next.rung (ladder.advanceDequeueBucket true).2.lowestRung).rCur ≤ entry.arrival

inductive Drains : Ladder → Prop
  | empty {ladder : Ladder} : ladder.nbc = 0 → Drains ladder
  | delist {ladder next : Ladder} {list : List Entry} : ladder.nbc ≠ 0 →
      ladder.delist = (.ok list, next) → Delivered ladder list next → Drains next → Drains ladder

structure Empty (ladder : Ladder) : Prop where
  thres : 2 ≤ ladder.thres
  rungs : 0 < ladder.nRung
  wide : 2 ≤ ladder.bucketsFirstRung
  first : (ladder.rung 0).buckets = ladder.bucketsFirstRung
  deeper : ∀ index < ladder.nRung, 0 < index → (ladder.rung index).buckets = ladder.thres
  packed : ∀ index < ladder.nRung, (ladder.rung index).Packed
  unloaded : ∀ index, ladder.events index = 0
  nbc : ladder.nbc = 0

theorem init_empty {thres : Nat} (enough : 2 ≤ thres) : (init thres).Empty where
  thres := enough
  rungs := by simp [nRung, init]
  wide := enough
  first := rfl
  deeper := by
    intro index inside _
    rw [rung_init inside]
    rfl
  packed := by
    intro index inside
    rw [rung_init inside]
    exact Rung.fresh_packed thres (by omega)
  unloaded := by
    intro index
    simp only [events, rung, init, List.getD_eq_getElem?_getD, List.getElem?_replicate]
    split <;> rfl
  nbc := rfl

theorem Sound.empty {ladder : Ladder} (sound : ladder.Sound) (none : ladder.nbc = 0)
    (wide : 2 ≤ ladder.bucketsFirstRung) : ladder.Empty where
  thres := by rw [sound.thres]; decide
  rungs := Nat.lt_of_le_of_lt (Nat.zero_le _) sound.lowest
  wide := wide
  first := sound.first
  deeper := fun index inside positive => by
    rw [sound.thres]
    exact sound.deeper index inside positive
  packed := sound.packed
  unloaded := sound.unloaded none
  nbc := none

/-! The start of an epoch. -/

theorem Empty.restart {ladder : Ladder} (empty : ladder.Empty) (width minTS : ℚ) :
    (ladder.restart width minTS).Empty := by
  have own := rung_restart_first ladder width minTS empty.rungs
  refine ⟨empty.thres, ?_, empty.wide, ?_, ?_, ?_, ?_, empty.nbc⟩
  · rw [restart_nRung]
    exact empty.rungs
  · rw [own]
    exact empty.first
  · intro index inside positive
    rw [restart_nRung] at inside
    rw [rung_restart_of_ne ladder width minTS (by omega)]
    exact empty.deeper index inside positive
  · intro index inside
    rw [restart_nRung] at inside
    by_cases first : index = 0
    · subst first
      rw [own]
      exact (empty.packed 0 inside).unloaded (empty.unloaded 0) rfl rfl (empty.unloaded 0)
    · rw [rung_restart_of_ne ladder width minTS first]
      exact (empty.packed index inside).unloaded (empty.unloaded index) rfl rfl
        (empty.unloaded index)
  · intro index
    by_cases first : index = 0
    · subst first
      rw [events, own]
      exact empty.unloaded 0
    · rw [events, rung_restart_of_ne ladder width minTS first]
      exact empty.unloaded index

theorem Empty.grow {ladder : Ladder} (empty : ladder.Empty) (buckets : Nat) :
    (ladder.grow buckets).Empty := by
  simp only [Ladder.grow]
  split
  · rename_i enough
    have own : (ladder.resizeFirstRung buckets).rung 0 =
        { ladder.rung 0 with
          buckets := 2 * buckets
          lists := List.replicate (2 * buckets) [] } :=
      rung_modifyRung_self _ _ empty.rungs
    have others : ∀ index ≠ 0,
        (ladder.resizeFirstRung buckets).rung index = ladder.rung index :=
      fun index other => rung_modifyRung_of_ne _ _ other
    have wide := empty.wide
    have nRung : (ladder.resizeFirstRung buckets).nRung = ladder.nRung :=
      modifyRung_nRung _ _ _
    refine ⟨empty.thres, ?_, ?_, ?_, ?_, ?_, ?_, empty.nbc⟩
    · rw [nRung]
      exact empty.rungs
    · show 2 ≤ 2 * buckets
      omega
    · rw [own]
      rfl
    · intro index inside positive
      rw [nRung] at inside
      rw [others index (by omega)]
      exact empty.deeper index inside positive
    · intro index inside
      rw [nRung] at inside
      by_cases first : index = 0
      · rw [first, own]
        have fresh := Rung.fresh_packed (2 * buckets) (by omega)
        exact ⟨by simp, by show 0 < 2 * buckets; omega,
          fun bucket _ => fresh.empty_lists rfl bucket,
          (empty.unloaded 0).trans (congrArg List.length (fresh.empty_lists rfl _)).symm⟩
      · rw [others index first]
        exact empty.packed index inside
    · intro index
      by_cases first : index = 0
      · rw [first, events, own]
        exact empty.unloaded 0
      · rw [events, others index first]
        exact empty.unloaded index
  · exact empty

structure Started (width minTS : ℚ) (ladder : Ladder) : Prop extends Empty ladder where
  lowest : ladder.lowestRung = 0
  bucketwidth : (ladder.rung 0).bucketwidth = width
  rStart : (ladder.rung 0).rStart = minTS
  rCur : (ladder.rung 0).rCur = minTS
  current : (ladder.rung 0).currentBucket = 0

theorem Empty.started {ladder : Ladder} (empty : ladder.Empty) (width minTS : ℚ)
    (buckets : Nat) : ((ladder.restart width minTS).grow buckets).Started width minTS := by
  have times := rung_grow_first (ladder.restart width minTS) buckets
    (by rw [restart_nRung]; exact empty.rungs)
  rw [rung_restart_first ladder width minTS empty.rungs] at times
  obtain ⟨bucketwidth, rStart, rCur, current⟩ := times
  exact ⟨(empty.restart width minTS).grow buckets, grow_lowestRung _ _, bucketwidth, rStart, rCur,
    current⟩

theorem Started.allocated {width minTS : ℚ} {ladder : Ladder}
    (started : ladder.Started width minTS) :
    (ladder.rung 0).currentBucket < (ladder.rung 0).lists.length := by
  rw [started.current, (started.packed 0 started.rungs).allocated]
  exact (started.packed 0 started.rungs).buckets

theorem Empty.started_list {ladder : Ladder} (empty : ladder.Empty) (list : List Entry)
    (maxTS minTS : ℚ) : (ladder.started list maxTS minTS).Started
      (Ladder.bucketwidth maxTS minTS list.length) minTS :=
  empty.started _ _ _

theorem Empty.pushList_eq {ladder : Ladder} (empty : ladder.Empty) {list : List Entry}
    (filled : list ≠ []) (maxTS minTS : ℚ) :
    ladder.pushList list maxTS minTS = (.ok (), ladder.epoch list maxTS minTS, []) := by
  have started := empty.started_list list maxTS minTS
  have allocated := started.allocated
  rw [started.current] at allocated
  exact pushList_started empty.nbc filled started.rungs started.lowest started.current allocated

section Loaded

variable {width minTS : ℚ} {ladder : Ladder} (started : ladder.Started width minTS)
  (list : List Entry)

include started

theorem Started.rung_loaded :
    (ladder.putAll 0 list).rung 0 = (ladder.rung 0).putAll list :=
  rung_putAll_self ladder list started.rungs

theorem Started.packed_loaded : ((ladder.putAll 0 list).rung 0).Packed := by
  rw [started.rung_loaded]
  exact (started.packed 0 started.rungs).putAll list started.allocated

theorem Started.current_loaded : ((ladder.putAll 0 list).rung 0).current = list := by
  rw [started.rung_loaded, Rung.current_putAll _ list started.allocated, Rung.current,
    (started.packed 0 started.rungs).empty_lists (started.unloaded 0), List.nil_append]

/-- The clamp to the current bucket leaves only bucket zero. -/
theorem Started.placed_iff : (ladder.putAll 0 list).Placed list ↔
    ∀ entry ∈ list, (ladder.rung 0).target entry.arrival = 0 := by
  have packed := started.packed_loaded list
  have first : ((ladder.putAll 0 list).rung 0).currentBucket = 0 := by
    rw [started.rung_loaded]
    exact started.current
  have content := started.current_loaded list
  rw [Rung.current, first] at content
  have target : ∀ ts, ((ladder.putAll 0 list).rung 0).target ts = (ladder.rung 0).target ts := by
    intro ts
    rw [started.rung_loaded]
    rfl
  constructor
  · intro placed entry member
    by_contra moved
    have wide := packed.buckets
    have bound : (ladder.rung 0).target entry.arrival < ((ladder.putAll 0 list).rung 0).buckets := by
      rw [← target, Rung.target]
      exact (Nat.min_le_right _ _).trans_lt (by omega)
    have here := placed _ bound
    rw [packed.elsewhere _ (by rw [first]; exact moved)] at here
    have inside : entry ∈ list.filter fun other =>
        ((ladder.putAll 0 list).rung 0).target other.arrival =
          (ladder.rung 0).target entry.arrival := by
      simp [member, target]
    rw [here.symm.eq_nil] at inside
    simp at inside
  · intro zero bucket _
    by_cases own : bucket = 0
    · rw [own, content, List.filter_eq_self.mpr]
      intro entry member
      simp [target, zero entry member]
    · rw [packed.elsewhere bucket (by rwa [first]), List.filter_eq_nil_iff.mpr]
      intro entry member
      simp [target, zero entry member, Ne.symm own]

end Loaded

theorem Empty.placed_iff {ladder : Ladder} (empty : ladder.Empty) {list : List Entry}
    {maxTS minTS : ℚ} (greatest : ∀ entry ∈ list, entry.arrival ≤ maxTS)
    (least : ∀ entry ∈ list, minTS ≤ entry.arrival) (attained : ∃ entry ∈ list,
      entry.arrival = maxTS) : (ladder.epoch list maxTS minTS).Placed list ↔ maxTS = minTS := by
  obtain ⟨last, member, latest⟩ := attained
  have length : 0 < list.length := List.length_pos_of_mem member
  have started := empty.started_list list maxTS minTS
  rw [Ladder.epoch, started.placed_iff list]
  constructor
  · intro zero
    by_contra different
    have own := zero last member
    have wide := started.wide
    rw [← started.first] at wide
    have spread : maxTS - minTS ≠ 0 := sub_ne_zero.mpr different
    have steps : (maxTS - minTS) / Ladder.bucketwidth maxTS minTS list.length = list.length := by
      rw [Ladder.bucketwidth, if_neg different, div_div_cancel₀ spread]
    rw [Rung.target, started.rStart, started.bucketwidth, latest, steps, Int.floor_natCast,
      Int.toNat_natCast] at own
    omega
  · intro same entry inside
    have now : entry.arrival = minTS :=
      le_antisymm ((greatest entry inside).trans same.le) (least entry inside)
    rw [Rung.target, started.rStart, now, sub_self, zero_div, Int.floor_zero, Int.toNat_zero,
      Nat.zero_min]

end Ladder

end RlAqs
