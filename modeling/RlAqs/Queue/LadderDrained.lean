import RlAqs.Queue.LadderBuckets

/-! An epoch leaves the ladder in one call of `delist`, for an overfull bucket by a spawned rung. -/

namespace RlAqs

namespace Ladder

structure Ready (list : List Entry) (ladder : Ladder) : Prop where
  inside : ladder.lowestRung < ladder.nRung
  packed : ∀ index < ladder.nRung, (ladder.rung index).Packed
  others : ∀ index ≠ ladder.lowestRung, ladder.events index = 0
  current : ladder.lowest.current = list
  nbc : ladder.nbc = list.length

theorem Ready.loaded {list : List Entry} {ladder : Ladder} (ready : ladder.Ready list)
    (filled : list ≠ []) : ladder.nextBucket = (.ok (), ladder) := by
  apply nextBucket_eq
  · rw [Ladder.lowest, (ready.packed _ ready.inside).counted]
    change ladder.lowest.current.length ≠ 0
    rw [ready.current]
    exact fun none => filled (List.eq_nil_of_length_eq_zero none)
  · rwa [ready.current]

theorem Ready.closeLowest {list : List Entry} {ladder : Ladder} (ready : ladder.Ready list) :
    ladder.closeLowest.nbc = 0 ∧ (∀ index, ladder.closeLowest.held index = 0) ∧
      (ladder.closeLowest.rung ladder.lowestRung).rCur =
        if ladder.lowestRung > 0 then dblMax
        else ladder.lowest.rCur + ladder.lowest.bucketwidth := by
  have inside : ladder.lowestRung < (ladder.takeCurrent ladder.lowestRung).nRung := by
    rw [takeCurrent_nRung]
    exact ready.inside
  have own := rung_pass_self (ladder.takeCurrent ladder.lowestRung) inside
  rw [rung_takeCurrent_self ladder ready.inside] at own
  have lists := (ready.packed _ ready.inside).closed_lists
  have counted : ladder.nbc - (ladder.rung ladder.lowestRung).current.length = 0 := by
    change ladder.nbc - ladder.lowest.current.length = 0
    rw [ready.nbc, ready.current, Nat.sub_self]
  have elsewhere : ∀ index ≠ ladder.lowestRung,
      (((ladder.takeCurrent ladder.lowestRung).pass ladder.lowestRung).rung index).held = 0 := by
    intro index other
    rw [rung_pass_of_ne _ other, rung_takeCurrent_of_ne _ other]
    by_cases bound : index < ladder.nRung
    · exact Multiset.card_eq_zero.mp
        ((ready.packed index bound).card_held.trans (ready.others index other))
    · rw [rung_of_outside ladder (by omega)]
      rfl
  simp only [Ladder.closeLowest]
  split
  · have dropped := rung_dropLowest_self
      ((ladder.takeCurrent ladder.lowestRung).pass ladder.lowestRung)
      (by rw [pass_nRung]; exact inside)
    change ((ladder.takeCurrent ladder.lowestRung).pass ladder.lowestRung).dropLowest.rung
      ladder.lowestRung = { ((ladder.takeCurrent ladder.lowestRung).pass
        ladder.lowestRung).rung ladder.lowestRung with
          rCur := dblMax, rStart := dblMax, currentBucket := 0 } at dropped
    refine ⟨counted, fun index => ?_, by rw [dropped]⟩
    by_cases same : index = ladder.lowestRung
    · rw [same, held, dropped, own]
      exact congrArg _ (Rung.flatten_of_empty _ lists)
    · have other : index ≠
          ((ladder.takeCurrent ladder.lowestRung).pass ladder.lowestRung).lowestRung := same
      rw [held, rung_dropLowest_of_ne _ other]
      exact elsewhere index same
  · refine ⟨counted, fun index => ?_, by rw [own]; rfl⟩
    by_cases same : index = ladder.lowestRung
    · rw [same, held, own]
      exact congrArg _ (Rung.flatten_of_empty _ lists)
    · exact elsewhere index same

theorem Ready.drains_iff {list : List Entry} {ladder ready : Ladder} (all : ready.Ready list)
    (filled : list ≠ []) (loaded : ladder.nbc ≠ 0)
    (advanced : ladder.advanceDequeueBucket true = (.ok (), ready)) :
    ladder.Drains ↔
      (∀ entry ∈ list, entry.arrival < (ready.closeLowest.rung ready.lowestRung).rCur) ∨
        ready.lowest.currentBucket + 1 = ready.lowest.buckets := by
  have delisted := delist_eq all.inside (all.packed _ all.inside) advanced
  rw [all.current] at delisted
  obtain ⟨nbc, held, _⟩ := all.closeLowest
  constructor
  · intro drains
    cases drains with
    | empty none => exact absurd none loaded
    | delist _ handed delivered _ =>
        rw [delisted, Prod.mk.injEq, Except.ok.injEq] at handed
        obtain ⟨rfl, rfl⟩ := handed
        have earlier := delivered.earlier
        rwa [advanced] at earlier
  · intro earlier
    refine .delist loaded delisted ⟨filled, ?_, ?_⟩ (.empty nbc)
    · rwa [advanced]
    · intro index entry member
      rw [held] at member
      simp at member

/-! The rung that an overfull bucket is copied to. -/

theorem extended_blank (ladder : Ladder) (thres : 2 ≤ ladder.thres)
    (blank : ∀ index < ladder.nRung, 0 < index → (ladder.rung index).buckets = ladder.thres ∧
      (ladder.rung index).Packed ∧ ladder.events index = 0) :
    ∀ index < ladder.extended.nRung, 0 < index →
      (ladder.extended.rung index).buckets = ladder.thres ∧
        (ladder.extended.rung index).Packed ∧ ladder.extended.events index = 0 := by
  simp only [Ladder.extended]
  split
  · intro index inside positive
    rw [createRung_nRung] at inside
    by_cases last : index = ladder.nRung
    · rw [events, last, rung_createRung_self]
      exact ⟨rfl, Rung.fresh_packed _ (by omega), rfl⟩
    · rw [events, rung_createRung_of_ne ladder last]
      exact blank index (by omega) positive
  · exact blank

section Loaded

variable {width minTS : ℚ} {ladder : Ladder} (started : ladder.Started width minTS)
  (list : List Entry)

include started

theorem Started.ready : (ladder.putAll 0 list).Ready list where
  inside := by
    rw [putAll_lowestRung, putAll_nRung, started.lowest]
    exact started.rungs
  packed := by
    intro index inside
    by_cases first : index = 0
    · rw [first]
      exact started.packed_loaded list
    · rw [rung_putAll_of_ne ladder list first]
      exact started.packed index (by rwa [putAll_nRung] at inside)
  others := by
    intro index other
    rw [putAll_lowestRung, started.lowest] at other
    rw [events, rung_putAll_of_ne ladder list other]
    exact started.unloaded index
  current := by
    rw [Ladder.lowest, putAll_lowestRung, started.lowest]
    exact started.current_loaded list
  nbc := by rw [putAll_nbc, started.nbc, Nat.zero_add]

theorem Started.opened : ((ladder.putAll 0 list).pass 0).openRung.lowestRung = 1 ∧
    ((ladder.putAll 0 list).pass 0).openRung.nbc = list.length ∧
    1 < ((ladder.putAll 0 list).pass 0).openRung.nRung ∧
    ((ladder.putAll 0 list).pass 0).openRung.rung 0 =
      { (ladder.rung 0).putAll list with
        rCur := (ladder.rung 0).rCur + (ladder.rung 0).bucketwidth } ∧
    (((ladder.putAll 0 list).pass 0).openRung.rung 1).currentBucket = 0 ∧
    ∀ index < ((ladder.putAll 0 list).pass 0).openRung.nRung, 0 < index →
      (((ladder.putAll 0 list).pass 0).openRung.rung index).buckets = ladder.thres ∧
        (((ladder.putAll 0 list).pass 0).openRung.rung index).Packed ∧
        ((ladder.putAll 0 list).pass 0).openRung.events index = 0 := by
  have loadedRungs : 0 < (ladder.putAll 0 list).nRung := by
    rw [putAll_nRung]
    exact started.rungs
  have low : ((ladder.putAll 0 list).pass 0).lowestRung = 0 := started.lowest
  have inside : ((ladder.putAll 0 list).pass 0).lowestRung <
      ((ladder.putAll 0 list).pass 0).nRung := by rwa [low, pass_nRung]
  have wide := extended_nRung inside (by rw [low]; decide)
  have top := rung_extended inside (Nat.le_refl _)
  have blank := extended_blank ((ladder.putAll 0 list).pass 0) started.thres (by
    intro index bound positive
    rw [pass_nRung, putAll_nRung] at bound
    rw [events, rung_pass_of_ne _ (by omega), rung_putAll_of_ne _ _ (by omega)]
    exact ⟨started.deeper index bound positive, started.packed index bound,
      started.unloaded index⟩)
  have opened := openRung_eq inside
  rw [low] at opened wide top
  rw [opened]
  refine ⟨rfl, ?_, ?_, ?_, ?_, ?_⟩
  · change ((ladder.putAll 0 list).pass 0).extended.nbc = list.length
    rw [extended_nbc]
    exact (started.ready list).nbc
  · exact wide.trans_eq (modifyRung_nRung _ _ _).symm
  · refine (rung_modifyRung_of_ne _ _ (by decide)).trans (top.trans ?_)
    rw [rung_pass_self _ loadedRungs, started.rung_loaded]
    rfl
  · exact congrArg Rung.currentBucket (rung_modifyRung_self _ _ wide)
  · intro index bound positive
    have bound : index < ((ladder.putAll 0 list).pass 0).extended.nRung :=
      bound.trans_eq (modifyRung_nRung _ _ _)
    obtain ⟨buckets, packed, unloaded⟩ := blank index bound positive
    by_cases own : index = 1
    · subst own
      have same := rung_modifyRung_self ((ladder.putAll 0 list).pass 0).extended
        (nestedIn ((ladder.putAll 0 list).pass 0).thres
          ((ladder.putAll 0 list).pass 0).lowest) wide
      refine ⟨(congrArg Rung.buckets same).trans buckets, ?_,
        (congrArg Rung.events same).trans unloaded⟩
      exact same ▸ packed.unloaded unloaded rfl rfl unloaded
    · have same := rung_modifyRung_of_ne ((ladder.putAll 0 list).pass 0).extended
        (nestedIn ((ladder.putAll 0 list).pass 0).thres
          ((ladder.putAll 0 list).pass 0).lowest) own
      exact ⟨(congrArg Rung.buckets same).trans buckets, same ▸ packed,
        (congrArg Rung.events same).trans unloaded⟩

theorem Started.spawned_eq : (ladder.putAll 0 list).spawned =
    (((ladder.putAll 0 list).pass 0).openRung.takeCurrent 0).putAll 1 list := by
  have low : (ladder.putAll 0 list).lowestRung = 0 := started.lowest
  rw [Ladder.spawned, (started.ready list).current, low]

theorem Started.spawned_ready : (ladder.putAll 0 list).spawned.Ready list ∧
    (ladder.putAll 0 list).spawned.lowestRung = 1 ∧
    (ladder.putAll 0 list).spawned.lowest.currentBucket = 0 ∧
    (ladder.putAll 0 list).spawned.lowest.buckets = ladder.thres := by
  rw [started.spawned_eq]
  obtain ⟨low, nbc, wide, top, current, blank⟩ := started.opened list
  generalize ((ladder.putAll 0 list).pass 0).openRung = opened at low nbc wide top current blank
  have loaded := started.packed_loaded list
  rw [started.rung_loaded] at loaded
  have topPacked : (opened.rung 0).Packed := by
    rw [top]
    exact loaded.timed rfl rfl rfl rfl
  have topCurrent : (opened.rung 0).current = list := by
    rw [top]
    exact (congrArg Rung.current (started.rung_loaded list)).symm.trans
      (started.current_loaded list)
  obtain ⟨buckets, packed, unloaded⟩ := blank 1 wide (by decide)
  have below : (opened.takeCurrent 0).rung 1 = opened.rung 1 :=
    rung_takeCurrent_of_ne opened (by decide)
  have wideTaken : 1 < (opened.takeCurrent 0).nRung := by rwa [takeCurrent_nRung]
  have bound : ((opened.takeCurrent 0).rung 1).currentBucket <
      ((opened.takeCurrent 0).rung 1).lists.length := by
    rw [below, current, packed.allocated]
    exact packed.buckets
  have own : ((opened.takeCurrent 0).putAll 1 list).lowest =
      (opened.rung 1).putAll list := by
    have lowest : ((opened.takeCurrent 0).putAll 1 list).lowestRung = 1 := low
    rw [Ladder.lowest, lowest, rung_putAll_self _ _ wideTaken, below]
  refine ⟨⟨?_, ?_, ?_, ?_, ?_⟩, low, ?_, ?_⟩
  · rw [putAll_nRung]
    exact low.trans_lt wideTaken
  · intro index inside
    rw [putAll_nRung, takeCurrent_nRung] at inside
    by_cases first : index = 0
    · rw [first, rung_putAll_of_ne _ _ (by decide), rung_takeCurrent_self _ (by omega)]
      exact topPacked.closed
    · by_cases second : index = 1
      · rw [second, rung_putAll_self _ _ wideTaken]
        rw [below] at bound ⊢
        exact packed.putAll list bound
      · rw [rung_putAll_of_ne _ _ second, rung_takeCurrent_of_ne _ first]
        exact (blank index inside (by omega)).2.1
  · intro index other
    have other : index ≠ 1 := fun same => other (same.trans low.symm)
    rw [events, rung_putAll_of_ne _ _ other]
    by_cases first : index = 0
    · rw [first, rung_takeCurrent_self _ (by omega)]
      exact topPacked.closed_events
    · rw [rung_takeCurrent_of_ne _ first]
      by_cases inside : index < opened.nRung
      · exact (blank index inside (by omega)).2.2
      · exact events_outside opened (by omega)
  · rw [own, Rung.current_putAll _ _ (by rwa [below] at bound), Rung.current,
      packed.empty_lists unloaded, List.nil_append]
  · rw [putAll_nbc]
    change opened.nbc - (opened.rung 0).current.length + list.length = list.length
    rw [nbc, topCurrent, Nat.sub_self, Nat.zero_add]
  · rw [own]
    exact current
  · rw [own]
    exact buckets

theorem Started.spawn_eq :
    ((ladder.putAll 0 list).pass 0).spawn true = (.ok true, (ladder.putAll 0 list).spawned) := by
  have low : (ladder.putAll 0 list).lowestRung = 0 := started.lowest
  have lowest : (ladder.putAll 0 list).lowest = (ladder.rung 0).putAll list := by
    rw [Ladder.lowest, low, started.rung_loaded]
  obtain ⟨_, _, wide, _, _, blank⟩ := started.opened list
  obtain ⟨_, packed, _⟩ := blank 1 wide (by decide)
  have allocated := packed.allocated.symm ▸ packed.buckets
  have spawned := Ladder.spawn_eq (started.ready list).inside (by rw [low]; decide)
    (by rw [lowest, Rung.putAll, List.length_modify]; exact started.allocated)
    (by rw [low]; exact allocated)
  rwa [low] at spawned

/-- Events at one time come out in one list; from a spawned rung it is before the largest time. -/
theorem Started.drains_iff (filled : list ≠ []) (positive : 0 < width)
    (once : ∀ entry ∈ list, entry.arrival = minTS) :
    (ladder.putAll 0 list).Drains ↔ list.length ≤ ladder.thres ∨ minTS < dblMax := by
  have ready := started.ready list
  have low : (ladder.putAll 0 list).lowestRung = 0 := started.lowest
  have length : list.length ≠ 0 := fun none => filled (List.eq_nil_of_length_eq_zero none)
  have loaded : (ladder.putAll 0 list).nbc ≠ 0 := by rwa [ready.nbc]
  have thres : (ladder.putAll 0 list).thres = ladder.thres := rfl
  have first : ∀ bound, (∀ entry ∈ list, entry.arrival < bound) ↔ minTS < bound := by
    intro bound
    obtain ⟨entry, member⟩ := List.exists_mem_of_ne_nil list filled
    constructor
    · intro all
      exact once entry member ▸ all entry member
    · intro less other inside
      rwa [once other inside]
  by_cases few : list.length ≤ ladder.thres
  · have advanced : (ladder.putAll 0 list).advanceDequeueBucket true =
        (.ok (), ladder.putAll 0 list) := by
      have stay : ¬(ladder.putAll 0 list).lowest.current.length > (ladder.putAll 0 list).thres := by
        rw [ready.current, thres]
        omega
      simp only [advanceDequeueBucket, ready.loaded filled, stay, and_false, ↓reduceIte]
    have time := ready.closeLowest.2.2
    have lowest : (ladder.putAll 0 list).lowest = (ladder.rung 0).putAll list := by
      rw [Ladder.lowest, low, started.rung_loaded]
    rw [if_neg (by omega), lowest] at time
    rw [ready.drains_iff filled loaded advanced, first, time]
    simp only [few, true_or, iff_true]
    left
    change minTS < (ladder.rung 0).rCur + (ladder.rung 0).bucketwidth
    rw [started.rCur, started.bucketwidth]
    linarith
  · obtain ⟨spawned, lowest, current, buckets⟩ := started.spawned_ready list
    have advanced : (ladder.putAll 0 list).advanceDequeueBucket true =
        (.ok (), (ladder.putAll 0 list).spawned) := by
      have many : (ladder.putAll 0 list).lowest.current.length > (ladder.putAll 0 list).thres := by
        rw [ready.current, thres]
        omega
      have opened := started.spawn_eq list
      simp only [Ladder.pass] at opened
      simp only [advanceDequeueBucket, ready.loaded filled, many, and_self, ↓reduceIte, low, opened]
      exact spawned.loaded filled
    have time := spawned.closeLowest.2.2
    rw [if_pos (by omega)] at time
    have wide := started.thres
    rw [spawned.drains_iff filled loaded advanced, first, time, current, buckets]
    constructor
    · rintro (less | last)
      · exact Or.inr less
      · omega
    · rintro (less | less)
      · exact absurd less few
      · exact Or.inl less

end Loaded

/-- An epoch is in its buckets and comes out of them in order if and only if it has one time,
and that one is not the largest number when a spawned rung hands it out. -/
theorem pushList_in_order_iff {ladder : Ladder} (empty : ladder.Empty) (list : List Entry)
    (maxTS minTS : ℚ) (greatest : ∀ entry ∈ list, entry.arrival ≤ maxTS)
    (least : ∀ entry ∈ list, minTS ≤ entry.arrival)
    (last : ∃ entry ∈ list, entry.arrival = maxTS)
    (first : ∃ entry ∈ list, entry.arrival = minTS) :
    ∃ loaded, ladder.pushList list maxTS minTS = (.ok (), loaded, []) ∧
      (loaded.Placed list ∧ loaded.Drains ↔
        maxTS = minTS ∧ (list.length ≤ ladder.thres ∨ maxTS < dblMax)) := by
  obtain ⟨earliest, member, _⟩ := first
  have filled : list ≠ [] := List.ne_nil_of_mem member
  refine ⟨_, empty.pushList_eq filled maxTS minTS, ?_⟩
  rw [empty.placed_iff greatest least last]
  apply and_congr_right
  rintro rfl
  have once : ∀ entry ∈ list, entry.arrival = maxTS := fun entry inside =>
    le_antisymm (greatest entry inside) (least entry inside)
  have positive : 0 < Ladder.bucketwidth maxTS maxTS list.length := by
    rw [Ladder.bucketwidth, if_pos rfl]
    norm_num
  have drains := (empty.started (Ladder.bucketwidth maxTS maxTS list.length) maxTS
    (toUInt32 ((if gslFcmp maxTS maxTS (1 / 10 ^ 12) ≤ 0 then 0 else maxTS - maxTS) /
      Ladder.bucketwidth maxTS maxTS list.length))).drains_iff list filled positive once
  rwa [grow_thres] at drains

def timed (times : List ℚ) : List Entry :=
  times.mapIdx fun uid arrival => Entry.new uid 0 arrival 0 0 0

theorem pushList_in_order_iff_tie : ∃ loaded,
    (init defaultThres).pushList (timed [1, 1]) 1 1 = (.ok (), loaded, []) ∧
      loaded.Placed (timed [1, 1]) ∧ loaded.Drains := by
  have empty : (init defaultThres).Empty := init_empty (by decide)
  obtain ⟨loaded, pushed, ordered⟩ := pushList_in_order_iff empty (timed [1, 1]) 1 1
    (by decide +kernel) (by decide +kernel) (by decide +kernel) (by decide +kernel)
  exact ⟨loaded, pushed, ordered.mpr ⟨rfl, Or.inl (by decide)⟩⟩

/-- Two events whose times belong in buckets zero and two share bucket zero. -/
theorem pushList_collapses : ∃ loaded,
    (init defaultThres).pushList (timed [0, 1]) 1 0 = (.ok (), loaded, []) ∧
      (loaded.rung 0).lists.getD 0 [] = timed [0, 1] ∧ (loaded.rung 0).target 1 = 2 ∧
      ¬loaded.Placed (timed [0, 1]) := by
  have empty : (init defaultThres).Empty := init_empty (by decide)
  refine ⟨_, empty.pushList_eq (by decide) 1 0, by decide +kernel, by decide +kernel, ?_⟩
  rw [empty.placed_iff (by decide +kernel) (by decide +kernel) (by decide +kernel)]
  norm_num

end Ladder

end RlAqs
