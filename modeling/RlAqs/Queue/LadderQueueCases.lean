import RlAqs.Queue.BottomChecks
import RlAqs.Queue.LadderDelist
import RlAqs.Queue.LadderQueueCore
import RlAqs.Library.Stages

/-!
What one call does to a valid queue, case by case. `Pushed` and `Served` list the
ways of an event through the three structures; everything said about runs is
derived from them.
-/

namespace RlAqs

namespace LadderQueue

structure Valid (queue : LadderQueue) : Prop where
  ladder : queue.ladder.Valid
  sorted : Bottom.Sorted queue.bottom.list
  ranged : queue.top.Ranged
  late : ∀ x ∈ queue.top.fifo, queue.top.topStart ≤ x.arrival

theorem init_valid : init.Valid where
  ladder := Ladder.init_valid
  sorted := List.Pairwise.nil
  ranged := ⟨fun _ member => absurd member List.not_mem_nil⟩
  late := fun _ member => absurd member List.not_mem_nil

def InBottom (queue : LadderQueue) (ts : ℚ) : Prop :=
  ts ≤ queue.bottom.getMaxTS ∧ ts ≥ queue.bottom.getMinTS

def ToBottom (queue : LadderQueue) (ts : ℚ) : Prop :=
  ts < queue.top.getTopStart ∧ (queue.InBottom ts ∨ ¬ queue.ladder.Takes ts)

instance (queue : LadderQueue) (ts : ℚ) : Decidable (queue.InBottom ts) :=
  inferInstanceAs (Decidable (_ ∧ _))

instance (queue : LadderQueue) (ts : ℚ) : Decidable (queue.ToBottom ts) :=
  inferInstanceAs (Decidable (_ ∧ _))

inductive Pushed (queue : LadderQueue) (entry : Entry) : LadderQueue → Prop
  | top (late : queue.top.getTopStart ≤ entry.arrival) :
      Pushed queue entry { queue with top := queue.top.push entry }
  | ladder (early : entry.arrival < queue.top.getTopStart)
      (outside : ¬ queue.InBottom entry.arrival) (takes : queue.ladder.Takes entry.arrival) :
      Pushed queue entry
        { queue with
          ladder := queue.ladder.putAll (queue.ladder.place entry.arrival) [entry] }
  | bottom (down : queue.ToBottom entry.arrival)
      (fresh : ¬ entry.arrival < queue.bottom.lastEvent) :
      Pushed queue entry
        { queue with
          bottom := { queue.bottom with list := Bottom.inserted queue.bottom.list entry } }
  | epoch (down : queue.ToBottom entry.arrival)
      (fresh : ¬ entry.arrival < queue.bottom.lastEvent) (unloaded : queue.ladder.nbc = 0)
      (bottom : Bottom)
      (inserted : bottom =
        { queue.bottom with list := Bottom.inserted queue.bottom.list entry }) :
      Pushed queue entry
        { queue with
          ladder := queue.ladder.epoch bottom.list bottom.getMaxTS bottom.getMinTS
          bottom := { bottom with list := [] } }
  | back (down : queue.ToBottom entry.arrival)
      (fresh : ¬ entry.arrival < queue.bottom.lastEvent) (loaded : queue.ladder.nbc ≠ 0)
      (room : queue.ladder.lowestRung < Ladder.maxRungs - 1)
      (full : queue.bottom.size + 1 > queue.ladder.getThres) :
      Pushed queue entry
        { queue with
          ladder := queue.ladder.pushedBack (Bottom.inserted queue.bottom.list entry)
          bottom := { queue.bottom with list := [] } }

theorem inserted_ne_nil {list : List Entry} (entry : Entry) (sorted : Bottom.Sorted list) :
    Bottom.inserted list entry ≠ [] := by
  intro none
  have perm := Bottom.inserted_perm entry sorted
  rw [none] at perm
  exact absurd perm.length_eq (by simp)

/-- A push that reaches the bottom is refused for a past time and accepted otherwise. -/
theorem Valid.pushBottom_cases {queue : LadderQueue} (valid : queue.Valid) {entry : Entry}
    (down : queue.ToBottom entry.arrival) :
    (queue.pushBottom entry = (.error (.thrown .pastEventNotAllowed), queue) ∧
        entry.arrival < queue.bottom.lastEvent) ∨
      ∃ next, queue.pushBottom entry = (.ok true, next) ∧ Pushed queue entry next := by
  by_cases past : entry.arrival < queue.bottom.lastEvent
  · exact .inl ⟨by simp only [pushBottom, Bottom.push_refused past], past⟩
  · right
    have filled := inserted_ne_nil entry valid.sorted
    have length := (Bottom.inserted_perm entry valid.sorted).length_eq
    simp only [pushBottom, Bottom.push_eq past, relieveBottom, Bottom.size]
    by_cases full : (Bottom.inserted queue.bottom.list entry).length > queue.ladder.getThres
    · by_cases unloaded : queue.ladder.getNBC = 0
      · simp only [full, unloaded, ↓reduceIte,
          valid.ladder.sound.pushList_eq unloaded _ _ _ filled]
        exact ⟨_, rfl, .epoch down past unloaded _ rfl⟩
      · by_cases room : queue.ladder.lowestRung < Ladder.maxRungs - 1
        · simp only [full, unloaded, ↓reduceIte, valid.ladder.sound.pushBack_eq _ room]
          refine ⟨_, rfl, .back down past unloaded room ?_⟩
          rw [length, List.length_cons] at full
          exact full
        · simp only [full, unloaded, ↓reduceIte, Ladder.pushBack_refused _ room]
          exact ⟨_, rfl, .bottom down past⟩
    · simp only [full, ↓reduceIte]
      exact ⟨_, rfl, .bottom down past⟩

theorem Valid.push_cases {queue : LadderQueue} (valid : queue.Valid) (entry : Entry) :
    (queue.push entry = (.error (.thrown .pastEventNotAllowed), queue) ∧
        entry.arrival < queue.bottom.lastEvent) ∨
      ∃ next, queue.push entry = (.ok true, next) ∧ Pushed queue entry next := by
  by_cases late : entry.arrival ≥ queue.top.getTopStart
  · exact .inr ⟨_, by simp only [push, late, ↓reduceIte], .top late⟩
  · have early : entry.arrival < queue.top.getTopStart := not_le.mp late
    by_cases inside : queue.InBottom entry.arrival
    · have down : queue.push entry = queue.pushBottom entry := by
        simp only [InBottom] at inside
        simp only [push, late, inside, and_self, ↓reduceIte]
      rw [down]
      exact valid.pushBottom_cases ⟨early, .inl inside⟩
    · by_cases takes : queue.ladder.Takes entry.arrival
      · refine .inr ⟨_, ?_, .ladder early inside takes⟩
        simp only [InBottom] at inside
        simp only [push, late, inside, valid.ladder.push_eq takes, ↓reduceIte]
      · obtain ⟨code, refused⟩ := Ladder.push_refused takes
        have down : queue.push entry = queue.pushBottom entry := by
          simp only [InBottom] at inside
          simp only [push, late, inside, refused, ↓reduceIte]
        rw [down]
        exact valid.pushBottom_cases ⟨early, .inr takes⟩

inductive Served (queue : LadderQueue) : LadderQueue → Prop
  | bottom (filled : queue.bottom.list ≠ []) : Served queue queue
  | ladder {list : List Entry} {next : Ladder} {index : Nat} (drained : queue.bottom.list = [])
      (loaded : queue.ladder.nbc ≠ 0) (delisted : queue.ladder.Delisted next list index) :
      Served queue
        { queue with
          ladder := next
          bottom := { queue.bottom with list := sortEntries list } }
  | top {list : List Entry} {next : Ladder} {index : Nat} (drained : queue.bottom.list = [])
      (unloaded : queue.ladder.nbc = 0) (filled : queue.top.fifo ≠ [])
      (delisted : (queue.ladder.epoch queue.top.fifo queue.top.maxTS queue.top.minTS).Delisted
        next list index) :
      Served queue
        { top := { queue.top.delist.2 with fifo := [], maxTS := 0, minTS := dblMax }
          ladder := next
          bottom := { queue.bottom with list := sortEntries list } }

def popped (queue : LadderQueue) (first : Entry) (rest : List Entry) : LadderQueue :=
  { queue with bottom := { lastEvent := first.arrival, list := rest } }

theorem popBottom_eq {queue : LadderQueue} {first : Entry} {rest : List Entry}
    (list : queue.bottom.list = first :: rest) :
    queue.popBottom = (.ok (some first), queue.popped first rest) := by
  simp only [popBottom, Bottom.front, Bottom.popFront, list, popped]

theorem pushList_of_drained {bottom : Bottom} (list : List Entry) (drained : bottom.list = []) :
    bottom.pushList list = { bottom with list := sortEntries list } := by
  simp only [Bottom.pushList, drained, mergeEntries]

theorem sortEntries_cons {list : List Entry} (filled : list ≠ []) :
    ∃ first rest, sortEntries list = first :: rest := by
  cases sorted : sortEntries list with
  | nil =>
      have perm := sortEntries_perm list
      rw [sorted] at perm
      exact absurd perm.symm.eq_nil filled
  | cons first rest => exact ⟨first, rest, rfl⟩

theorem Valid.dequeue_cases {queue : LadderQueue} (valid : queue.Valid) :
    (queue.dequeue = (.ok none, queue) ∧ queue.size = 0) ∨
      ∃ middle first rest, Served queue middle ∧ middle.bottom.list = first :: rest ∧
        queue.dequeue = (.ok (some first), middle.popped first rest) := by
  cases list : queue.bottom.list with
  | cons first rest =>
      right
      refine ⟨queue, first, rest, .bottom (by simp [list]), list, ?_⟩
      rw [dequeue, if_pos (by simp [Bottom.size, list])]
      exact popBottom_eq list
  | nil =>
      have noBottom : ¬ queue.bottom.size > 0 := by simp [Bottom.size, list]
      by_cases loaded : queue.ladder.getNBC > 0
      · right
        obtain ⟨entries, next, index, delisted, facts⟩ :=
          valid.ladder.delist_spec (Nat.ne_of_gt loaded)
        obtain ⟨first, rest, sorted⟩ := sortEntries_cons facts.filled
        refine ⟨_, first, rest, .ladder list (Nat.ne_of_gt loaded) facts, sorted, ?_⟩
        simp only [dequeue, noBottom, loaded, ↓reduceIte, popLadder, delisted,
          pushList_of_drained entries list]
        exact popBottom_eq sorted
      · have unloaded : queue.ladder.nbc = 0 := Nat.eq_zero_of_not_pos loaded
        by_cases filled : queue.top.getNTop > 0
        · right
          have some : queue.top.fifo ≠ [] := List.length_pos_iff.mp filled
          have sound := valid.ladder.sound
          have epochValid := sound.epoch_valid unloaded queue.top.fifo queue.top.maxTS
            queue.top.minTS (valid.ranged.order some) some
          have epochLoaded : (queue.ladder.epoch queue.top.fifo queue.top.maxTS
              queue.top.minTS).nbc ≠ 0 := by
            rw [sound.epoch_nbc unloaded]
            exact Nat.ne_of_gt filled
          obtain ⟨entries, next, index, delisted, facts⟩ := epochValid.delist_spec epochLoaded
          obtain ⟨first, rest, sorted⟩ := sortEntries_cons facts.filled
          refine ⟨_, first, rest, .top list unloaded some facts, sorted, ?_⟩
          have blank : Top.reset { queue.top.delist.2 with fifo := [] } =
              (.ok (), { queue.top.delist.2 with fifo := [], maxTS := 0, minTS := dblMax }) := rfl
          have started := sound.pushList_eq unloaded queue.top.fifo queue.top.maxTS
            queue.top.minTS some
          have served : queue.popTop = popLadder
              { queue with
                top := { queue.top.delist.2 with fifo := [], maxTS := 0, minTS := dblMax }
                ladder := queue.ladder.epoch queue.top.fifo queue.top.maxTS queue.top.minTS } := by
            simp only [popTop, Top.delist, Top.getMaxTS, Top.getMinTS, started] at blank ⊢
            rw [blank]
          simp only [dequeue, noBottom, loaded, filled, ↓reduceIte, served, popLadder, delisted,
            pushList_of_drained entries list]
          exact popBottom_eq sorted
        · left
          refine ⟨by simp only [dequeue, noBottom, loaded, filled, ↓reduceIte], ?_⟩
          simp only [size]
          omega

end LadderQueue

end RlAqs
