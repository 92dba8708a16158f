import RlAqs.Queue.LadderQueueStages
import RlAqs.Queue.LadderTimes

/-! When the stages of the queue are ordered by time. -/

namespace RlAqs

namespace LadderQueue

open Ladder (maxRungs)

structure Ordered (queue : LadderQueue) : Prop where
  stages : Stages.InOrder (fun x y : Entry => x.arrival ≤ y.arrival) queue.stages
  timed : queue.ladder.nbc ≠ 0 → queue.ladder.Timed
  early : ∀ stage ≤ maxRungs, ∀ x ∈ queue.stages stage, x.arrival ≤ queue.top.topStart
  future : ∀ x ∈ queue.held, queue.bottom.lastEvent ≤ x.arrival

/-- A push into the ladder leaves nothing later in the bottom, and a push that sends the
bottom back to the ladder finds all of it within the bucket that the new rung covers. -/
def Undisturbed (queue : LadderQueue) (ts : ℚ) : Prop :=
  (ts < queue.top.topStart → queue.ladder.Takes ts → queue.bottom.list ≠ [] →
      queue.bottom.getMinTS ≤ ts) ∧
    (queue.ToBottom ts → queue.bottom.size + 1 > queue.ladder.thres → queue.ladder.nbc ≠ 0 →
      queue.ladder.lowestRung < maxRungs - 1 →
      ∀ time ∈ ts :: queue.bottom.list.map Entry.arrival,
        queue.ladder.lowest.rCur - queue.ladder.lowest.bucketwidth ≤ time ∧
          time ≤ queue.ladder.lowest.rCur)

instance (queue : LadderQueue) (ts : ℚ) : Decidable (queue.Undisturbed ts) :=
  inferInstanceAs (Decidable (_ ∧ _))

theorem init_stages : init.stages = fun _ => 0 := by
  apply stages_ext
  · rfl
  · intro index inside
    rw [stages_rung init inside]
    exact Ladder.held_of_unloaded Ladder.init_sound (Ladder.init_sound.unloaded rfl index)
  · rfl
  · exact fun stage beyond => stages_beyond init beyond

theorem init_held : init.held = 0 := by
  rw [← total_stages, init_stages]
  simp [Stages.total]

theorem init_ordered : init.Ordered where
  stages := by
    rw [init_stages]
    exact Stages.inOrder_empty
  timed := fun loaded => absurd rfl loaded
  early := fun stage _ x member => by
    rw [init_stages] at member
    exact absurd member (Multiset.notMem_zero x)
  future := fun x member => by
    rw [init_held] at member
    exact absurd member (Multiset.notMem_zero x)

section Push

variable {queue : LadderQueue} (valid : queue.Valid) (ordered : queue.Ordered) {entry : Entry}

include valid ordered

theorem Ordered.refused_le (refused : ¬ queue.ladder.Takes entry.arrival) {index : Nat} {x : Entry}
    (member : x ∈ queue.ladder.held index) : entry.arrival ≤ x.arrival := by
  have sound := valid.ladder.sound
  by_cases unloaded : queue.ladder.nbc = 0
  · rw [Ladder.held_of_unloaded sound (sound.unloaded unloaded index)] at member
    exact absurd member (Multiset.notMem_zero x)
  · by_cases used : index ≤ queue.ladder.lowestRung
    · simp only [Ladder.Takes, not_and, not_le] at refused
      have anti := (valid.ladder.aligned unloaded).rCur_anti used (Nat.le_refl _)
      exact (refused unloaded).le.trans
        (anti.trans ((ordered.timed unloaded).above index used x member))
    · rw [Ladder.held_of_unloaded sound (sound.unused index (by omega))] at member
      exact absurd member (Multiset.notMem_zero x)

theorem Ordered.down_le (down : queue.ToBottom entry.arrival) {stage : Nat} (positive : 0 < stage) {x : Entry}
    (member : x ∈ queue.stages stage) : entry.arrival ≤ x.arrival := by
  rcases down.2 with inside | refused
  · by_cases filled : queue.bottom.list = []
    · have last : entry.arrival ≤ queue.bottom.lastEvent := by
        simpa [InBottom, Bottom.getMaxTS, filled] using inside.1
      by_cases bound : stage < maxRungs + 2
      · exact last.trans (ordered.future x (mem_held.mpr ⟨stage, bound, member⟩))
      · rw [stages_beyond queue (by omega)] at member
        exact absurd member (Multiset.notMem_zero x)
    · obtain ⟨y, inBottom, greatest⟩ := Bottom.getMax_mem filled
      have order := ordered.stages 0 stage positive y inBottom x member
      exact inside.1.trans (greatest.ge.trans order)
  · by_cases rung : stage ≤ maxRungs
    · have same : maxRungs - (maxRungs - stage) = stage := by omega
      rw [← same, stages_rung queue (by omega)] at member
      exact ordered.refused_le valid refused member
    · by_cases top : stage = maxRungs + 1
      · rw [top, stages_top] at member
        exact down.1.le.trans (valid.late x member)
      · rw [stages_beyond queue (by omega)] at member
        exact absurd member (Multiset.notMem_zero x)

theorem Ordered.before_entry (undisturbed : queue.Undisturbed entry.arrival) {stage : Nat}
    (earlier : stage < queue.stageOf entry.arrival) {y : Entry} (member : y ∈ queue.stages stage) :
    y.arrival ≤ entry.arrival := by
  have sound := valid.ladder.sound
  by_cases late : queue.top.getTopStart ≤ entry.arrival
  · rw [stageOf_of_late late] at earlier
    exact (ordered.early stage (by omega) y member).trans late
  · have soon : entry.arrival < queue.top.getTopStart := not_le.mp late
    by_cases down : queue.ToBottom entry.arrival
    · rw [stageOf_of_down down] at earlier
      omega
    · have outside : ¬ queue.InBottom entry.arrival := fun inside => down ⟨soon, .inl inside⟩
      have takes : queue.ladder.Takes entry.arrival := by
        by_contra refused
        exact down ⟨soon, .inr refused⟩
      obtain ⟨used, _, _⟩ := Ladder.place_spec takes.2
      have inside := rung_bound sound used
      rw [stageOf_of_ladder soon outside takes] at earlier
      by_cases bottom : stage = 0
      · rw [bottom, stages_bottom] at member
        have filled : queue.bottom.list ≠ [] := List.ne_nil_of_mem member
        have least := undisturbed.1 soon takes filled
        have above : queue.bottom.getMaxTS < entry.arrival := by
          by_contra below
          exact outside ⟨not_lt.mp below, least⟩
        exact (Bottom.le_getMax valid.sorted member).trans above.le
      · have same : maxRungs - (maxRungs - stage) = stage := by omega
        rw [← same, stages_rung queue (by omega)] at member
        by_cases last : queue.ladder.place entry.arrival = queue.ladder.lowestRung
        · rw [Ladder.held_of_unloaded sound (sound.unused _ (by omega))] at member
          exact absurd member (Multiset.notMem_zero y)
        · exact ((ordered.timed takes.1).below _ (by omega) _ (by omega) y member).trans
            (Ladder.place_spec takes.2).2.1

theorem Ordered.after_entry {stage : Nat}
    (later : queue.stageOf entry.arrival < stage) {y : Entry} (member : y ∈ queue.stages stage) :
    entry.arrival ≤ y.arrival := by
  by_cases late : queue.top.getTopStart ≤ entry.arrival
  · rw [stageOf_of_late late] at later
    rw [stages_beyond queue later] at member
    exact absurd member (Multiset.notMem_zero y)
  · have soon : entry.arrival < queue.top.getTopStart := not_le.mp late
    by_cases down : queue.ToBottom entry.arrival
    · rw [stageOf_of_down down] at later
      exact ordered.down_le valid down later member
    · have outside : ¬ queue.InBottom entry.arrival := fun inside => down ⟨soon, .inl inside⟩
      have takes : queue.ladder.Takes entry.arrival := by
        by_contra refused
        exact down ⟨soon, .inr refused⟩
      obtain ⟨used, _, refused⟩ := Ladder.place_spec takes.2
      have inside := rung_bound valid.ladder.sound used
      rw [stageOf_of_ladder soon outside takes] at later
      by_cases rung : stage ≤ maxRungs
      · have same : maxRungs - (maxRungs - stage) = stage := by omega
        rw [← same, stages_rung queue (by omega)] at member
        exact (refused _ (by omega)).le.trans
          ((ordered.timed takes.1).above _ (by omega) y member)
      · by_cases top : stage = maxRungs + 1
        · rw [top, stages_top] at member
          exact soon.le.trans (valid.late y member)
        · rw [stages_beyond queue (by omega)] at member
          exact absurd member (Multiset.notMem_zero y)

end Push

theorem Pushed.lastEvent {queue next : LadderQueue} {entry : Entry}
    (pushed : Pushed queue entry next) : next.bottom.lastEvent = queue.bottom.lastEvent := by
  cases pushed with
  | top late => rfl
  | ladder early outside takes => rfl
  | bottom down fresh => rfl
  | epoch down fresh unloaded bottom inserted => rw [inserted]
  | back down fresh loaded room full => rfl

def Early (queue : LadderQueue) : Prop :=
  ∀ stage ≤ maxRungs, ∀ x ∈ queue.stages stage, x.arrival ≤ queue.top.topStart

theorem Pushed.early {queue next : LadderQueue} {entry : Entry} (valid : queue.Valid)
    (early : queue.Early) (pushed : Pushed queue entry next) : next.Early := by
  intro stage rung x member
  rw [pushed.topStart]
  have entered : ∀ query ≤ maxRungs,
      x ∈ Stages.insert queue.stages (queue.stageOf entry.arrival) entry query →
        x.arrival ≤ queue.top.topStart := by
    intro query bound inside
    rcases Stages.mem_insert.mp inside with ⟨same, rfl⟩ | old
    · by_contra after
      rw [stageOf_of_late (not_le.mp after).le] at same
      omega
    · exact early query bound x old
  rcases pushed.stages valid with inserted | ⟨first, target, overflow, moved⟩
  · rw [inserted] at member
    exact entered stage rung member
  · have place : 0 ≠ target := by
      rcases overflow with ⟨_, rfl⟩ | ⟨_, room, rfl⟩
      · decide
      · omega
    rw [moved, Stages.mem_move place] at member
    rw [first] at entered
    rcases member with ⟨_, inside⟩ | ⟨_, inside⟩
    · exact entered 0 (Nat.zero_le _) inside
    · exact entered stage rung inside

theorem Pushed.timed {queue next : LadderQueue} {entry : Entry} (valid : queue.Valid)
    (ordered : queue.Ordered) (undisturbed : queue.Undisturbed entry.arrival)
    (pushed : Pushed queue entry next) (loaded : next.ladder.nbc ≠ 0) : next.ladder.Timed := by
  cases pushed with
  | top late => exact ordered.timed loaded
  | ladder early outside takes => exact (ordered.timed takes.1).push valid.ladder takes
  | bottom down fresh => exact ordered.timed loaded
  | epoch down fresh unloaded bottom inserted =>
      have sorted : Bottom.Sorted bottom.list := by
        rw [inserted]
        exact Bottom.inserted_sorted entry valid.sorted
      exact Ladder.Timed.epoch valid.ladder.sound unloaded _ _ _
        fun x member => Bottom.getMin_le sorted member
  | back down fresh before room full =>
      have range := undisturbed.2 down full before room
      apply (ordered.timed before).pushedBack valid.ladder before room
      intro x member
      apply range
      rw [(Bottom.inserted_perm entry valid.sorted).mem_iff, List.mem_cons] at member
      rcases member with rfl | old
      · exact List.mem_cons_self
      · exact List.mem_cons_of_mem _ (List.mem_map_of_mem old)

theorem Pushed.ordered {queue next : LadderQueue} {entry : Entry} (valid : queue.Valid)
    (ordered : queue.Ordered) (fresh : queue.bottom.lastEvent ≤ entry.arrival)
    (undisturbed : queue.Undisturbed entry.arrival) (pushed : Pushed queue entry next) :
    next.Ordered where
  stages := pushed.inOrder valid ordered.stages
    (fun _ earlier _ member => ordered.before_entry valid undisturbed earlier member)
    (fun _ later _ member => ordered.after_entry valid later member)
  timed := pushed.timed valid ordered undisturbed
  early := pushed.early valid ordered.early
  future := fun x member => by
    rw [pushed.held valid, Multiset.mem_cons] at member
    rw [pushed.lastEvent]
    rcases member with rfl | old
    · exact fresh
    · exact ordered.future x old

/-! Dequeues. -/

/-- A new epoch starts the top behind everything in it, and the first rung takes all of it. -/
theorem Served.early {queue middle : LadderQueue} (valid : queue.Valid) (early : queue.Early)
    (served : Served queue middle) :
    middle.Early ∧ queue.top.topStart ≤ middle.top.topStart := by
  cases served with
  | bottom filled => exact ⟨early, le_refl _⟩
  | @ladder list next index drained loaded delisted =>
      refine ⟨?_, le_refl _⟩
      intro stage rung x member
      rw [stages_delisted valid drained delisted, Stages.mem_move] at member
      · rcases member with ⟨_, inside⟩ | ⟨_, inside⟩
        · exact early _ (Nat.sub_le _ _) x inside
        · exact early stage rung x inside
      · have inside := rung_bound valid.ladder.sound delisted.used
        omega
  | @top list next index drained unloaded filled delisted =>
      obtain ⟨taken, _, blank⟩ := delisted.epoch valid.ladder.sound unloaded
      have order := valid.ranged.order filled
      have wide : queue.top.maxTS ≤ queue.top.delist.2.topStart := by
        simp only [Top.delist]
        split
        · have positive : (0 : ℚ) ≤ (queue.top.maxTS - queue.top.minTS) / queue.top.fifo.length :=
            div_nonneg (by linarith) (Nat.cast_nonneg _)
          linarith
        · linarith
      obtain ⟨earliest, inTop⟩ := List.exists_mem_of_ne_nil _ filled
      refine ⟨?_, (valid.late earliest inTop).trans ((valid.ranged.covers _ inTop).2.trans wide)⟩
      intro stage rung x member
      by_cases bottom : stage = 0
      · rw [bottom, stages_bottom] at member
        have inTop : x ∈ queue.top.fifo := ((sortEntries_perm list).trans taken).mem_iff.mp member
        exact (valid.ranged.covers x inTop).2.trans wide
      · have same : maxRungs - (maxRungs - stage) = stage := by omega
        rw [← same, stages_rung _ (by omega)] at member
        change x ∈ next.held _ at member
        rw [blank] at member
        exact absurd member (Multiset.notMem_zero x)

theorem Served.ordered {queue middle : LadderQueue} (valid : queue.Valid)
    (ordered : queue.Ordered) (served : Served queue middle) : middle.Ordered := by
  have stages := served.inOrder valid ordered.stages
  have held := served.held valid
  have early := (served.early valid ordered.early).1
  cases served with
  | bottom filled => exact ordered
  | @ladder list next index drained loaded delisted =>
      refine ⟨stages, fun _ => delisted.timed (ordered.timed loaded), early, ?_⟩
      intro x member
      rw [held] at member
      exact ordered.future x member
  | @top list next index drained unloaded filled delisted =>
      obtain ⟨_, emptied, _⟩ := delisted.epoch valid.ladder.sound unloaded
      refine ⟨stages, fun loaded => absurd emptied loaded, early, ?_⟩
      intro x member
      rw [held] at member
      exact ordered.future x member

theorem Ordered.first_le {queue : LadderQueue} (valid : queue.Valid) (ordered : queue.Ordered)
    {first : Entry} {rest : List Entry} (list : queue.bottom.list = first :: rest) {x : Entry}
    (member : x ∈ queue.held) : first.arrival ≤ x.arrival := by
  rw [← popped_held list, Multiset.mem_cons] at member
  rcases member with rfl | left
  · exact le_refl _
  · rcases mem_popped left with inside | ⟨stage, positive, inside⟩
    · have sorted := valid.sorted
      rw [list] at sorted
      exact (List.pairwise_cons.mp sorted).1 x inside
    · apply ordered.stages 0 stage positive first _ x inside
      rw [stages_bottom, list]
      exact Multiset.mem_cons_self first rest

theorem Ordered.popped {queue : LadderQueue} (valid : queue.Valid) (ordered : queue.Ordered)
    {first : Entry} {rest : List Entry} (list : queue.bottom.list = first :: rest) :
    (queue.popped first rest).Ordered where
  stages := ordered.stages.mono (popped_subset list)
  timed := ordered.timed
  early := fun stage rung x member => ordered.early stage rung x (popped_subset list stage member)
  future := fun x member => by
    apply ordered.first_le valid list
    rw [← popped_held list]
    exact Multiset.mem_cons_of_mem member

end LadderQueue

end RlAqs
