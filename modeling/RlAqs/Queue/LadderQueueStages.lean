import RlAqs.Queue.LadderQueueCases

/-!
The queue as a staged container: the bottom is served first, then the rungs from
the deepest to the first, then the top. A push is an insertion into one stage, at
times followed by a move of the whole bottom; a dequeue moves one stage to the
bottom and takes its first entry.
-/

namespace RlAqs

namespace LadderQueue

open Ladder (maxRungs)

def held (queue : LadderQueue) : Multiset Entry :=
  queue.top.fifo + ∑ index ∈ Finset.range maxRungs, queue.ladder.held index + queue.bottom.list

def stages (queue : LadderQueue) (stage : Nat) : Multiset Entry :=
  if stage = 0 then queue.bottom.list
  else if stage ≤ maxRungs then queue.ladder.held (maxRungs - stage)
  else if stage = maxRungs + 1 then queue.top.fifo
  else 0

@[simp] theorem stages_bottom (queue : LadderQueue) : queue.stages 0 = queue.bottom.list := rfl

@[simp] theorem stages_top (queue : LadderQueue) :
    queue.stages (maxRungs + 1) = queue.top.fifo := rfl

theorem stages_rung (queue : LadderQueue) {index : Nat} (inside : index < maxRungs) :
    queue.stages (maxRungs - index) = queue.ladder.held index := by
  have positive : maxRungs - index ≠ 0 := by omega
  have back : maxRungs - (maxRungs - index) = index := by omega
  simp only [stages, positive, Nat.sub_le, back, ↓reduceIte]

theorem total_stages (queue : LadderQueue) :
    Stages.total (maxRungs + 2) queue.stages = queue.held := by
  simp only [Stages.total, held, maxRungs, Finset.sum_range_succ, Finset.sum_range_zero, stages]
  simp only [reduceIte, Nat.reduceAdd, Nat.reduceLeDiff, Nat.reduceSub,
    Nat.reduceEqDiff, OfNat.ofNat_ne_zero, one_ne_zero]
  abel

theorem stages_ext {left right : Nat → Multiset Entry} (bottom : left 0 = right 0)
    (rungs : ∀ index < maxRungs, left (maxRungs - index) = right (maxRungs - index))
    (top : left (maxRungs + 1) = right (maxRungs + 1))
    (beyond : ∀ stage > maxRungs + 1, left stage = right stage) : left = right := by
  funext stage
  by_cases first : stage = 0
  · rw [first, bottom]
  · by_cases rung : stage ≤ maxRungs
    · have same : maxRungs - (maxRungs - stage) = stage := by omega
      rw [← same]
      exact rungs _ (by omega)
    · by_cases last : stage = maxRungs + 1
      · rw [last, top]
      · exact beyond stage (by omega)

theorem stages_beyond (queue : LadderQueue) {stage : Nat} (beyond : stage > maxRungs + 1) :
    queue.stages stage = 0 := by
  have outside : ¬ stage ≤ maxRungs := by omega
  have notFirst : stage ≠ 0 := by omega
  have notTop : stage ≠ maxRungs + 1 := by omega
  simp only [stages, notFirst, outside, notTop, ↓reduceIte]

theorem stages_of_bottom (queue : LadderQueue) (bottom : Bottom) :
    { queue with bottom := bottom }.stages =
      Function.update queue.stages 0 (bottom.list : Multiset Entry) := by
  apply stages_ext
  · rw [Function.update_self]
    rfl
  · intro index inside
    rw [Function.update_of_ne (by omega), stages_rung _ inside, stages_rung _ inside]
  · rw [Function.update_of_ne (by omega)]
    rfl
  · intro stage beyond
    rw [Function.update_of_ne (by omega), stages_beyond _ beyond, stages_beyond _ beyond]

theorem stages_of_ladder (queue : LadderQueue) (ladder : Ladder) {index : Nat}
    {content : Multiset Entry} (inside : index < maxRungs)
    (held : ladder.held = Function.update queue.ladder.held index content) :
    { queue with ladder := ladder }.stages =
      Function.update queue.stages (maxRungs - index) content := by
  apply stages_ext
  · rw [Function.update_of_ne (by omega)]
    rfl
  · intro query bound
    rw [stages_rung _ bound]
    change ladder.held query = _
    rw [held]
    by_cases same : query = index
    · rw [same, Function.update_self, Function.update_self]
    · rw [Function.update_of_ne same, Function.update_of_ne (by omega), stages_rung _ bound]
  · rw [Function.update_of_ne (by omega)]
    rfl
  · intro stage beyond
    rw [Function.update_of_ne (by omega), stages_beyond _ beyond, stages_beyond _ beyond]

theorem stages_of_top (queue : LadderQueue) (top : Top) :
    { queue with top := top }.stages =
      Function.update queue.stages (maxRungs + 1) (top.fifo : Multiset Entry) := by
  apply stages_ext
  · rw [Function.update_of_ne (by omega)]
    rfl
  · intro index inside
    rw [Function.update_of_ne (by omega), stages_rung _ inside, stages_rung _ inside]
  · rw [Function.update_self]
    rfl
  · intro stage beyond
    rw [Function.update_of_ne (by omega), stages_beyond _ beyond, stages_beyond _ beyond]

theorem rung_bound {ladder : Ladder} (sound : ladder.Sound) {index : Nat}
    (used : index ≤ ladder.lowestRung) : index < maxRungs :=
  Nat.lt_of_le_of_lt used (Nat.lt_of_lt_of_le sound.lowest sound.rungs)

/-! The stages and a push. -/

def stageOf (queue : LadderQueue) (ts : ℚ) : Nat :=
  if ts ≥ queue.top.getTopStart then maxRungs + 1
  else if ts ≤ queue.bottom.getMaxTS ∧ ts ≥ queue.bottom.getMinTS then 0
  else if queue.ladder.Takes ts then maxRungs - queue.ladder.place ts
  else 0

theorem stageOf_of_late {queue : LadderQueue} {ts : ℚ} (late : queue.top.getTopStart ≤ ts) :
    queue.stageOf ts = maxRungs + 1 := by
  simp only [stageOf, ge_iff_le, late, ↓reduceIte]

theorem stageOf_of_ladder {queue : LadderQueue} {ts : ℚ} (early : ts < queue.top.getTopStart)
    (outside : ¬ queue.InBottom ts) (takes : queue.ladder.Takes ts) :
    queue.stageOf ts = maxRungs - queue.ladder.place ts := by
  simp only [InBottom] at outside
  simp only [stageOf, ge_iff_le, not_le.mpr early, outside, takes, ↓reduceIte]

theorem stageOf_of_down {queue : LadderQueue} {ts : ℚ} (down : queue.ToBottom ts) :
    queue.stageOf ts = 0 := by
  have late : ¬ ts ≥ queue.top.getTopStart := not_le.mpr down.1
  simp only [stageOf, late, ↓reduceIte]
  split
  · rfl
  · rename_i outside
    have refused : ¬ queue.ladder.Takes ts := down.2.resolve_left outside
    simp only [refused, ↓reduceIte]

/-- Whether an insertion into the bottom is followed by a move, and where to. -/
def Overflows (queue : LadderQueue) (target : Nat) : Prop :=
  (queue.ladder.nbc = 0 ∧ target = maxRungs) ∨
    (queue.ladder.nbc ≠ 0 ∧ queue.ladder.lowestRung < maxRungs - 1 ∧
      target = maxRungs - (queue.ladder.lowestRung + 1))

theorem update_insert (stages : Nat → Multiset Entry) (entry : Entry) (content : Multiset Entry)
    (index : Nat) (same : content = entry ::ₘ stages index) :
    Function.update stages index content = Stages.insert stages index entry := by
  rw [same]
  rfl

theorem Valid.stages_inserted {queue : LadderQueue} (valid : queue.Valid) (entry : Entry)
    (bottom : Bottom) (list : bottom.list = Bottom.inserted queue.bottom.list entry) :
    { queue with bottom := bottom }.stages = Stages.insert queue.stages 0 entry := by
  rw [stages_of_bottom]
  apply update_insert
  rw [list, Bottom.inserted_coe entry valid.sorted]
  rfl

theorem Valid.stages_unused {queue : LadderQueue} (valid : queue.Valid) {stage : Nat}
    (positive : 0 < stage) (below : stage < maxRungs - queue.ladder.lowestRung) :
    queue.stages stage = 0 := by
  have sound := valid.ladder.sound
  have same : maxRungs - (maxRungs - stage) = stage := by omega
  rw [← same, stages_rung queue (by omega)]
  exact Ladder.held_of_unloaded sound (sound.unused _ (by omega))

theorem Valid.stages_unloaded {queue : LadderQueue} (valid : queue.Valid)
    (unloaded : queue.ladder.nbc = 0) {stage : Nat} (positive : 0 < stage)
    (rung : stage ≤ maxRungs) : queue.stages stage = 0 := by
  have sound := valid.ladder.sound
  have same : maxRungs - (maxRungs - stage) = stage := by omega
  rw [← same, stages_rung queue (by omega)]
  exact Ladder.held_of_unloaded sound (sound.unloaded unloaded _)

theorem stages_moved (queue : LadderQueue) {next : LadderQueue} (index : Nat)
    (inside : index < maxRungs)
    (empty : queue.stages (maxRungs - index) = 0) (bottom : next.bottom.list = [])
    (top : next.top = queue.top)
    (held : next.ladder.held =
      Function.update queue.ladder.held index (queue.bottom.list : Multiset Entry)) :
    next.stages = Stages.move queue.stages 0 (maxRungs - index) := by
  have same : next = { queue with ladder := next.ladder, bottom := next.bottom } := by
    cases next
    simp_all
  rw [same, stages_of_bottom { queue with ladder := next.ladder } next.bottom,
    stages_of_ladder queue next.ladder inside held, bottom, Stages.move, empty, zero_add,
    Function.update_comm (by omega)]
  rfl

theorem Pushed.stages {queue next : LadderQueue} {entry : Entry} (valid : queue.Valid)
    (pushed : Pushed queue entry next) :
    next.stages = Stages.insert queue.stages (queue.stageOf entry.arrival) entry ∨
      (queue.stageOf entry.arrival = 0 ∧ ∃ target, queue.Overflows target ∧
        next.stages = Stages.move (Stages.insert queue.stages 0 entry) 0 target) := by
  have sound := valid.ladder.sound
  cases pushed with
  | top late =>
      left
      rw [stageOf_of_late late, stages_of_top]
      apply update_insert
      rw [(Top.push_fields queue.top entry).1, ← Multiset.coe_add, Multiset.coe_singleton, add_comm,
        Multiset.singleton_add]
      rfl
  | ladder early outside takes =>
      left
      have used := (Ladder.place_spec takes.2).1
      have inside := rung_bound sound used
      rw [stageOf_of_ladder early outside takes,
        stages_of_ladder queue _ inside (valid.ladder.push_held takes)]
      apply update_insert
      rw [stages_rung queue inside]
  | bottom down fresh =>
      left
      rw [stageOf_of_down down]
      exact valid.stages_inserted entry _ rfl
  | epoch down fresh unloaded bottom inserted =>
      right
      refine ⟨stageOf_of_down down, maxRungs, .inl ⟨unloaded, rfl⟩, ?_⟩
      have list : bottom.list = Bottom.inserted queue.bottom.list entry := by rw [inserted]
      rw [← valid.stages_inserted entry bottom list]
      have blank : queue.ladder.held = fun _ => 0 := by
        funext index
        exact Ladder.held_of_unloaded sound (sound.unloaded unloaded index)
      refine stages_moved { queue with bottom := bottom } 0 (by decide)
        ?_ rfl rfl ?_
      · rw [stages_of_bottom, Function.update_of_ne (by decide)]
        exact valid.stages_unloaded unloaded (by decide) (by decide)
      · rw [blank]
        exact sound.epoch_held unloaded _ _ _
  | back down fresh loaded room full =>
      right
      refine ⟨stageOf_of_down down, _, .inr ⟨loaded, room, rfl⟩, ?_⟩
      rw [← valid.stages_inserted entry
        { queue.bottom with list := Bottom.inserted queue.bottom.list entry } rfl]
      refine stages_moved
        { queue with
          bottom := { queue.bottom with list := Bottom.inserted queue.bottom.list entry } }
        (queue.ladder.lowestRung + 1) (by omega) ?_ rfl rfl ?_
      · rw [stages_of_bottom, Function.update_of_ne (by omega)]
        exact valid.stages_unused (by omega) (by omega)
      · exact sound.pushedBack_held _ room

theorem Pushed.topStart {queue next : LadderQueue} {entry : Entry}
    (pushed : Pushed queue entry next) : next.top.topStart = queue.top.topStart := by
  cases pushed with
  | top late => exact (Top.push_fields queue.top entry).2.1
  | ladder early outside takes => rfl
  | bottom down fresh => rfl
  | epoch down fresh unloaded bottom inserted => rfl
  | back down fresh loaded room full => rfl

theorem Pushed.late {queue next : LadderQueue} {entry : Entry} (valid : queue.Valid)
    (pushed : Pushed queue entry next) {x : Entry} (member : x ∈ next.top.fifo) :
    next.top.topStart ≤ x.arrival := by
  rw [pushed.topStart]
  cases pushed with
  | top late =>
      rw [(Top.push_fields queue.top entry).1, List.mem_append, List.mem_singleton] at member
      rcases member with old | rfl
      · exact valid.late x old
      · exact late
  | ladder early outside takes => exact valid.late x member
  | bottom down fresh => exact valid.late x member
  | epoch down fresh unloaded bottom inserted => exact valid.late x member
  | back down fresh loaded room full => exact valid.late x member

theorem Pushed.valid {queue next : LadderQueue} {entry : Entry} (valid : queue.Valid)
    (pushed : Pushed queue entry next) : next.Valid := by
  have sound := valid.ladder.sound
  have sorted := Bottom.inserted_sorted entry valid.sorted
  have late := fun x => pushed.late valid (x := x)
  cases pushed with
  | top reached => exact ⟨valid.ladder, valid.sorted, valid.ranged.push entry, late⟩
  | ladder early outside takes =>
      exact ⟨valid.ladder.push_valid takes, valid.sorted, valid.ranged, late⟩
  | bottom down fresh => exact ⟨valid.ladder, sorted, valid.ranged, late⟩
  | epoch down fresh unloaded bottom inserted =>
      subst inserted
      exact ⟨sound.epoch_valid unloaded _ _ _ (Bottom.getMin_le_getMax sorted)
        (inserted_ne_nil entry valid.sorted), List.Pairwise.nil, valid.ranged, late⟩
  | back down fresh loaded room full =>
      exact ⟨valid.ladder.pushedBack _ loaded room, List.Pairwise.nil, valid.ranged, late⟩

/-! The stages and a dequeue. -/

theorem stages_delisted {queue : LadderQueue} (valid : queue.Valid) {next : Ladder}
    {list : List Entry} {index : Nat} (drained : queue.bottom.list = [])
    (delisted : queue.ladder.Delisted next list index) :
    { queue with ladder := next, bottom := { queue.bottom with list := sortEntries list } }.stages =
      Stages.move queue.stages (maxRungs - index) 0 := by
  have inside := rung_bound valid.ladder.sound delisted.used
  have content : (sortEntries list : Multiset Entry) = queue.stages (maxRungs - index) := by
    rw [stages_rung queue inside, ← delisted.content]
    exact Multiset.coe_eq_coe.mpr (sortEntries_perm list)
  rw [stages_of_bottom { queue with ladder := next }, stages_of_ladder queue next inside
    delisted.held, Stages.move, stages_bottom, drained, ← content]
  rfl

/-- What the service before a dequeue does: one stage moves over empty ones to the bottom. -/
theorem Served.stages {queue middle : LadderQueue} (valid : queue.Valid)
    (served : Served queue middle) :
    middle.stages = queue.stages ∨
      ∃ stage, 0 < stage ∧ stage < maxRungs + 2 ∧ (∀ earlier < stage, queue.stages earlier = 0) ∧
        middle.stages = Stages.move queue.stages stage 0 := by
  have sound := valid.ladder.sound
  cases served with
  | bottom filled => exact .inl rfl
  | @ladder list next index drained loaded delisted =>
      right
      have inside := rung_bound sound delisted.used
      refine ⟨maxRungs - index, by omega, by omega, ?_, stages_delisted valid drained delisted⟩
      intro earlier less
      by_cases first : earlier = 0
      · rw [first, stages_bottom, drained]
        rfl
      · have same : maxRungs - (maxRungs - earlier) = earlier := by omega
        rw [← same, stages_rung queue (by omega)]
        exact delisted.deeper _ (by omega)
  | @top list next index drained unloaded filled delisted =>
      right
      refine ⟨maxRungs + 1, by omega, by omega, ?_, ?_⟩
      · intro earlier less
        by_cases first : earlier = 0
        · rw [first, stages_bottom, drained]
          rfl
        · exact valid.stages_unloaded unloaded (by omega) (by omega)
      · obtain ⟨taken, _, blank⟩ := delisted.epoch sound unloaded
        have perm : (sortEntries list : Multiset Entry) = queue.top.fifo :=
          Multiset.coe_eq_coe.mpr ((sortEntries_perm list).trans taken)
        apply stages_ext
        · rw [Stages.move, Function.update_self, stages_bottom, stages_bottom, stages_top, drained,
            perm]
          exact (zero_add _).symm
        · intro query bound
          rw [stages_rung _ bound, Stages.move, Function.update_of_ne (by omega),
            Function.update_of_ne (by omega), stages_rung _ bound,
            Ladder.held_of_unloaded sound (sound.unloaded unloaded query)]
          exact congrFun blank query
        · rw [Stages.move, Function.update_of_ne (by omega), Function.update_self]
          rfl
        · intro stage beyond
          rw [Stages.move, Function.update_of_ne (by omega), Function.update_of_ne (by omega),
            stages_beyond _ beyond, stages_beyond _ beyond]

theorem Served.valid {queue middle : LadderQueue} (valid : queue.Valid)
    (served : Served queue middle) : middle.Valid := by
  cases served with
  | bottom filled => exact valid
  | ladder drained loaded delisted =>
      exact ⟨delisted.valid, Bottom.sortEntries_timed _, valid.ranged, valid.late⟩
  | top drained unloaded filled delisted =>
      exact ⟨delisted.valid, Bottom.sortEntries_timed _,
        ⟨fun _ member => absurd member List.not_mem_nil⟩,
        fun _ member => absurd member List.not_mem_nil⟩

theorem popped_stages {queue : LadderQueue} {first : Entry} {rest : List Entry} :
    (queue.popped first rest).stages = Function.update queue.stages 0 (rest : Multiset Entry) :=
  stages_of_bottom queue { lastEvent := first.arrival, list := rest }

theorem Valid.popped {queue : LadderQueue} (valid : queue.Valid) {first : Entry}
    {rest : List Entry} (list : queue.bottom.list = first :: rest) :
    (queue.popped first rest).Valid := by
  have sorted := valid.sorted
  rw [list] at sorted
  exact ⟨valid.ladder, (List.pairwise_cons.mp sorted).2, valid.ranged, valid.late⟩

/-! The whole content. -/

theorem Pushed.held {queue next : LadderQueue} {entry : Entry} (valid : queue.Valid)
    (pushed : Pushed queue entry next) : next.held = entry ::ₘ queue.held := by
  have bound : queue.stageOf entry.arrival < maxRungs + 2 := by
    simp only [stageOf]
    split
    · omega
    · split
      · omega
      · split <;> omega
  rw [← total_stages, ← total_stages]
  rcases pushed.stages valid with inserted | ⟨_, target, overflow, moved⟩
  · rw [inserted, Stages.total_insert _ _ _ _ bound]
  · have place : target < maxRungs + 2 ∧ 0 ≠ target := by
      rcases overflow with ⟨_, rfl⟩ | ⟨_, room, rfl⟩
      · decide
      · omega
    rw [moved, Stages.total_move _ _ _ _ (by omega) place.1 place.2,
      Stages.total_insert _ _ _ _ (by omega)]

theorem Served.held {queue middle : LadderQueue} (valid : queue.Valid)
    (served : Served queue middle) : middle.held = queue.held := by
  rw [← total_stages, ← total_stages]
  rcases served.stages valid with same | ⟨stage, positive, bound, _, moved⟩
  · rw [same]
  · rw [moved, Stages.total_move _ _ _ _ bound (by omega) (by omega)]

theorem popped_held {queue : LadderQueue} {first : Entry} {rest : List Entry}
    (list : queue.bottom.list = first :: rest) :
    first ::ₘ (queue.popped first rest).held = queue.held := by
  simp only [LadderQueue.held, popped, list, ← Multiset.cons_coe, Multiset.add_cons]

theorem Valid.size_eq {queue : LadderQueue} (valid : queue.Valid) :
    queue.size = queue.held.card := by
  have sound := valid.ladder.sound
  have counted : queue.ladder.nbc =
      ∑ index ∈ Finset.range maxRungs, (queue.ladder.held index).card := by
    rw [sound.counted]
    apply Finset.sum_congr rfl
    intro index _
    by_cases inside : index < queue.ladder.nRung
    · exact (sound.packed index inside).card_held.symm
    · have unloaded := queue.ladder.events_outside (Nat.not_lt.mp inside)
      rw [unloaded, Ladder.held_of_unloaded sound unloaded, Multiset.card_zero]
  simp only [size, held, Top.getNTop, Ladder.getNBC, Bottom.size, Multiset.card_add,
    Multiset.card_sum, counted, Multiset.coe_card]

/-! The order of the stages. -/

section Order

variable {R : Entry → Entry → Prop} {queue : LadderQueue}

theorem Pushed.inOrder {next : LadderQueue} {entry : Entry} (valid : queue.Valid)
    (pushed : Pushed queue entry next) (ordered : Stages.InOrder R queue.stages)
    (before : ∀ stage < queue.stageOf entry.arrival, ∀ y ∈ queue.stages stage, R y entry)
    (after : ∀ stage > queue.stageOf entry.arrival, ∀ y ∈ queue.stages stage, R entry y) :
    Stages.InOrder R next.stages := by
  have inserted := ordered.insert before after
  rcases pushed.stages valid with same | ⟨first, target, overflow, moved⟩
  · rwa [same]
  · rw [first] at inserted
    rw [moved]
    have place : 0 ≠ target := by
      rcases overflow with ⟨_, rfl⟩ | ⟨_, room, rfl⟩
      · decide
      · omega
    apply inserted.move place
    intro stage lower upper other
    rw [Nat.zero_min] at lower
    rw [Nat.zero_max] at upper
    rw [Stages.insert, Function.update_of_ne other]
    rcases overflow with ⟨unloaded, rfl⟩ | ⟨_, room, rfl⟩
    · exact valid.stages_unloaded unloaded (by omega) upper
    · exact valid.stages_unused (by omega) (by omega)

theorem Served.inOrder {middle : LadderQueue} (valid : queue.Valid)
    (served : Served queue middle) (ordered : Stages.InOrder R queue.stages) :
    Stages.InOrder R middle.stages := by
  rcases served.stages valid with same | ⟨stage, positive, _, empty, moved⟩
  · rwa [same]
  · rw [moved]
    apply ordered.move (by omega)
    intro earlier _ upper other
    rw [Nat.max_zero] at upper
    exact empty earlier (by omega)

theorem popped_subset {first : Entry} {rest : List Entry}
    (list : queue.bottom.list = first :: rest) (stage : Nat) :
    (queue.popped first rest).stages stage ⊆ queue.stages stage := by
  rw [popped_stages]
  by_cases bottom : stage = 0
  · rw [bottom, Function.update_self, stages_bottom, list]
    exact List.subset_cons_self first rest
  · rw [Function.update_of_ne bottom]
    exact fun _ member => member

theorem mem_held {x : Entry} : x ∈ queue.held ↔ ∃ stage < maxRungs + 2, x ∈ queue.stages stage := by
  rw [← total_stages, Stages.mem_total]

theorem mem_popped {first : Entry} {rest : List Entry} {x : Entry}
    (member : x ∈ (queue.popped first rest).held) :
    x ∈ rest ∨ ∃ stage > 0, x ∈ queue.stages stage := by
  obtain ⟨stage, _, inside⟩ := mem_held.mp member
  rw [popped_stages] at inside
  by_cases bottom : stage = 0
  · rw [bottom, Function.update_self] at inside
    exact .inl inside
  · rw [Function.update_of_ne bottom] at inside
    exact .inr ⟨stage, by omega, inside⟩

end Order

end LadderQueue

end RlAqs
