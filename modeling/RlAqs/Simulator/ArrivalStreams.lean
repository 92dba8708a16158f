import RlAqs.Simulator.ServersMatch
import Mathlib.Algebra.BigOperators.Group.Finset.Basic
import Mathlib.Algebra.Order.BigOperators.Group.Finset

/-!
The external arrivals when each vertex draws its interarrival times from a stream of its
own, as with `m_arrivalRngs`. The arrivals at a vertex are then the partial sums of its
stream, whatever the policy selects and however long services take.
-/

namespace RlAqs

open Handlers EventGenerator

def ofType (type : Int) (entries : List Entry) : List Entry :=
  entries.filter fun entry => entry.type = type

section ofType

variable {type : Int} {entry : Entry} {entries : List Entry}

theorem mem_ofType : entry ∈ ofType type entries ↔ entry ∈ entries ∧ entry.type = type := by
  simp [ofType]

theorem ofType_append (first second : List Entry) :
    ofType type (first ++ second) = ofType type first ++ ofType type second := by
  simp [ofType]

theorem ofType_erase :
    ofType type (entries.erase entry) = (ofType type entries).erase entry :=
  List.erase_filter.symm

theorem ofType_none (none : ∀ entry ∈ entries, entry.type ≠ type) : ofType type entries = [] := by
  simpa [ofType, List.filter_eq_nil_iff] using none

theorem ofType_erase_of_ne (other : entry.type ≠ type) :
    ofType type (entries.erase entry) = ofType type entries := by
  rw [ofType_erase]
  exact List.erase_of_not_mem fun member => other (mem_ofType.mp member).2

theorem ofType_perm {others : List Entry} (perm : others.Perm entries)
    {only : List Entry} (few : only.length ≤ 1) (listed : ofType type entries = only) :
    ofType type others = only := by
  have same : (ofType type others).Perm only := listed ▸ perm.filter _
  cases only with
  | nil => exact List.perm_nil.mp same
  | cons first rest =>
      obtain rfl : rest = [] := List.eq_nil_of_length_eq_zero (Nat.le_zero.mp (Nat.le_of_succ_le_succ few))
      exact List.perm_singleton.mp same

end ofType

namespace Processor

variable {graph : Graph} {config : Config} {processor next : Processor} {choice : Choice}
  {stream : Nat → Nat → ℚ≥0} {vertex : Int}

def externals (vertex : Int) (entries : List Entry) : List Entry :=
  entries.filter fun entry => entry.type = lastArrivalEvent ∧ entry.destination = vertex

def externalTimes (vertex : Int) (processed : List Record) : List ℚ :=
  ((externals vertex (processed.map Record.entry)).map Entry.arrival).reverse

def drawn (vertex : Int) (processor : Processor) : Nat :=
  (externals vertex processor.pending).length + (externalTimes vertex processor.processed).length

/-- The interarrival times of a turn are the next ones of the streams. -/
def Streamed (graph : Graph) (stream : Nat → Nat → ℚ≥0) (processor : Processor)
    (choice : Choice) : Prop :=
  ∀ vertex < graph.size, choice.gap vertex = stream vertex (processor.drawn vertex)

instance (graph : Graph) (stream : Nat → Nat → ℚ≥0) (processor : Processor) (choice : Choice) :
    Decidable (Streamed graph stream processor choice) :=
  inferInstanceAs (Decidable (∀ _ < _, _))

def streamTime (gaps : Nat → ℚ≥0) (index : Nat) : ℚ :=
  ∑ earlier ∈ Finset.range (index + 1), (gaps earlier : ℚ)

theorem streamTime_succ (gaps : Nat → ℚ≥0) (index : Nat) :
    streamTime gaps (index + 1) = streamTime gaps index + gaps (index + 1) :=
  Finset.sum_range_succ _ _

theorem streamTime_mono (gaps : Nat → ℚ≥0) : Monotone (streamTime gaps) := by
  refine monotone_nat_of_le_succ fun index => ?_
  rw [streamTime_succ]
  exact le_add_of_nonneg_right (gaps (index + 1)).coe_nonneg

/-! The external arrivals of a list. -/

section lists

variable {entry : Entry} {entries : List Entry}

theorem mem_externals : entry ∈ externals vertex entries ↔
    entry ∈ entries ∧ entry.type = lastArrivalEvent ∧ entry.destination = vertex := by
  simp [externals]

theorem externals_append (first second : List Entry) :
    externals vertex (first ++ second) = externals vertex first ++ externals vertex second := by
  simp [externals]

theorem externals_erase :
    externals vertex (entries.erase entry) = (externals vertex entries).erase entry :=
  List.erase_filter.symm

theorem externals_none
    (none : ∀ entry ∈ entries, ¬ (entry.type = lastArrivalEvent ∧ entry.destination = vertex)) :
    externals vertex entries = [] := by
  simpa [externals, List.filter_eq_nil_iff] using none

theorem externals_erase_of_ne
    (other : ¬ (entry.type = lastArrivalEvent ∧ entry.destination = vertex)) :
    externals vertex (entries.erase entry) = externals vertex entries := by
  rw [externals_erase]
  exact List.erase_of_not_mem fun member => other (mem_externals.mp member).2

theorem externalTimes_cons_external {record : Record} {processed : List Record}
    (external : record.entry.type = lastArrivalEvent ∧ record.entry.destination = vertex) :
    externalTimes vertex (record :: processed) =
      externalTimes vertex processed ++ [record.entry.arrival] := by
  simp [externalTimes, externals, external]

theorem externalTimes_cons_other {record : Record} {processed : List Record}
    (other : ¬ (record.entry.type = lastArrivalEvent ∧ record.entry.destination = vertex)) :
    externalTimes vertex (record :: processed) = externalTimes vertex processed := by
  simp [externalTimes, externals, other]

end lists

/-! What a turn does to the external arrivals. -/

def firstArrivals (graph : Graph) (processor : Processor) (choice : Choice) : List Entry :=
  (List.range graph.size).map fun vertex =>
    generateArrival (processor.uid + vertex) vertex choice.entry.arrival (choice.gap vertex)

inductive FeedTurn (graph : Graph) (config : Config) (processor : Processor) (choice : Choice)
    (next : Processor) : Prop
  | putBack (pending : next.pending.Perm processor.pending)
      (processed : next.processed = processor.processed)
      (late : next.stopped = true → config.stopTime < choice.entry.arrival)
  | handled (pushed : List Entry) (origin : choice.entry.origin ≠ adminEvent)
      (inTime : choice.entry.arrival ≤ config.stopTime)
      (pending : next.pending = processor.pending.erase choice.entry ++ pushed)
      (processed : next.processed =
        ⟨choice.entry, choice.serviceTime, pushed⟩ :: processor.processed)
      (stopped : next.stopped = false)
      (fed : ∀ vertex, externals vertex pushed =
        if choice.entry.type = lastArrivalEvent ∧ choice.entry.destination = vertex then
          [generateArrivalsHandler processor.uid choice.entry (choice.gap choice.entry.destination)]
        else [])
      (ungenerated : ofType generateArrivalEvent pushed = [])
  | admin (pushed : List Entry) (type : choice.entry.type ≠ lastArrivalEvent)
      (other : choice.entry.type ≠ generateArrivalEvent)
      (pending : next.pending = processor.pending.erase choice.entry ++ pushed)
      (processed : next.processed = processor.processed) (stopped : next.stopped = false)
      (unfed : ∀ vertex, externals vertex pushed = []) (ungenerated : ofType generateArrivalEvent pushed = [])
  | generate (type : choice.entry.type = generateArrivalEvent)
      (pending : next.pending =
        processor.pending.erase choice.entry ++ firstArrivals graph processor choice)
      (processed : next.processed = processor.processed) (stopped : next.stopped = false)

theorem unfed_of_types {pushed : List Entry}
    (types : ∀ entry ∈ pushed, entry.type ≠ lastArrivalEvent ∧ entry.type ≠ generateArrivalEvent) :
    (∀ vertex, externals vertex pushed = []) ∧ ofType generateArrivalEvent pushed = [] :=
  ⟨fun _ => externals_none fun entry member external => (types entry member).1 external.1,
    ofType_none fun entry member => (types entry member).2⟩

theorem admin_generate (type : choice.entry.type = generateArrivalEvent) :
    processor.admin graph config choice.entry choice.gap =
      processor.push (firstArrivals graph processor choice) := by
  simp [admin, serialiseArrivalsHandler, generateArrivalsAdminHandler, logGraphHandler,
    rollingSystemStatsAdminHandler, type, firstArrivals]

theorem admin_feed (running : processor.stopped = false)
    (type : choice.entry.type ≠ lastArrivalEvent) :
    FeedTurn graph config processor choice
      ((processor.dequeue choice).admin graph config choice.entry choice.gap) := by
  by_cases generates : choice.entry.type = generateArrivalEvent
  · rw [admin_generate generates]
    exact .generate generates rfl rfl running
  have single (time : ℚ) (kind : Int) (low : kind ≠ lastArrivalEvent)
      (ungenerated : kind ≠ generateArrivalEvent) (uid : Nat) :
      (∀ vertex, externals vertex [generateAdminEventType uid time kind] = []) ∧
        ofType generateArrivalEvent [generateAdminEventType uid time kind] = [] := by
    refine unfed_of_types fun entry member => ?_
    rw [List.mem_singleton.mp member]
    exact ⟨low, ungenerated⟩
  have turn := admin_cases graph config (processor.dequeue choice) choice.entry choice.gap
  revert turn
  generalize (processor.dequeue choice).admin graph config choice.entry choice.gap = next
  intro turn
  cases turn with
  | serialise _ _ =>
      exact .admin _ type generates rfl rfl running
        (single _ serialiseArrivalEvent (by decide) (by decide) _).1
        (single _ serialiseArrivalEvent (by decide) (by decide) _).2
  | generate type => exact absurd type generates
  | log _ =>
      exact .admin [] type generates (List.append_nil _).symm rfl running (fun _ => rfl) rfl
  | logAgain _ =>
      exact .admin _ type generates rfl rfl running
        (single _ logGraphEvent (by decide) (by decide) _).1
        (single _ logGraphEvent (by decide) (by decide) _).2
  | observe _ =>
      exact .admin _ type generates rfl rfl running
        (single _ systemStatisticsEvent (by decide) (by decide) _).1
        (single _ systemStatisticsEvent (by decide) (by decide) _).2
  | idle =>
      exact .admin [] type generates (List.append_nil _).symm rfl running (fun _ => rfl) rfl

theorem arrival_feed (processor : Processor) (choice : Choice) :
    (∀ vertex, externals vertex (processor.generated choice.entry choice.gap ++
        [(processor.arrived choice.entry choice).2]) =
      if choice.entry.type = lastArrivalEvent ∧ choice.entry.destination = vertex then
        [generateArrivalsHandler processor.uid choice.entry (choice.gap choice.entry.destination)]
      else []) ∧
    ofType generateArrivalEvent (processor.generated choice.entry choice.gap ++
      [(processor.arrived choice.entry choice).2]) = [] := by
  have departs : (processor.arrived choice.entry choice).2.type = departureEvent :=
    arrived_type processor choice.entry choice
  have quiet := @unfed_of_types [(processor.arrived choice.entry choice).2]
    fun entry member => by
      rw [List.mem_singleton.mp member, departs]
      decide
  refine ⟨fun vertex => ?_, ?_⟩
  · rw [externals_append, quiet.1, List.append_nil]
    unfold generated
    by_cases external : choice.entry.type = lastArrivalEvent
    · by_cases here : choice.entry.destination = vertex
      · simp [external, here, externals, generateArrivalsHandler, generateArrival, Entry.new]
      · simp [external, here, externals, generateArrivalsHandler, generateArrival, Entry.new]
    · simp [external, externals]
  · rw [ofType_append, quiet.2, List.append_nil]
    refine ofType_none fun entry member => ?_
    rw [(mem_generated processor choice.entry member).2]
    simp [generateArrivalsHandler, generateArrival, Entry.new]

theorem feed_cases (begun : 0 ≤ config.stopTime) (consistent : Consistent config processor)
    (stepped : Processor.step graph config processor choice = some next) :
    FeedTurn graph config processor choice next := by
  obtain ⟨dequeued, turn⟩ := step_cases stepped
  have inHand : processor.take choice.entry = choice.entry :=
    take_eq ((consistent.timed begun).future choice.entry dequeued.member)
  have back : (choice.entry :: processor.pending.erase choice.entry).Perm processor.pending :=
    (List.perm_cons_erase dequeued.member).symm
  have quiet (pushed : List Entry) (low : choice.entry.type ≠ lastArrivalEvent)
      (types : ∀ entry ∈ pushed,
        entry.type ≠ lastArrivalEvent ∧ entry.type ≠ generateArrivalEvent) :
      (∀ vertex, externals vertex pushed =
        if choice.entry.type = lastArrivalEvent ∧ choice.entry.destination = vertex then
          [generateArrivalsHandler processor.uid choice.entry
            (choice.gap choice.entry.destination)]
        else []) ∧ ofType generateArrivalEvent pushed = [] := by
    have unfed := unfed_of_types types
    refine ⟨fun vertex => ?_, unfed.2⟩
    rw [unfed.1 vertex, if_neg fun external => low external.1]
  cases turn with
  | admin origin =>
      rw [inHand] at origin ⊢
      refine admin_feed dequeued.running fun low => ?_
      have placed := consistent.placed choice.entry dequeued.member
      exact (placed (low.trans_le (by decide))).2 origin
  | stop origin late =>
      rw [inHand] at late ⊢
      exact .putBack back rfl fun _ => late
  | «break» origin inTime type empty =>
      rw [inHand]
      exact .putBack back rfl fun stopped => absurd (dequeued.running.symm.trans stopped) (by decide)
  | arrival origin inTime type =>
      rw [inHand] at origin inTime ⊢
      have pushes := arrival_feed processor choice
      exact .handled _ origin inTime rfl (by rw [handled, inHand]) dequeued.running
        pushes.1 pushes.2
  | departure origin inTime type =>
      rw [inHand] at origin inTime type ⊢
      have pushes := quiet [(processor.departed graph choice.entry choice).2]
        (by rw [type]; decide) fun entry member => by
          rw [List.mem_singleton.mp member]
          rcases departureHandler_type graph (processor.servers choice.entry.destination)
            processor.uid choice.entry choice.selected with onward | home
          · exact ⟨fun same => absurd (onward.symm.trans same) (by decide),
              fun same => absurd (onward.symm.trans same) (by decide)⟩
          · exact ⟨fun same => absurd (home.symm.trans same) (by decide),
              fun same => absurd (home.symm.trans same) (by decide)⟩
      exact .handled _ origin inTime rfl (by rw [handled, inHand]) dequeued.running
        pushes.1 pushes.2
  | ack origin inTime type pushed answered =>
      rw [inHand] at origin inTime type answered
      have pushes := quiet pushed (by rcases type with type | type <;> rw [type] <;> decide)
        fun entry member => by
          have types := (ackHandler_pushed answered member).2
          simp only [List.mem_cons, List.not_mem_nil, or_false] at types
          rcases types with type | type | type <;> rw [type] <;> decide
      exact .handled _ origin inTime rfl (by rw [handled, inHand]) dequeued.running
        pushes.1 pushes.2
  | other origin inTime type =>
      rw [inHand] at origin inTime type
      have pushes := quiet [] (fun low => type (by simp [low])) (by simp)
      exact .handled _ origin inTime rfl (by rw [handled, inHand]) dequeued.running
        pushes.1 pushes.2

/-! The external arrivals of a vertex over a run. -/

/-- The external arrivals so far are the first times of the stream, and the next one is
pending. -/
structure Fed (gaps : Nat → ℚ≥0) (config : Config) (vertex : Int) (processor : Processor) :
    Prop where
  arrived : externalTimes vertex processor.processed =
    (List.range (externalTimes vertex processor.processed).length).map (streamTime gaps)
  due : ∃ next, externals vertex processor.pending = [next] ∧
    next.arrival = streamTime gaps (externalTimes vertex processor.processed).length
  inTime : ∀ time ∈ externalTimes vertex processor.processed, time ≤ config.stopTime
  late : processor.stopped = true →
    ∀ entry ∈ externals vertex processor.pending, config.stopTime < entry.arrival

inductive Feeding (graph : Graph) (stream : Nat → Nat → ℚ≥0) (config : Config)
    (processor : Processor) : Prop
  | waiting (uid : Nat)
      (generating : ofType generateArrivalEvent processor.pending =
        [generateAdminEventType uid 0 generateArrivalEvent])
      (unfed : ∀ vertex, externals vertex processor.pending = [])
      (unseen : ∀ vertex, externalTimes vertex processor.processed = [])
      (running : processor.stopped = false)
  | feeding (generated : ofType generateArrivalEvent processor.pending = [])
      (fed : ∀ vertex < graph.size, Fed (stream vertex) config vertex processor)

theorem Fed.frame {gaps : Nat → ℚ≥0} (fed : Fed gaps config vertex processor)
    (pending : externals vertex next.pending = externals vertex processor.pending)
    (processed : externalTimes vertex next.processed = externalTimes vertex processor.processed)
    (stopped : next.stopped = false) : Fed gaps config vertex next := by
  refine ⟨?_, ?_, ?_, fun late => absurd (stopped.symm.trans late) (by decide)⟩
  · rw [processed]
    exact fed.arrived
  · rw [pending, processed]
    exact fed.due
  · rw [processed]
    exact fed.inTime

theorem Fed.putBack {gaps : Nat → ℚ≥0} (fed : Fed gaps config vertex processor)
    (dequeued : Dequeued processor choice) (pending : next.pending.Perm processor.pending)
    (processed : next.processed = processor.processed)
    (late : next.stopped = true → config.stopTime < choice.entry.arrival) :
    Fed gaps config vertex next := by
  obtain ⟨due, only, arrival⟩ := fed.due
  have same : externals vertex next.pending = [due] := by
    refine List.perm_singleton.mp ?_
    rw [← only]
    exact pending.filter _
  refine ⟨?_, ⟨due, same, ?_⟩, ?_, fun stopped entry member => ?_⟩
  · rw [processed]
    exact fed.arrived
  · rw [processed]
    exact arrival
  · rw [processed]
    exact fed.inTime
  · have old : entry ∈ processor.pending := pending.mem_iff.mp (mem_externals.mp member).1
    exact (late stopped).trans_le (dequeued.earliest entry old)

theorem Fed.external {gaps : Nat → ℚ≥0} {pushed : List Entry}
    (fed : Fed gaps config vertex processor) (member : choice.entry ∈ processor.pending)
    (external : choice.entry.type = lastArrivalEvent ∧ choice.entry.destination = vertex)
    (inTime : choice.entry.arrival ≤ config.stopTime)
    (gap : choice.gap vertex = gaps (processor.drawn vertex))
    (pending : next.pending = processor.pending.erase choice.entry ++ pushed)
    (processed : next.processed =
      ⟨choice.entry, choice.serviceTime, pushed⟩ :: processor.processed)
    (stopped : next.stopped = false)
    (pushes : externals vertex pushed =
      [generateArrivalsHandler processor.uid choice.entry (choice.gap choice.entry.destination)]) :
    Fed gaps config vertex next := by
  obtain ⟨due, only, arrival⟩ := fed.due
  have inHand : choice.entry = due := by
    have listed := mem_externals.mpr ⟨member, external⟩
    rw [only] at listed
    exact List.mem_singleton.mp listed
  have seen := @externalTimes_cons_external vertex ⟨choice.entry, choice.serviceTime, pushed⟩
    processor.processed external
  rw [← processed] at seen
  have asked : processor.drawn vertex =
      (externalTimes vertex processor.processed).length + 1 := by
    rw [drawn, only, List.length_singleton, Nat.add_comm]
  refine ⟨?_, ⟨generateArrivalsHandler processor.uid choice.entry
    (choice.gap choice.entry.destination), ?_, ?_⟩, ?_,
    fun late => absurd (stopped.symm.trans late) (by decide)⟩
  · rw [seen, List.length_append, List.length_singleton, List.range_succ, List.map_append,
      ← fed.arrived]
    simp [inHand, arrival]
  · rw [pending, externals_append, externals_erase, only, inHand, List.erase_cons_head,
      List.nil_append, pushes, inHand]
  · rw [seen, List.length_append, List.length_singleton, streamTime_succ, ← arrival]
    simp only [generateArrivalsHandler, generateArrival, Entry.new]
    rw [← inHand, external.2, gap, asked]
  · intro time listed
    rw [seen, List.mem_append, List.mem_singleton] at listed
    rcases listed with old | rfl
    · exact fed.inTime time old
    · exact inTime

theorem externals_firstArrivals {index : Nat} (inside : index < graph.size) :
    externals index (firstArrivals graph processor choice) =
      [generateArrival (processor.uid + index) index choice.entry.arrival (choice.gap index)] := by
  have only : (List.range graph.size).filter
      (fun vertex => decide (vertex = index)) = [index] := by
    have once := List.count_eq_one_of_mem List.nodup_range (List.mem_range.mpr inside)
    exact (List.filter_beq index).trans (by rw [once]; rfl)
  unfold externals firstArrivals
  rw [List.filter_map]
  have same : ((fun entry : Entry =>
        decide (entry.type = lastArrivalEvent ∧ entry.destination = (index : Int))) ∘
      fun vertex : Nat => generateArrival (processor.uid + vertex) vertex choice.entry.arrival
        (choice.gap vertex)) = fun vertex => decide (vertex = index) := by
    funext vertex
    simp [generateArrival, Entry.new]
  rw [same, only]
  rfl

theorem Feeding.generate (guarded : Streamed graph stream processor choice)
    (waiting : ∀ vertex, externals vertex processor.pending = [])
    (unseen : ∀ vertex, externalTimes vertex processor.processed = [])
    (zero : choice.entry.arrival = 0) (generated : ofType generateArrivalEvent next.pending = [])
    (pending : next.pending =
      processor.pending.erase choice.entry ++ firstArrivals graph processor choice)
    (processed : next.processed = processor.processed) (stopped : next.stopped = false) :
    Feeding graph stream config next := by
  refine .feeding generated fun vertex inside => ?_
  have none : externalTimes vertex next.processed = [] := by rw [processed, unseen]
  have asked : processor.drawn vertex = 0 := by simp [drawn, waiting, unseen]
  refine ⟨by rw [none]; rfl, ⟨generateArrival (processor.uid + vertex) vertex
    choice.entry.arrival (choice.gap vertex), ?_, ?_⟩, by simp [none],
    fun late => absurd (stopped.symm.trans late) (by decide)⟩
  · rw [pending, externals_append, externals_erase, waiting, externals_firstArrivals inside]
    rfl
  · rw [none, List.length_nil]
    simp [generateArrival, Entry.new, zero, guarded vertex inside, asked, streamTime]

theorem ofType_firstArrivals : ofType generateArrivalEvent (firstArrivals graph processor choice) = [] := by
  refine ofType_none fun entry member => ?_
  obtain ⟨vertex, _, rfl⟩ := List.mem_map.mp member
  simp [generateArrival, Entry.new]

theorem Feeding.step (begun : 0 ≤ config.stopTime) (feeding : Feeding graph stream config processor)
    (consistent : Consistent config processor) (guarded : Streamed graph stream processor choice)
    (stepped : Processor.step graph config processor choice = some next) :
    Feeding graph stream config next := by
  have dequeued := (step_cases stepped).1
  have turn := feed_cases begun consistent stepped
  cases feeding with
  | waiting uid generating unfed unseen running =>
      have first : generateAdminEventType uid 0 generateArrivalEvent ∈
          ofType generateArrivalEvent processor.pending := by simp [generating]
      have soon : choice.entry.arrival ≤ 0 :=
        dequeued.earliest _ (mem_ofType.mp first).1
      have noExternal : ¬ ∃ vertex, choice.entry.type = lastArrivalEvent ∧
          choice.entry.destination = vertex := by
        rintro ⟨vertex, external⟩
        have listed := mem_externals.mpr ⟨dequeued.member, external⟩
        rw [unfed vertex] at listed
        cases listed
      have other (vertex : Int) : ¬ (choice.entry.type = lastArrivalEvent ∧
          choice.entry.destination = vertex) := fun external => noExternal ⟨vertex, external⟩
      cases turn with
      | putBack pending processed late =>
          refine .waiting uid ?_ (fun vertex => ?_) (fun vertex => by rw [processed, unseen]) ?_
          · refine List.perm_singleton.mp ?_
            rw [← generating]
            exact pending.filter _
          · refine List.perm_nil.mp ?_
            rw [← unfed vertex]
            exact pending.filter _
          · by_contra stopped
            exact absurd (late (by simpa using stopped)) (not_lt.mpr (soon.trans begun))
      | handled pushed origin inTime pending processed stopped fed ungenerated =>
          have kind : choice.entry.type ≠ generateArrivalEvent := by
            intro type
            have listed := mem_ofType.mpr ⟨dequeued.member, type⟩
            rw [generating, List.mem_singleton] at listed
            exact origin (by rw [listed]; rfl)
          refine .waiting uid ?_ (fun vertex => ?_) (fun vertex => ?_) stopped
          · rw [pending, ofType_append, ofType_erase_of_ne kind, generating, ungenerated]
            rfl
          · rw [pending, externals_append, externals_erase_of_ne (other vertex), unfed, fed,
              if_neg (other vertex)]
            rfl
          · rw [processed, externalTimes_cons_other (other vertex), unseen]
      | admin pushed type kind pending processed stopped quiet ungenerated =>
          refine .waiting uid ?_ (fun vertex => ?_) (fun vertex => by rw [processed, unseen]) stopped
          · rw [pending, ofType_append, ofType_erase_of_ne kind, generating, ungenerated]
            rfl
          · rw [pending, externals_append, externals_erase_of_ne (other vertex), unfed, quiet]
            rfl
      | generate type pending processed stopped =>
          have listed := mem_ofType.mpr ⟨dequeued.member, type⟩
          rw [generating, List.mem_singleton] at listed
          refine Feeding.generate guarded unfed unseen (by rw [listed]; rfl) ?_ pending
            processed stopped
          rw [pending, ofType_append, ofType_erase, generating, listed,
            List.erase_cons_head, ofType_firstArrivals]
          rfl
  | feeding generated fed =>
      have kind : choice.entry.type ≠ generateArrivalEvent := by
        intro type
        have listed := mem_ofType.mpr ⟨dequeued.member, type⟩
        rw [generated] at listed
        cases listed
      cases turn with
      | putBack pending processed late =>
          refine .feeding (List.perm_nil.mp ?_) fun vertex inside =>
            (fed vertex inside).putBack dequeued pending processed late
          rw [← generated]
          exact pending.filter _
      | handled pushed origin inTime pending processed stopped pushes ungenerated =>
          refine .feeding ?_ fun vertex inside => ?_
          · rw [pending, ofType_append, ofType_erase_of_ne kind, generated, ungenerated]
            rfl
          by_cases external : choice.entry.type = lastArrivalEvent ∧
            choice.entry.destination = (vertex : Int)
          · refine (fed vertex inside).external dequeued.member external inTime
              (guarded vertex inside) pending processed stopped ?_
            rw [pushes, if_pos external]
          · refine (fed vertex inside).frame ?_ ?_ stopped
            · rw [pending, externals_append, externals_erase_of_ne external, pushes,
                if_neg external, List.append_nil]
            · rw [processed, externalTimes_cons_other external]
      | admin pushed type _ pending processed stopped quiet ungenerated =>
          have other (vertex : Int) : ¬ (choice.entry.type = lastArrivalEvent ∧
              choice.entry.destination = vertex) := fun external => type external.1
          refine .feeding ?_ fun vertex inside => (fed vertex inside).frame ?_ ?_ stopped
          · rw [pending, ofType_append, ofType_erase_of_ne kind, generated, ungenerated]
            rfl
          · rw [pending, externals_append, externals_erase_of_ne (other vertex), quiet,
              List.append_nil]
          · rw [processed]
      | generate type => exact absurd type kind

theorem start_feeding (config : Config) : Feeding graph stream config (start config) := by
  have announced (entry : Entry) (member : entry ∈ (start config).pending) (vertex : Int) :
      ¬ (entry.type = lastArrivalEvent ∧ entry.destination = vertex) := by
    obtain ⟨uid, type, _, kind, rfl⟩ := start_pending member
    intro external
    have low : type = lastArrivalEvent := external.1
    rw [low] at kind
    exact absurd kind (by decide)
  refine .waiting (if config.mfrw then 1 else 0) ?_
    (fun vertex => externals_none fun entry member => announced entry member vertex)
    (fun vertex => rfl) rfl
  unfold start initialTypes ofType
  cases config.mfrw <;> cases config.logGraphs <;>
    by_cases statistics : config.systemStatsSteps > 0 <;>
      simp [statistics, generateAdminEventType, Entry.new]

theorem run_feeding (begun : 0 ≤ config.stopTime) {choices : List Choice} {final : Processor}
    (guarded : Runs.Along (Processor.step graph config) (Streamed graph stream) (start config)
      choices)
    (ran : Runs.run (Processor.step graph config) (start config) choices = some final) :
    Feeding graph stream config final := by
  have holds := Runs.run_invariant_along
    (fun state => Consistent config state ∧ Feeding graph stream config state)
    (fun state choice next holds streamed stepped =>
      ⟨holds.1.step stepped, holds.2.step begun holds.1 streamed stepped⟩)
    ⟨start_consistent config, start_feeding config⟩ guarded ran
  exact holds.2

/-- The external arrivals processed for a vertex are the first times of its stream, and all
of those up to the stop time once the loop has stopped there. -/
theorem run_externalTimes (begun : 0 ≤ config.stopTime) {choices : List Choice}
    {final : Processor}
    (guarded : Runs.Along (Processor.step graph config) (Streamed graph stream) (start config)
      choices)
    (ran : Runs.run (Processor.step graph config) (start config) choices = some final)
    {vertex : Nat} (inside : vertex < graph.size) :
    ∃ count, externalTimes vertex final.processed =
        (List.range count).map (streamTime (stream vertex)) ∧
      (∀ index < count, streamTime (stream vertex) index ≤ config.stopTime) ∧
      (final.stopped = true → config.stopTime < streamTime (stream vertex) count) := by
  cases run_feeding begun guarded ran with
  | waiting uid generating unfed unseen running =>
      exact ⟨0, unseen vertex, by simp, fun stopped => absurd (running.symm.trans stopped) (by decide)⟩
  | feeding generated fed =>
      have fed := fed vertex inside
      obtain ⟨due, only, arrival⟩ := fed.due
      refine ⟨_, fed.arrived, fun index earlier => fed.inTime _ ?_, fun stopped => ?_⟩
      · rw [fed.arrived]
        exact List.mem_map_of_mem (List.mem_range.mpr earlier)
      · rw [← arrival]
        exact fed.late stopped due (by rw [only]; exact List.mem_singleton_self due)

/-- Common random numbers: with the same streams and stop time, two runs see the same
external arrivals, on whatever links the jobs travel and however long they are served. -/
theorem run_common_arrivals {other : Graph} {otherConfig : Config} (begun : 0 ≤ config.stopTime)
    (same : otherConfig.stopTime = config.stopTime) (sizes : other.size = graph.size)
    {first second : List Choice} {one two : Processor}
    (firstStreamed : Runs.Along (Processor.step graph config) (Streamed graph stream)
      (start config) first)
    (secondStreamed : Runs.Along (Processor.step other otherConfig) (Streamed other stream)
      (start otherConfig) second)
    (firstRan : Runs.run (Processor.step graph config) (start config) first = some one)
    (secondRan : Runs.run (Processor.step other otherConfig) (start otherConfig) second = some two) :
    ∀ vertex < graph.size,
      (externalTimes vertex one.processed <+: externalTimes vertex two.processed ∨
        externalTimes vertex two.processed <+: externalTimes vertex one.processed) ∧
      (one.stopped = true → two.stopped = true →
        externalTimes vertex one.processed = externalTimes vertex two.processed) ∧
      (one.stopped = true → ∀ index,
        (externalTimes vertex one.processed)[index]? =
          if streamTime (stream vertex) index ≤ config.stopTime then
            some (streamTime (stream vertex) index)
          else none) := by
  intro vertex inside
  obtain ⟨count, arrived, inTime, late⟩ := run_externalTimes begun firstStreamed firstRan inside
  obtain ⟨otherCount, otherArrived, otherInTime, otherLate⟩ :=
    run_externalTimes (same.symm ▸ begun) secondStreamed secondRan (sizes.symm ▸ inside)
  rw [same] at otherInTime otherLate
  have grows := streamTime_mono (stream vertex)
  have shorter {few many : Nat} (fewer : few ≤ many) :
      (List.range few).map (streamTime (stream vertex)) <+:
        (List.range many).map (streamTime (stream vertex)) := by
    refine List.IsPrefix.map _ ?_
    rw [List.prefix_iff_eq_take, List.length_range, List.take_range, Nat.min_eq_left fewer]
  rw [arrived, otherArrived]
  refine ⟨(Nat.le_total count otherCount).imp shorter shorter, fun stopped otherStopped => ?_,
    fun stopped index => ?_⟩
  · have atMost : otherCount ≤ count := by
      by_contra more
      exact absurd (late stopped) (not_lt.mpr (otherInTime count (by omega)))
    have atLeast : count ≤ otherCount := by
      by_contra more
      exact absurd (otherLate otherStopped) (not_lt.mpr (inTime otherCount (by omega)))
    rw [le_antisymm atLeast atMost]
  · rcases Nat.lt_or_ge index count with earlier | later
    · simp [earlier, inTime index earlier]
    · have past := (late stopped).trans_le (grows later)
      simp [later, past]

def rising : Nat → Nat → ℚ≥0 := fun _ index => index + 1

def servedFor (service : ℚ≥0) : List Choice :=
  [⟨generateAdminEventType 0 0 generateArrivalEvent, 0, fun _ => 1, 0⟩,
    ⟨generateArrival 1 0 0 1, service, fun _ => (2 : ℕ), 0⟩,
    ⟨generateArrival 2 0 1 (2 : ℕ), 0, fun _ => (3 : ℕ), 0⟩]

theorem servedFor_streamed (service : ℚ≥0) (known : service = 5 ∨ service = 4) :
    Runs.Along (Processor.step lone { stopTime := 2 }) (Streamed lone rising)
      (start { stopTime := 2 }) (servedFor service) := by
  rcases known with rfl | rfl <;> exact Runs.along_of_check (by decide +kernel)

theorem servedFor_run (service : ℚ≥0) (known : service = 5 ∨ service = 4) :
    ∃ final, Runs.run (Processor.step lone { stopTime := 2 }) (start { stopTime := 2 })
      (servedFor service) = some final ∧ final.stopped = true := by
  have checked : ((Runs.run (Processor.step lone { stopTime := 2 }) (start { stopTime := 2 })
      (servedFor service)).map Processor.stopped) = some true := by
    rcases known with rfl | rfl <;> decide +kernel
  exact Option.map_eq_some_iff.mp checked

theorem run_common_arrivals_stopped :
    ∃ one two,
      Runs.run (Processor.step lone { stopTime := 2 }) (start { stopTime := 2 })
        (servedFor 5) = some one ∧
      Runs.run (Processor.step lone { stopTime := 2 }) (start { stopTime := 2 })
        (servedFor 4) = some two ∧
      externalTimes 0 one.processed = externalTimes 0 two.processed := by
  obtain ⟨one, firstRan, stopped⟩ := servedFor_run 5 (.inl rfl)
  obtain ⟨two, secondRan, otherStopped⟩ := servedFor_run 4 (.inr rfl)
  refine ⟨one, two, firstRan, secondRan, ?_⟩
  exact (run_common_arrivals (by decide) rfl rfl (servedFor_streamed 5 (.inl rfl))
    (servedFor_streamed 4 (.inr rfl)) firstRan secondRan 0 (by decide)).2.1 stopped otherStopped

end Processor

end RlAqs
