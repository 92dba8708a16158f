import RlAqs.Simulator.JobsEach
import Mathlib.Algebra.Order.BigOperators.Group.List
import Mathlib.Data.List.Chain

/-!
What the acknowledgements of a job are worth. The times of a job add up along its way: the reward a
vertex gets is the time the job has spent there and at the vertices after it, and the time in the
system is that at all of them.
-/

namespace RlAqs

open Handlers EventGenerator

def Record.wait (record : Record) : ℚ :=
  ((departures record.entry.destination record.pushed).map Entry.delay).sum - record.entry.delay

def Record.sojourn (record : Record) : ℚ := record.wait + record.serviceTime

def Record.IsHop (record : Record) : Prop :=
  record.entry.type = lastArrivalEvent ∨ record.entry.type = arrivalEvent

instance (record : Record) : Decidable record.IsHop := inferInstanceAs (Decidable (_ ∨ _))

def hops (records : List Record) : List Record := records.filter fun record => record.IsHop

def Follows (later earlier : Record) : Prop :=
  later.entry.arrival = earlier.entry.arrival + earlier.sojourn ∧
    later.entry.origin = earlier.entry.destination

structure Clock (hops : List Record) (entry : Entry) : Prop where
  chain : hops.IsChain Follows
  waits : ∀ hop ∈ hops, 0 ≤ hop.wait
  inside : ∀ hop ∈ hops, 0 ≤ hop.entry.destination
  arrival : ∀ last ∈ hops.head?, entry.arrival = last.entry.arrival + last.sojourn
  first : ∀ first ∈ hops.getLast?,
    first.entry.arrival = entry.externalArrival ∧ first.entry.origin = externalEvent
  delay : entry.delay = (hops.map Record.wait).sum

/-- The history of an event is that of the hops that are not acknowledged yet. -/
structure Opened (opened : List Record) (entry : Entry) : Prop where
  path : entry.eventPath = opened.map fun hop => hop.entry.origin
  arrivals : entry.eventArrivals = opened.map fun hop => hop.entry.arrival

structure Answers (hops : List Record) (record : Record) : Prop where
  ack : record.entry.type = ackEvent → ∃ later here earlier, hops = later ++ here :: earlier ∧
    record.entry.destination = here.entry.destination ∧ Opened (here :: earlier) record.entry ∧
    Clock hops record.entry
  leave : record.entry.type = leaveEvent → hops ≠ [] ∧ Clock hops record.entry

inductive Clocked : List Record → List Entry → Prop
  | absent : Clocked [] []
  | arriving {records : List Record} {entry : Entry}
      (type : entry.type = lastArrivalEvent ∨ entry.type = arrivalEvent)
      (outward : ∀ record ∈ records,
        record.entry.type ≠ ackEvent ∧ record.entry.type ≠ leaveEvent)
      (clock : Clock (hops records) entry) (opened : Opened (hops records) entry)
      (place : 0 ≤ entry.destination)
      (origin : ∀ last ∈ (hops records).head?, entry.origin = last.entry.destination)
      (external : hops records = [] →
        entry.origin = externalEvent ∧ entry.arrival = entry.externalArrival) :
      Clocked records [entry]
  | departing {records earlier : List Record} {here : Record} {entry : Entry}
      (type : entry.type = departureEvent)
      (outward : ∀ record ∈ records,
        record.entry.type ≠ ackEvent ∧ record.entry.type ≠ leaveEvent)
      (listed : hops records = here :: earlier) (clock : Clock (hops records) entry)
      (opened : Opened (hops records) entry)
      (place : entry.destination = here.entry.destination)
      (origin : entry.origin = entry.destination) :
      Clocked records [entry]
  | returning {records later earlier : List Record} {here : Record} {entry : Entry}
      (type : entry.type = ackEvent) (listed : hops records = later ++ here :: earlier)
      (place : entry.destination = here.entry.destination) (clock : Clock (hops records) entry)
      (opened : Opened (here :: earlier) entry)
      (answers : ∀ record ∈ records, Answers (hops records) record) :
      Clocked records [entry]
  | leaving {records : List Record} {entry : Entry} (type : entry.type = leaveEvent)
      (visited : hops records ≠ []) (clock : Clock (hops records) entry)
      (answers : ∀ record ∈ records, Answers (hops records) record) :
      Clocked records [entry]
  | left {records : List Record} (answers : ∀ record ∈ records, Answers (hops records) record) :
      Clocked records []

section hops

variable {records : List Record} {record : Record}

theorem hops_cons_hop (hop : record.IsHop) : hops (record :: records) = record :: hops records := by
  simp [hops, hop]

theorem hops_cons_other (other : ¬ record.IsHop) : hops (record :: records) = hops records := by
  simp [hops, other]

end hops

variable {records : List Record} {entry next scheduled : Entry} {serviceTime : ℚ≥0}
  {pushed : List Entry}

theorem Clock.same {hops : List Record} (clock : Clock hops entry)
    (arrival : next.arrival = entry.arrival)
    (externalArrival : next.externalArrival = entry.externalArrival)
    (delay : next.delay = entry.delay) : Clock hops next where
  chain := clock.chain
  waits := clock.waits
  inside := clock.inside
  arrival := arrival ▸ clock.arrival
  first := externalArrival ▸ clock.first
  delay := delay ▸ clock.delay

theorem Clocked.arrival (type : entry.type = lastArrivalEvent ∨ entry.type = arrivalEvent)
    (schedules : Schedules entry scheduled serviceTime)
    (only : departures entry.destination pushed = [scheduled]) (clocked : Clocked records [entry]) :
    Clocked (⟨entry, serviceTime, pushed⟩ :: records) [scheduled] := by
  cases clocked with
  | departing kind => rcases type with type | type <;> rw [kind] at type <;> contradiction
  | returning kind => rcases type with type | type <;> rw [kind] at type <;> contradiction
  | leaving kind => rcases type with type | type <;> rw [kind] at type <;> contradiction
  | arriving _ outward clock opened place origin external =>
      obtain ⟨wait, nonneg, delay, arrival⟩ := schedules.delay
      let here : Record := ⟨entry, serviceTime, pushed⟩
      have waited : here.wait = wait := by
        simp only [here, Record.wait, only, List.map_singleton, List.sum_singleton, delay]
        ring
      have listed : hops (here :: records) = here :: hops records := hops_cons_hop type
      refine .departing schedules.type (fun record member => ?_) listed ?_ ?_
        schedules.destination (schedules.origin.trans schedules.destination.symm)
      · rcases List.mem_cons.mp member with rfl | old
        · rcases type with type | type <;> rw [type] <;> decide
        · exact outward record old
      · rw [listed]
        constructor
        · refine List.isChain_cons.mpr ⟨fun last member => ?_, clock.chain⟩
          exact ⟨clock.arrival last member, origin last member⟩
        · intro hop member
          rcases List.mem_cons.mp member with rfl | old
          · rw [waited]
            exact nonneg
          · exact clock.waits hop old
        · intro hop member
          rcases List.mem_cons.mp member with rfl | old
          · exact place
          · exact clock.inside hop old
        · rintro last ⟨⟩
          rw [arrival, Record.sojourn, waited]
          exact (add_assoc _ _ _)
        · intro first member
          rw [schedules.externalArrival]
          cases none : hops records with
          | nil =>
              rw [none] at member
              obtain rfl := Option.some.inj member
              exact ⟨(external none).2, (external none).1⟩
          | cons other rest =>
              rw [none, List.getLast?_cons_cons, ← none] at member
              exact clock.first first member
        · rw [delay, List.map_cons, List.sum_cons, waited, ← clock.delay, add_comm]
      · rw [listed]
        exact ⟨by rw [schedules.eventPath, opened.path]; rfl,
          by rw [schedules.eventArrivals, opened.arrivals]; rfl⟩

theorem Answers.other {record : Record} (other : ¬ record.IsHop)
    (answers : ∀ old ∈ records, Answers (hops records) old) (own : Answers (hops records) record) :
    ∀ old ∈ record :: records, Answers (hops (record :: records)) old := by
  rw [hops_cons_other other]
  exact List.forall_mem_cons.mpr ⟨own, answers⟩

theorem Clocked.departure (uid selected : Nat) (type : entry.type = departureEvent)
    (onward : next = (entry.copy uid).depart selected arrivalEvent ∨
      next = (entry.copy uid).acknowledge entry.destination entry.destination ackEvent)
    (clocked : Clocked records [entry]) :
    Clocked (⟨entry, serviceTime, pushed⟩ :: records) [next] := by
  cases clocked with
  | arriving kind => rcases kind with kind | kind <;> rw [kind] at type <;> contradiction
  | returning kind => rw [kind] at type; contradiction
  | leaving kind => rw [kind] at type; contradiction
  | @departing _ earlier here _ _ outward listed clock opened place origin =>
      let record : Record := ⟨entry, serviceTime, pushed⟩
      have other : ¬ record.IsHop := by
        rintro (kind | kind) <;> exact absurd (type.symm.trans kind) (by decide)
      have same : hops (record :: records) = hops records := hops_cons_other other
      have still : ∀ old ∈ record :: records,
          old.entry.type ≠ ackEvent ∧ old.entry.type ≠ leaveEvent := by
        refine List.forall_mem_cons.mpr ⟨?_, outward⟩
        rw [show record.entry.type = departureEvent from type]
        decide
      rcases onward with rfl | rfl
      · refine .arriving (.inr rfl) still (same ▸ clock.same rfl rfl rfl)
          (same ▸ ⟨opened.path, opened.arrivals⟩) (Int.natCast_nonneg selected) ?_ ?_
        · intro last member
          rw [same, listed] at member
          obtain rfl := Option.some.inj member
          exact origin.trans place
        · intro none
          rw [same, listed] at none
          cases none
      · have split : hops (record :: records) = [] ++ here :: earlier := same.trans listed
        refine .returning rfl split place (same ▸ clock.same rfl rfl rfl) ?_ ?_
        · rw [listed] at opened
          exact ⟨opened.path, opened.arrivals⟩
        · intro old member
          exact ⟨fun acks => absurd acks (still old member).1,
            fun leaves => absurd leaves (still old member).2⟩

theorem Clocked.ack {popped : Entry} (uid : Nat) (destination : Int)
    (type : entry.type = ackEvent)
    (found : entry.popEvent = some (destination, popped)) (clocked : Clocked records [entry]) :
    Clocked (⟨entry, serviceTime, pushed⟩ :: records) [followUp uid popped destination] := by
  cases clocked with
  | arriving kind => rcases kind with kind | kind <;> rw [kind] at type <;> contradiction
  | departing kind => rw [kind] at type; contradiction
  | leaving kind => rw [kind] at type; contradiction
  | @returning _ later earlier here _ _ listed place clock opened answers =>
      obtain ⟨time, pathTop, arrivalsTop, copied⟩ := popEvent_fields found
      let record : Record := ⟨entry, serviceTime, pushed⟩
      have other : ¬ record.IsHop := by
        rintro (kind | kind) <;> exact absurd (type.symm.trans kind) (by decide)
      have same : hops (record :: records) = hops records := hops_cons_other other
      have answered : ∀ old ∈ record :: records, Answers (hops (record :: records)) old := by
        refine Answers.other other answers ⟨fun _ => ⟨later, here, earlier, listed, place, opened,
          clock⟩, fun leaves => ?_⟩
        exact absurd (type.symm.trans leaves) (by decide)
      have poppedClock : Clock (hops records) popped := by
        rw [copied]
        exact clock.same rfl rfl rfl
      rw [opened.path, List.map_cons] at pathTop
      rw [opened.arrivals, List.map_cons] at arrivalsTop
      obtain ⟨rfl, path⟩ := List.cons.inj pathTop
      obtain ⟨_, arrivals⟩ := List.cons.inj arrivalsTop
      cases earlier with
      | nil =>
          have first : here.entry.origin = externalEvent := by
            refine (clock.first here ?_).2
            rw [listed, List.getLast?_append]
            rfl
          rw [first, followUp, if_pos rfl]
          refine .leaving rfl ?_ (same ▸ poppedClock.same rfl rfl rfl) answered
          rw [same, listed]
          exact List.append_ne_nil_of_right_ne_nil _ (List.cons_ne_nil _ _)
      | cons before more =>
          have follows : Follows here before :=
            List.isChain_iff_forall_rel_of_append_cons_cons.mp clock.chain listed
          have member : before ∈ hops records := by
            rw [listed]
            simp
          have inner : here.entry.origin ≠ externalEvent := by
            rw [follows.2]
            exact fun external => absurd (external ▸ clock.inside before member) (by decide)
          rw [followUp, if_neg inner]
          have split : hops (record :: records) = (later ++ [here]) ++ before :: more := by
            rw [same, listed, List.append_assoc]
            rfl
          exact .returning rfl split follows.2 (same ▸ poppedClock.same rfl rfl rfl)
            ⟨path.symm, arrivals.symm⟩ answered

theorem Clocked.leave (type : entry.type = leaveEvent) (clocked : Clocked records [entry]) :
    Clocked (⟨entry, serviceTime, pushed⟩ :: records) [] := by
  cases clocked with
  | arriving kind => rcases kind with kind | kind <;> rw [kind] at type <;> contradiction
  | departing kind => rw [kind] at type; contradiction
  | returning kind => rw [kind] at type; contradiction
  | leaving _ visited clock answers =>
      have other : ¬ (⟨entry, serviceTime, pushed⟩ : Record).IsHop := by
        rintro (kind | kind) <;> exact absurd (type.symm.trans kind) (by decide)
      exact .left (Answers.other other answers
        ⟨fun acks => absurd (type.symm.trans acks) (by decide), fun _ => ⟨visited, clock⟩⟩)

theorem clocked_rule : JobRule Clocked where
  absent := .absent
  born := by
    intro uid vertex startTime gap place
    exact .arriving (.inl rfl) (by simp)
      ⟨.nil, by simp [hops], by simp [hops], by simp [hops], by simp [hops], rfl⟩ ⟨rfl, rfl⟩ place
      (by simp [hops]) fun _ => ⟨rfl, rfl⟩
  arrival := Clocked.arrival
  departure := Clocked.departure
  ack := fun uid destination => Clocked.ack uid destination
  leave := Clocked.leave

/-! The times add up. -/

theorem Clock.since {way later earlier : List Record} {here : Record} (clock : Clock way entry)
    (listed : way = later ++ here :: earlier) :
    entry.arrival - here.entry.arrival = ((later ++ [here]).map Record.sojourn).sum := by
  have chain := clock.chain
  have arrival := clock.arrival
  rw [listed] at chain arrival
  generalize entry.arrival = time at arrival ⊢
  clear clock listed
  induction later generalizing time with
  | nil =>
      have ends : time = here.entry.arrival + here.sojourn := arrival here rfl
      rw [ends]
      simp
  | cons last rest ih =>
      obtain ⟨follows, chain⟩ := List.isChain_cons.mp chain
      have ends : time = last.entry.arrival + last.sojourn := arrival last rfl
      have before := ih chain last.entry.arrival fun other member => (follows other member).1
      rw [List.cons_append, List.map_cons, List.sum_cons, ← before, ends]
      ring

theorem Clock.sojourns {way : List Record} (clock : Clock way entry) {hop : Record}
    (member : hop ∈ way) : 0 ≤ hop.sojourn :=
  add_nonneg (clock.waits hop member) hop.serviceTime.coe_nonneg

theorem Answers.reward {way : List Record} {record : Record} (answers : Answers way record)
    (acks : record.entry.type = ackEvent) :
    ∃ later here earlier, way = later ++ here :: earlier ∧
      record.entry.destination = here.entry.destination ∧
      record.entry.getReward = some (-((later ++ [here]).map Record.sojourn).sum) := by
  obtain ⟨later, here, earlier, listed, place, opened, clock⟩ := answers.ack acks
  refine ⟨later, here, earlier, listed, place, ?_⟩
  have since := clock.since listed
  have nonneg : 0 ≤ ((later ++ [here]).map Record.sojourn).sum := by
    refine List.sum_nonneg fun value member => ?_
    obtain ⟨hop, listedHop, rfl⟩ := List.mem_map.mp member
    refine clock.sojourns ?_
    rw [listed, List.append_cons]
    exact List.mem_append_left _ listedHop
  have top : record.entry.topArrival = some here.entry.arrival := by
    rw [Entry.topArrival, opened.arrivals]
    rfl
  rw [Entry.getReward, top, Option.map_some]
  refine congrArg some ?_
  split
  · linarith
  · linarith

theorem Answers.inSystem {way : List Record} {record : Record} (answers : Answers way record)
    (leaves : record.entry.type = leaveEvent) :
    record.entry.arrival - record.entry.externalArrival = (way.map Record.sojourn).sum ∧
      record.entry.delay = (way.map Record.wait).sum := by
  obtain ⟨visited, clock⟩ := answers.leave leaves
  refine ⟨?_, clock.delay⟩
  have listed := (List.dropLast_append_getLast visited).symm
  have first := (clock.first (way.getLast visited) (List.getLast?_eq_some_getLast visited)).1
  rw [← first]
  exact (clock.since listed).trans (by rw [← listed])

theorem Clocked.answers {lives : List Entry} (clocked : Clocked records lives) :
    ∀ record ∈ records, Answers (hops records) record := by
  cases clocked with
  | absent => simp
  | arriving _ outward =>
      intro record member
      exact ⟨fun acks => absurd acks (outward record member).1,
        fun leaves => absurd leaves (outward record member).2⟩
  | departing _ outward =>
      intro record member
      exact ⟨fun acks => absurd acks (outward record member).1,
        fun leaves => absurd leaves (outward record member).2⟩
  | returning _ _ _ _ _ answers => exact answers
  | leaving _ _ _ answers => exact answers
  | left answers => exact answers

namespace Processor

variable {graph : Graph} {config : Config}

/-- Rewards are what the simulation measures: the reward that an acknowledgement brings to a
vertex is minus the waits and the services of the job at that vertex and all later ones on its
way, and a job that leaves has been in the system for those at all its vertices, its delay
being the waits among them. -/
theorem run_rewards (begun : 0 ≤ config.stopTime) {choices : List Choice} {final : Processor}
    (ran : Runs.run (Processor.step graph config) (start config) choices = some final)
    (routed : Runs.Along (Processor.step graph config) (Routed graph) (start config) choices)
    {record : Record} (member : record ∈ final.processed) :
    let way := hops (stops record.entry.id final.processed)
    (record.entry.type = ackEvent → ∃ later here earlier, way = later ++ here :: earlier ∧
      record.entry.destination = here.entry.destination ∧
      record.entry.getReward = some (-((later ++ [here]).map Record.sojourn).sum)) ∧
    (record.entry.type = leaveEvent →
      record.entry.arrival - record.entry.externalArrival = (way.map Record.sojourn).sum ∧
      record.entry.delay = (way.map Record.wait).sum) := by
  intro way
  have answers := Clocked.answers (run_each_job clocked_rule begun ran routed record.entry.id)
  have own (counted : (Stop.ofEntry record.entry).isSome) :
      record ∈ stops record.entry.id final.processed := by
    simp [stops, member, counted]
  constructor
  · intro acks
    exact (answers record (own (by rw [ofEntry_ack acks]; rfl))).reward acks
  · intro leaves
    exact (answers record (own (by rw [ofEntry_leave leaves]; rfl))).inSystem leaves

theorem run_rewards_roundTrip :
    ∃ final, Runs.run (Processor.step line { stopTime := 10 }) (start { stopTime := 10 })
        roundTrip = some final ∧
      ∃ record ∈ final.processed, record.entry.type = leaveEvent ∧
        record.entry.arrival - record.entry.externalArrival =
          ((hops (stops record.entry.id final.processed)).map Record.sojourn).sum := by
  have ends : (Runs.run (Processor.step line { stopTime := 10 }) (start { stopTime := 10 })
      roundTrip).any (fun final => final.processed.any fun record =>
        decide (record.entry.type = leaveEvent)) = true := by decide +kernel
  obtain ⟨final, ran, left⟩ := (Option.any_eq_true _ _).mp ends
  obtain ⟨record, member, leaves⟩ := List.any_eq_true.mp left
  have leaves := of_decide_eq_true leaves
  exact ⟨final, ran, record, member, leaves, ((run_rewards (by decide) ran
    (Runs.along_of_check (by decide +kernel)) member).2 leaves).1⟩

end Processor

end RlAqs
