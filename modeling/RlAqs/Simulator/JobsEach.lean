import RlAqs.Simulator.JobsRetrace
import RlAqs.Simulator.ServersMatch
import Mathlib.Tactic.Ring

/-!
What the events of a job keep, one after another, holds of every job in every run: the turns of
other jobs and the admin events neither touch its live event nor what was processed for it.
-/

namespace RlAqs

open Handlers EventGenerator

def stops (id : Nat) (processed : List Record) : List Record :=
  processed.filter fun record => record.entry.id = id ∧ (Stop.ofEntry record.entry).isSome

structure Schedules (entry departure : Entry) (serviceTime : ℚ≥0) : Prop where
  type : departure.type = departureEvent
  destination : departure.destination = entry.destination
  origin : departure.origin = entry.destination
  externalArrival : departure.externalArrival = entry.externalArrival
  eventPath : departure.eventPath = entry.origin :: entry.eventPath
  eventArrivals : departure.eventArrivals = entry.arrival :: entry.eventArrivals
  delay : ∃ wait, 0 ≤ wait ∧ departure.delay = entry.delay + wait ∧
    departure.arrival = entry.arrival + wait + serviceTime

/-- A relation between what was processed for a job and its live events that its events keep. -/
structure JobRule (related : List Record → List Entry → Prop) : Prop where
  absent : related [] []
  born : ∀ uid (vertex : Int) startTime gap, 0 ≤ vertex →
    related [] [generateArrival uid vertex startTime gap]
  arrival : ∀ {records entry departure serviceTime pushed},
    entry.type = lastArrivalEvent ∨ entry.type = arrivalEvent →
    Schedules entry departure serviceTime → departures entry.destination pushed = [departure] →
    related records [entry] → related (⟨entry, serviceTime, pushed⟩ :: records) [departure]
  departure : ∀ {records entry next serviceTime pushed} (uid selected : Nat),
    entry.type = departureEvent →
    (next = (entry.copy uid).depart selected arrivalEvent ∨
      next = (entry.copy uid).acknowledge entry.destination entry.destination ackEvent) →
    related records [entry] → related (⟨entry, serviceTime, pushed⟩ :: records) [next]
  ack : ∀ {records entry popped serviceTime pushed} (uid : Nat) (destination : Int),
    entry.type = ackEvent → entry.popEvent = some (destination, popped) →
    related records [entry] →
    related (⟨entry, serviceTime, pushed⟩ :: records) [followUp uid popped destination]
  leave : ∀ {records entry serviceTime pushed}, entry.type = leaveEvent →
    related records [entry] → related (⟨entry, serviceTime, pushed⟩ :: records) []

section stops

variable {id : Nat} {record : Record} {processed : List Record}

theorem stops_cons_own (own : record.entry.id = id)
    (counted : (Stop.ofEntry record.entry).isSome) :
    stops id (record :: processed) = record :: stops id processed := by
  simp [stops, own, counted]

theorem stops_cons_skip
    (skip : ¬ (record.entry.id = id ∧ (Stop.ofEntry record.entry).isSome)) :
    stops id (record :: processed) = stops id processed := by
  simp [stops, skip]

end stops

theorem arrivalHandler_externalArrival (server : Server) (uid : Nat) (entry : Entry)
    (serviceTime : ℚ≥0) :
    (arrivalHandler server uid entry serviceTime).2.externalArrival = entry.externalArrival := by
  unfold arrivalHandler; dsimp only; split <;> rfl

namespace Processor

variable {graph : Graph} {config : Config} {processor next : Processor} {choice : Choice}
  {related : List Record → List Entry → Prop}

def Related (related : List Record → List Entry → Prop) (processor : Processor) : Prop :=
  ∀ id, related (stops id processor.processed) (live id processor.pending)

theorem Consistent.schedules (consistent : Consistent config processor)
    (dequeued : Dequeued processor choice) :
    Schedules choice.entry (processor.arrived choice.entry choice).2 choice.serviceTime where
  type := arrived_type ..
  destination := arrived_destination ..
  origin := arrived_origin ..
  externalArrival := arrivalHandler_externalArrival ..
  eventPath := arrivalHandler_eventPath ..
  eventArrivals := arrivalHandler_eventArrivals ..
  delay := by
    refine ⟨delayOf (numEventsHandler (processor.servers choice.entry.destination) choice.entry)
      choice.entry, ?_, arrivalHandler_delay .., ?_⟩
    · unfold delayOf
      split
      · exact le_max_left _ _
      · exact le_rfl
    · unfold arrived delayOf
      rw [arrivalHandler_arrival, arrivalHandler_timeServiceEnds, numEventsHandler_busy,
        numEventsHandler_timeServiceEnds]
      split
      · rename_i busy
        have ends := consistent.arrival_le_ends dequeued busy
        rw [max_eq_right (by linarith)]
        ring
      · ring

theorem Conserved.unseen (conserved : Conserved graph processor) {id : Nat}
    (fresh : processor.uid < id) : stops id processor.processed = [] := by
  refine List.filter_eq_nil_iff.mpr fun record member own => ?_
  have bound := conserved.seen record member
  have same := (of_decide_eq_true own).1
  omega

/-- A turn at a vertex: the job in hand goes on by its rule, and the others are left alone. -/
theorem Related.handled_step (holds : Related related processor)
    (conserved : Conserved graph processor) (dequeued : Dequeued processor choice)
    (counted : (Stop.ofEntry choice.entry).isSome)
    (inHand : processor.take choice.entry = choice.entry) (servers : Int → Server)
    (pushed : List Entry)
    (mine : related (stops choice.entry.id processor.processed) [choice.entry] →
      related (⟨choice.entry, choice.serviceTime, pushed⟩ ::
        stops choice.entry.id processor.processed) (live choice.entry.id pushed))
    (others : ∀ id ≠ choice.entry.id, id ≤ processor.uid → live id pushed = [])
    (fresh : ∀ id ≠ choice.entry.id, processor.uid < id → related [] (live id pushed)) :
    Related related (processor.handled choice servers pushed) := by
  intro id
  simp only [Processor.handled, inHand, live_append]
  by_cases same : id = choice.entry.id
  · subst same
    have own := @stops_cons_own choice.entry.id ⟨choice.entry, choice.serviceTime, pushed⟩
      processor.processed rfl counted
    rw [own, conserved.live_rest dequeued counted, List.nil_append]
    refine mine ?_
    rw [← conserved.alone dequeued counted]
    exact holds choice.entry.id
  · have other : ¬ (choice.entry.id = id ∧ (Stop.ofEntry choice.entry).isSome) :=
      fun own => same own.1.symm
    have skipped := @stops_cons_skip id ⟨choice.entry, choice.serviceTime, pushed⟩
      processor.processed other
    rw [skipped, live_erase_skip other]
    by_cases born : id ≤ processor.uid
    · rw [others id same born, List.append_nil]
      exact holds id
    · have unborn := conserved.unborn (not_le.mp born)
      rw [conserved.unseen (not_le.mp born), unborn.2, List.nil_append]
      exact fresh id same (not_le.mp born)

theorem Related.silent_step (holds : Related related processor)
    (silent : (Stop.ofEntry choice.entry).isSome = false)
    (inHand : processor.take choice.entry = choice.entry) (servers : Int → Server) :
    Related related (processor.handled choice servers []) := by
  intro id
  simp only [Processor.handled, inHand, List.append_nil]
  have other : ¬ (choice.entry.id = id ∧ (Stop.ofEntry choice.entry).isSome) := by simp [silent]
  have skipped := @stops_cons_skip id ⟨choice.entry, choice.serviceTime, []⟩
    processor.processed other
  rw [skipped, live_erase_skip other]
  exact holds id

theorem Related.putBack (holds : Related related processor) {after : Processor}
    (pending : after.pending.Perm processor.pending)
    (tracked : ∀ id, Tracked graph (journey id processor.processed) (live id processor.pending))
    (processed : after.processed = processor.processed) : Related related after := by
  intro id
  have same : live id after.pending = live id processor.pending := by
    have perm : (live id after.pending).Perm (live id processor.pending) := pending.filter _
    cases lives : live id processor.pending with
    | nil =>
        rw [lives] at perm
        exact List.perm_nil.mp perm
    | cons entry rest =>
        have alone := (tracked id).unique (by rw [lives]; exact List.mem_cons_self)
        rw [lives] at alone perm
        rw [alone] at perm ⊢
        exact List.perm_singleton.mp perm
  rw [same, processed]
  exact holds id

theorem related_announced (rule : JobRule related) {uid : Nat} {pushed : List Entry}
    (announced : ∀ index, (bound : index < pushed.length) →
      Announced (uid + index) pushed[index]) (id : Nat) : related [] (live id pushed) := by
  induction pushed generalizing uid with
  | nil => exact rule.absent
  | cons head tail ih =>
      have first := announced 0 (by simp)
      have later : ∀ index, (bound : index < tail.length) →
          Announced (uid + 1 + index) tail[index] := by
        intro index bound
        have next := announced (index + 1) (by simpa using bound)
        rwa [show uid + (index + 1) = uid + 1 + index by omega] at next
      rw [Nat.add_zero, List.getElem_cons_zero] at first
      by_cases own : head.id = id ∧ (Stop.ofEntry head).isSome
      · have none : live id tail = [] := by
          refine live_none fun entry member mine => ?_
          obtain ⟨index, bound, rfl⟩ := List.getElem_of_mem member
          have idEq := (later index bound).id_eq
          have headId := first.id_eq
          omega
        rw [live_cons_self own.1 own.2, none]
        cases first with
        | admin time type kind =>
            rw [ofEntry_admin (generateAdminEventType uid time type) kind] at own
            cases own.2
        | arrival vertex startTime gap => exact rule.born _ _ _ _ (Int.natCast_nonneg vertex)
      · rw [live_cons_skip own]
        exact ih later

theorem Related.admin_step (holds : Related related processor) (rule : JobRule related)
    (conserved : Conserved graph processor) (dequeued : Dequeued processor choice)
    (origin : choice.entry.origin = adminEvent) :
    Related related ((processor.dequeue choice).admin graph config choice.entry choice.gap) := by
  obtain ⟨pushed, effect⟩ := admin_effect (admin_cases graph config
    (processor.dequeue choice) choice.entry choice.gap)
  have silent := conserved.admin_silent dequeued origin
  intro id
  have rest : live id (processor.pending.erase choice.entry) = live id processor.pending :=
    live_erase_skip (by simp [silent])
  have news := related_announced rule effect.announced id
  rw [effect.pending, effect.processed, live_append]
  simp only [dequeue]
  rw [rest]
  by_cases born : id ≤ processor.uid
  · have none : live id pushed = [] := by
      refine live_none fun entry member mine => ?_
      obtain ⟨index, bound, rfl⟩ := List.getElem_of_mem member
      have idEq := (effect.announced index bound).id_eq
      simp only [dequeue] at idEq
      omega
    rw [none, List.append_nil]
    exact holds id
  · have unseen := conserved.unseen (not_le.mp born)
    have unborn := conserved.unborn (not_le.mp born)
    rw [unseen, unborn.2, List.nil_append]
    exact news

theorem Related.arrival_step (holds : Related related processor) (rule : JobRule related)
    (conserved : Conserved graph processor) (consistent : Consistent config processor)
    (dequeued : Dequeued processor choice) (inHand : processor.take choice.entry = choice.entry)
    (type : choice.entry.type = lastArrivalEvent ∨ choice.entry.type = arrivalEvent)
    (servers : Int → Server) :
    Related related (processor.handled choice servers
      (processor.generated choice.entry choice.gap ++
        [(processor.arrived choice.entry choice).2])) := by
  have counted : (Stop.ofEntry choice.entry).isSome := by
    rw [ofEntry_arrival type]
    rfl
  have old := conserved.ids choice.entry dequeued.member
  have place : 0 ≤ choice.entry.destination := by
    have tracked := conserved.tracked choice.entry.id
    rw [conserved.alone dequeued counted] at tracked
    exact tracked.place type
  have schedules := consistent.schedules dequeued
  have scheduledId : (processor.arrived choice.entry choice).2.id = choice.entry.id :=
    arrived_id ..
  have scheduled : (Stop.ofEntry (processor.arrived choice.entry choice).2).isSome := by
    rw [ofEntry_departure schedules.type]
    rfl
  have noNew (id : Nat) (bound : id ≤ processor.uid) :
      live id (processor.generated choice.entry choice.gap) = [] := by
    refine live_none fun entry member own => ?_
    have idEq := generated_id member
    omega
  have noScheduled (id : Nat) (apart : id ≠ choice.entry.id) :
      live id [(processor.arrived choice.entry choice).2] = [] := by
    refine live_none fun entry member own => apart ?_
    rw [← own.1, List.mem_singleton.mp member, scheduledId]
  refine holds.handled_step conserved dequeued counted inHand servers _ (fun own => ?_)
    (fun id apart born => ?_) fun id apart unborn => ?_
  · rw [live_append, noNew _ old, List.nil_append, live_cons_self scheduledId scheduled]
    refine rule.arrival type schedules ?_ own
    rw [departures_arrival, if_pos rfl]
  · rw [live_append, noNew id born, noScheduled id apart]
    rfl
  · rw [live_append, noScheduled id apart, List.append_nil]
    unfold generated
    split
    · by_cases own : id = processor.uid + 1
      · rw [live_cons_self own.symm rfl]
        exact rule.born _ _ _ _ place
      · rw [live_cons_skip fun mine => own mine.1.symm]
        exact rule.absent
    · exact rule.absent

theorem Related.departure_step (holds : Related related processor) (rule : JobRule related)
    (conserved : Conserved graph processor) (dequeued : Dequeued processor choice)
    (inHand : processor.take choice.entry = choice.entry)
    (type : choice.entry.type = departureEvent) (servers : Int → Server) :
    Related related (processor.handled choice servers
      [(processor.departed graph choice.entry choice).2]) := by
  have counted : (Stop.ofEntry choice.entry).isSome := by
    rw [ofEntry_departure type]
    rfl
  have next : (processor.departed graph choice.entry choice).2 =
        (choice.entry.copy processor.uid).depart choice.selected arrivalEvent ∨
      (processor.departed graph choice.entry choice).2 =
        (choice.entry.copy processor.uid).acknowledge choice.entry.destination
          choice.entry.destination ackEvent := by
    rcases Nat.eq_zero_or_pos (graph.outDegree choice.entry.destination) with sink | inner
    · exact .inr (departureHandler_home _ _ _ _ _ sink)
    · exact .inl (departureHandler_onward _ _ _ _ _ inner)
  have nextId : (processor.departed graph choice.entry choice).2.id = choice.entry.id := by
    rw [departed, departureHandler_id]
  have nextCounted : (Stop.ofEntry (processor.departed graph choice.entry choice).2).isSome := by
    rcases next with onward | home
    · rw [onward, ofEntry_arrival (.inr rfl)]
      rfl
    · rw [home, ofEntry_ack rfl]
      rfl
  have noOther (id : Nat) (apart : id ≠ choice.entry.id) :
      live id [(processor.departed graph choice.entry choice).2] = [] := by
    refine live_none fun entry member own => apart ?_
    rw [← own.1, List.mem_singleton.mp member, nextId]
  refine holds.handled_step conserved dequeued counted inHand servers _ (fun own => ?_)
    (fun id apart _ => noOther id apart) fun id apart _ => ?_
  · rw [live_cons_self nextId nextCounted]
    exact rule.departure processor.uid choice.selected type next own
  · rw [noOther id apart]
    exact rule.absent

theorem Related.ack_step (holds : Related related processor) (rule : JobRule related)
    (conserved : Conserved graph processor) (dequeued : Dequeued processor choice)
    (inHand : processor.take choice.entry = choice.entry)
    (type : choice.entry.type = ackEvent) (servers : Int → Server) {pushed : List Entry}
    (answered : ackHandler graph config processor.uid choice.entry = some pushed) :
    Related related (processor.handled choice servers pushed) := by
  have counted : (Stop.ofEntry choice.entry).isSome := by
    rw [ofEntry_ack type]
    rfl
  rcases ackHandler_cases answered with ⟨noAck, _⟩ | ⟨_, destination, popped, copies, found, rfl, rest⟩
  · exact absurd type noAck
  obtain ⟨_, _, _, same⟩ := popEvent_fields found
  have nextId : (followUp processor.uid popped destination).id = choice.entry.id := by
    rw [followUp_id, same]
  have nextCounted : (Stop.ofEntry (followUp processor.uid popped destination)).isSome := by
    rcases followUp_type processor.uid popped destination with kind | kind
    · rw [ofEntry_leave kind]
      rfl
    · rw [ofEntry_ack kind]
      rfl
  have noCopies (id : Nat) : live id copies = [] := by
    refine live_none fun entry member own => ?_
    rcases rest with rfl | ⟨_, rfl⟩
    · cases member
    · obtain ⟨gid, source, rfl⟩ := mem_ackCopies member
      rw [ofEntry_copy rfl] at own
      cases own.2
  have noOther (id : Nat) (apart : id ≠ choice.entry.id) :
      live id (followUp processor.uid popped destination :: copies) = [] := by
    rw [live_cons_skip fun own => apart (own.1.symm.trans nextId), noCopies]
  refine holds.handled_step conserved dequeued counted inHand servers _ (fun own => ?_)
    (fun id apart _ => noOther id apart) fun id apart _ => ?_
  · rw [live_cons_self nextId nextCounted, noCopies]
    exact rule.ack processor.uid destination type found own
  · rw [noOther id apart]
    exact rule.absent

theorem Related.leave_step (holds : Related related processor) (rule : JobRule related)
    (conserved : Conserved graph processor) (dequeued : Dequeued processor choice)
    (inHand : processor.take choice.entry = choice.entry)
    (type : choice.entry.type = leaveEvent) (servers : Int → Server) :
    Related related (processor.handled choice servers []) := by
  have counted : (Stop.ofEntry choice.entry).isSome := by
    rw [ofEntry_leave type]
    rfl
  exact holds.handled_step conserved dequeued counted inHand servers [] (rule.leave type)
    (fun _ _ _ => rfl) fun _ _ _ => rule.absent

theorem Related.step (holds : Related related processor) (rule : JobRule related)
    (begun : 0 ≤ config.stopTime) (conserved : Conserved graph processor)
    (consistent : Consistent config processor)
    (stepped : Processor.step graph config processor choice = some next) :
    Related related next := by
  obtain ⟨dequeued, turn⟩ := step_cases stepped
  have inHand : processor.take choice.entry = choice.entry :=
    take_eq ((consistent.timed begun).future choice.entry dequeued.member)
  have back : (choice.entry :: processor.pending.erase choice.entry).Perm processor.pending :=
    (List.perm_cons_erase dequeued.member).symm
  cases turn with
  | admin origin =>
      rw [inHand] at origin ⊢
      exact holds.admin_step rule conserved dequeued origin
  | stop origin late =>
      rw [inHand]
      exact holds.putBack back conserved.tracked rfl
  | «break» origin inTime type empty => exact (conserved.no_break dequeued type empty).elim
  | arrival origin inTime type =>
      rw [inHand] at type ⊢
      exact holds.arrival_step rule conserved consistent dequeued inHand type _
  | departure origin inTime type =>
      rw [inHand] at type ⊢
      exact holds.departure_step rule conserved dequeued inHand type _
  | ack origin inTime type pushed answered =>
      rw [inHand] at type answered
      rcases type with type | type
      · exact holds.ack_step rule conserved dequeued inHand type _ answered
      · rcases ackHandler_cases answered with ⟨_, rfl⟩ | ⟨acks, _⟩
        · exact holds.silent_step (by rw [ofEntry_copy type]; rfl) inHand _
        · rw [type] at acks
          exact absurd acks (by decide)
  | other origin inTime type =>
      rw [inHand] at type
      by_cases leaves : choice.entry.type = leaveEvent
      · exact holds.leave_step rule conserved dequeued inHand leaves _
      · exact holds.silent_step (by rw [ofEntry_other type leaves]; rfl) inHand _

theorem start_related (rule : JobRule related) (config : Config) :
    Related related (start config) := by
  intro id
  have none : live id (start config).pending = [] := by
    refine live_none fun entry member own => ?_
    obtain ⟨uid, type, _, kind, rfl⟩ := start_pending member
    rw [ofEntry_admin (generateAdminEventType uid 0 type) kind] at own
    cases own.2
  rw [none]
  exact rule.absent

theorem run_each_job (rule : JobRule related) (begun : 0 ≤ config.stopTime)
    {choices : List Choice} {final : Processor}
    (ran : Runs.run (Processor.step graph config) (start config) choices = some final)
    (routed : Runs.Along (Processor.step graph config) (Routed graph) (start config) choices)
    (id : Nat) : related (stops id final.processed) (live id final.pending) := by
  have holds := Runs.run_invariant_along
    (fun state => Consistent config state ∧ Conserved graph state ∧ Related related state)
    (fun state choice next holds picks stepped =>
      ⟨holds.1.step stepped, holds.2.1.step picks stepped,
        holds.2.2.step rule begun holds.2.1 holds.1 stepped⟩)
    ⟨start_consistent config, start_conserved graph config, start_related rule config⟩ routed ran
  exact holds.2.2 id

end Processor

end RlAqs
