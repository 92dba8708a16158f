import RlAqs.Queue.SessionPast
import RlAqs.Simulator.ProcessorCases
import RlAqs.Simulator.QueuedCore

/-!
What the pushes of a turn and the loop of the post event do to the queue. The handlers push one
entry after the other, so whatever a push keeps is kept by all of them.
-/

namespace RlAqs

namespace Processor

open Handlers

/-! `Processor.admin` in its four handlers. -/

section admin

variable (graph : Graph) (config : Config) (entry : Entry) (gap : Int → ℚ≥0)
  (processor : Processor)

def serialise : Processor :=
  let (currentTimeStep, serialised) :=
    serialiseArrivalsHandler config processor.currentTimeStep processor.uid entry
  { processor with currentTimeStep := currentTimeStep }.push serialised

def generate : Processor :=
  processor.push (generateArrivalsAdminHandler graph processor.uid entry gap)

def log : Processor :=
  let (counter, logged) := logGraphHandler config processor.counter processor.uid entry
  { processor with counter := counter }.push logged

def observe : Processor :=
  processor.push (rollingSystemStatsAdminHandler config processor.uid entry)

theorem admin_eq : processor.admin graph config entry gap =
    ((((processor.serialise config entry).generate graph entry gap).log config entry).observe
      config entry) := rfl

end admin

end Processor

namespace QueuedLoop

open Handlers

variable {graph : Graph} {config : Config} {loop next : QueuedLoop} {entries : List Entry}

inductive Enqueued : QueuedLoop → List Entry → QueuedLoop → Prop
  | done (loop : QueuedLoop) : Enqueued loop [] loop
  | counted (loop : QueuedLoop) (counter currentTimeStep : Nat) {entries : List Entry}
      {next : QueuedLoop}
      (later : Enqueued { loop with counter := counter, currentTimeStep := currentTimeStep }
        entries next) : Enqueued loop entries next
  | pushed (loop : QueuedLoop) (entry : Entry) (queue : LadderQueue) {entries : List Entry}
      {next : QueuedLoop}
      (called : loop.session.call (.push entry) = some (loop.accept entry queue).session)
      (later : Enqueued (loop.accept entry queue) entries next) :
      Enqueued loop (entry :: entries) next

theorem Enqueued.append {middle : QueuedLoop} {others : List Entry}
    (first : Enqueued loop entries middle) (second : Enqueued middle others next) :
    Enqueued loop (entries ++ others) next := by
  induction first with
  | done loop => exact second
  | counted loop counter currentTimeStep later ih => exact .counted loop _ _ (ih second)
  | pushed loop entry queue called later ih => exact .pushed loop entry queue called (ih second)

structure Enqueued.Fields (loop : QueuedLoop) (entries : List Entry) (next : QueuedLoop) :
    Prop where
  accepted : next.session.accepted = loop.session.accepted ++ entries
  dequeued : next.session.dequeued = loop.session.dequeued
  servers : next.servers = loop.servers
  uid : next.uid = loop.uid + entries.length
  oldTime : next.oldTime = loop.oldTime
  returned : next.returned = loop.returned
  processed : next.processed = loop.processed
  administered : next.administered = loop.administered
  unprocessed : next.unprocessed = loop.unprocessed
  corrected : next.corrected = loop.corrected
  undisturbed : next.undisturbed = true → loop.undisturbed = true
  unmixed : next.unmixed = true → loop.unmixed = true

theorem Enqueued.fields (enqueued : Enqueued loop entries next) :
    Enqueued.Fields loop entries next := by
  induction enqueued with
  | done loop =>
      exact ⟨(List.append_nil _).symm, rfl, rfl, rfl, rfl, rfl, rfl, rfl, rfl, rfl, id, id⟩
  | counted loop counter currentTimeStep later ih => exact { ih with }
  | pushed loop entry queue called later ih =>
      refine { ih with accepted := ?_, uid := ?_, undisturbed := ?_, unmixed := ?_ }
      · rw [ih.accepted]
        simp [accept]
      · rw [ih.uid, List.length_cons]
        simp only [accept]
        omega
      · intro kept
        exact (Bool.and_eq_true _ _ ▸ ih.undisturbed kept).1
      · intro kept
        exact (Bool.and_eq_true _ _ ▸ ih.unmixed kept).1

theorem Enqueued.accounted (enqueued : Enqueued loop entries next)
    (accounted : loop.session.Accounted) : next.session.Accounted := by
  induction enqueued with
  | done loop => exact accounted
  | counted loop counter currentTimeStep later ih => exact ih accounted
  | pushed loop entry queue called later ih => exact ih (accounted.next called)

theorem Enqueued.held (enqueued : Enqueued loop entries next)
    (accounted : loop.session.Accounted) :
    next.session.queue.held = loop.session.queue.held + entries := by
  have before := accounted.balance
  have after := (enqueued.accounted accounted).balance
  rw [enqueued.fields.accepted, enqueued.fields.dequeued, ← Multiset.coe_add, before,
    add_right_comm] at after
  exact (add_right_cancel after).symm

theorem Enqueued.lastEvent (enqueued : Enqueued loop entries next)
    (accounted : loop.session.Accounted) :
    next.session.queue.bottom.lastEvent = loop.session.queue.bottom.lastEvent := by
  induction enqueued with
  | done loop => rfl
  | counted loop counter currentTimeStep later ih => exact ih accounted
  | pushed loop entry queue called later ih =>
      rw [ih (accounted.next called)]
      rcases Session.call_push_cases accounted.valid entry with
        ⟨refused, _⟩ | ⟨pushed, facts, taken⟩
      · rw [called, Option.some.injEq] at refused
        rw [refused]
      · rw [called, Option.some.injEq] at taken
        rw [taken]
        exact facts.lastEvent

theorem Enqueued.ordered (enqueued : Enqueued loop entries next)
    (ordered : loop.session.Ordered) (undisturbed : next.undisturbed = true)
    (onTime : ∀ entry ∈ entries, loop.session.OnTime (.push entry)) : next.session.Ordered := by
  induction enqueued with
  | done loop => exact ordered
  | counted loop counter currentTimeStep later ih => exact ih ordered undisturbed onTime
  | pushed loop entry queue called later ih =>
      have first := later.fields.undisturbed undisturbed
      simp only [accept, Bool.and_eq_true, decide_eq_true_eq] at first
      have kept := ordered.call (onTime entry List.mem_cons_self) first.2 called
      exact ih kept.1 undisturbed fun other member => onTime other (List.mem_cons_of_mem _ member)

/-- Every entry constructed so far went into the queue, in the order of construction. -/
def Numbered (loop : QueuedLoop) : Prop :=
  loop.session.accepted.map Entry.gid = List.range' 1 loop.uid

def Fresh (uid : Nat) (entries : List Entry) : Prop :=
  entries.map Entry.gid = List.range' (uid + 1) entries.length

theorem Enqueued.numbered (enqueued : Enqueued loop entries next) (numbered : loop.Numbered)
    (fresh : Fresh loop.uid entries) : next.Numbered := by
  rw [Numbered, enqueued.fields.accepted, enqueued.fields.uid, List.map_append, numbered, fresh,
    Nat.add_comm loop.uid 1, List.range'_append_1]

theorem Enqueued.stable (enqueued : Enqueued loop entries next) (stable : loop.session.Stable)
    (unmixed : next.unmixed = true) (numbered : loop.Numbered)
    (fresh : Fresh loop.uid entries) : next.session.Stable := by
  induction enqueued with
  | done loop => exact stable
  | counted loop counter currentTimeStep later ih => exact ih stable unmixed numbered fresh
  | pushed loop entry queue called later ih =>
      have first := later.fields.unmixed unmixed
      simp only [accept, Bool.and_eq_true, decide_eq_true_eq] at first
      simp only [Fresh, List.map_cons, List.length_cons, List.range'_succ, List.cons.injEq]
        at fresh
      have newest : loop.session.Newest (.push entry) := by
        intro x member
        have listed := List.mem_map_of_mem (f := Entry.gid) member
        rw [numbered, List.mem_range'_1] at listed
        rw [fresh.1]
        omega
      have one := Enqueued.pushed loop entry queue called (.done _)
      refine ih (stable.call newest first.2 called) unmixed (one.numbered numbered ?_) fresh.2
      simp [Fresh, fresh.1]

/-! One handler. -/

theorem push_cases (accounted : loop.session.Accounted) (entries : List Entry) :
    (loop.push entries = .error (.thrown .pastEventNotAllowed) ∧
        ∃ entry ∈ entries, entry.arrival < loop.session.queue.bottom.lastEvent) ∨
      ∃ next, loop.push entries = .ok next ∧ Enqueued loop entries next ∧
        ∀ pending stopped, (loop.processor pending stopped).push entries =
          next.processor (pending ++ entries) stopped := by
  induction entries generalizing loop with
  | nil => exact .inr ⟨loop, rfl, .done loop, fun _ _ => by simp⟩
  | cons entry rest ih =>
      rcases accounted.valid.push_cases entry with ⟨refused, past⟩ | ⟨queue, pushed, facts⟩
      · exact .inl ⟨by simp only [push, refused], entry, List.mem_cons_self, past⟩
      have called : loop.session.call (.push entry) = some (loop.accept entry queue).session := by
        simp only [Session.call, pushed, accept]
      have unfolded : loop.push (entry :: rest) = (loop.accept entry queue).push rest := by
        simp only [push, pushed]
      rw [unfolded]
      have lastEvent : (loop.accept entry queue).session.queue.bottom.lastEvent =
          loop.session.queue.bottom.lastEvent := facts.lastEvent
      rcases ih (accounted.next called) with ⟨refused, other, member, past⟩ | ⟨next, taken, enqueued, same⟩
      · rw [lastEvent] at past
        exact .inl ⟨refused, other, List.mem_cons_of_mem _ member, past⟩
      · refine .inr ⟨next, taken, .pushed loop entry queue called enqueued, fun pending stopped => ?_⟩
        have later := same (pending ++ [entry]) stopped
        simp only [List.append_assoc, List.singleton_append] at later
        rw [← later]
        simp [Processor.push, processor, accept, Nat.add_comm, Nat.add_left_comm]

/-! The entries of a handler are new. -/

@[simp] theorem fresh_nil (uid : Nat) : Fresh uid [] := rfl

theorem fresh_singleton {uid : Nat} {entry : Entry} :
    Fresh uid [entry] ↔ entry.gid = uid + 1 := by
  simp [Fresh]

theorem Fresh.append {uid : Nat} {first second : List Entry} (old : Fresh uid first)
    (new : Fresh (uid + first.length) second) : Fresh uid (first ++ second) := by
  rw [Fresh, List.map_append, old, new, List.length_append, ← List.range'_append_1]
  congr 2
  omega

theorem fresh_map_range {uid count : Nat} {create : Nat → Entry}
    (numbered : ∀ index, (create index).gid = uid + index + 1) :
    Fresh uid ((List.range count).map create) := by
  rw [Fresh, List.map_map, List.length_map, List.length_range, List.range'_eq_map_range]
  apply List.map_congr_left
  intro index _
  rw [Function.comp_apply, numbered]
  omega

theorem fresh_mapIdx {α : Type*} {uid : Nat} {create : Nat → α → Entry} (items : List α)
    (numbered : ∀ index item, (create index item).gid = uid + index + 1) :
    Fresh uid (items.mapIdx create) := by
  rw [Fresh, List.length_mapIdx]
  apply List.ext_getElem (by simp)
  intro index _ _
  simp only [List.getElem_map, List.getElem_mapIdx, numbered, List.getElem_range']
  omega

section handlers

variable (uid : Nat) (entry : Entry)

theorem fresh_serialised (currentTimeStep : Nat) :
    Fresh uid (serialiseArrivalsHandler config currentTimeStep uid entry).2 := by
  unfold serialiseArrivalsHandler
  split
  · exact fresh_singleton.mpr rfl
  · exact fresh_nil uid

theorem fresh_generateArrivals (gap : Int → ℚ≥0) :
    Fresh uid (generateArrivalsAdminHandler graph uid entry gap) := by
  unfold generateArrivalsAdminHandler
  split
  · exact fresh_map_range fun _ => rfl
  · exact fresh_nil uid

theorem fresh_logged (counter : Nat) :
    Fresh uid (logGraphHandler config counter uid entry).2 := by
  unfold logGraphHandler
  split
  · dsimp only
    split
    · exact fresh_singleton.mpr rfl
    · exact fresh_nil uid
  · exact fresh_nil uid

theorem fresh_rolled : Fresh uid (rollingSystemStatsAdminHandler config uid entry) := by
  unfold rollingSystemStatsAdminHandler
  split
  · dsimp only
    split
    · exact fresh_singleton.mpr rfl
    · exact fresh_nil uid
  · exact fresh_nil uid

theorem fresh_answered {pushed : List Entry}
    (answered : ackHandler graph config uid entry = some pushed) : Fresh uid pushed := by
  rcases ackHandler_cases answered with
    ⟨_, rfl⟩ | ⟨_, destination, popped, copies, _, rfl, rest⟩
  · exact fresh_nil uid
  have first : Fresh uid [followUp uid popped destination] := by
    refine fresh_singleton.mpr ?_
    unfold followUp
    split <;> rfl
  have second : Fresh (uid + 1) copies := by
    rcases rest with rfl | ⟨_, rfl⟩
    · exact fresh_nil _
    · exact fresh_mapIdx _ fun _ _ => rfl
  exact first.append second

end handlers

theorem fresh_handled {processor : Processor} {entry : Entry} {choice : Choice}
    {servers : Int → Server} {pushed : List Entry}
    (handled : processor.handle graph config entry choice = some (servers, pushed)) :
    Fresh processor.uid pushed := by
  unfold Processor.handle at handled
  dsimp only at handled
  split at handled
  · cases handled
    refine Fresh.append ?_ (fresh_singleton.mpr ?_)
    · split
      · exact fresh_singleton.mpr rfl
      · exact fresh_nil _
    · exact arrivalHandler_gid ..
  split at handled
  · cases handled
    exact fresh_singleton.mpr (departureHandler_gid ..)
  split at handled
  · simp only [Option.bind_eq_some_iff, Option.map_eq_some_iff, Prod.mk.injEq] at handled
    obtain ⟨_, _, _, answered, _, rfl⟩ := handled
    exact fresh_answered _ _ answered
  · cases handled
    exact fresh_nil _

/-! The admin handlers one after the other. -/

/-- The pushes of a handler do to the loop what `handler` does to the processor, unless one of
them is refused. -/
def Matches (loop : QueuedLoop) (result : Except Failure QueuedLoop)
    (handler : Processor → Processor) : Prop :=
  (result = .error (.thrown .pastEventNotAllowed) ∧
      ∀ pending stopped, ∃ pushed ∈ (handler (loop.processor pending stopped)).pending,
        pushed.arrival < loop.session.queue.bottom.lastEvent) ∨
    ∃ next pushed, result = .ok next ∧ Enqueued loop pushed next ∧ Fresh loop.uid pushed ∧
      ∀ pending stopped, handler (loop.processor pending stopped) =
        next.processor (pending ++ pushed) stopped

theorem matches_push (accounted : loop.session.Accounted) {entries : List Entry}
    {counter currentTimeStep : Nat} {handler : Processor → Processor}
    (fresh : Fresh loop.uid entries)
    (same : ∀ pending stopped, handler (loop.processor pending stopped) =
      ({ loop with counter := counter, currentTimeStep := currentTimeStep }.processor pending
        stopped).push entries) :
    Matches loop
      ({ loop with counter := counter, currentTimeStep := currentTimeStep }.push entries)
      handler := by
  rcases @push_cases { loop with counter := counter, currentTimeStep := currentTimeStep }
      accounted entries with ⟨refused, other, member, past⟩ | ⟨next, taken, enqueued, pushed⟩
  · refine .inl ⟨refused, fun pending stopped => ⟨other, ?_, past⟩⟩
    rw [same]
    exact List.mem_append_right _ member
  · refine .inr ⟨next, entries, taken, .counted loop _ _ enqueued, fresh, fun pending stopped => ?_⟩
    rw [same, pushed]

theorem Matches.bind (handler after : Processor → Processor) {result : Except Failure QueuedLoop}
    {later : QueuedLoop → Except Failure QueuedLoop} (first : Matches loop result handler)
    (accounted : loop.session.Accounted)
    (second : ∀ next : QueuedLoop, next.session.Accounted → Matches next (later next) after)
    (kept : ∀ processor, ∀ entry ∈ processor.pending, entry ∈ (after processor).pending) :
    Matches loop (result >>= later) (fun processor => after (handler processor)) := by
  rcases first with ⟨rfl, past⟩ | ⟨middle, pushed, rfl, enqueued, fresh, same⟩
  · refine .inl ⟨rfl, fun pending stopped => ?_⟩
    obtain ⟨entry, member, before⟩ := past pending stopped
    exact ⟨entry, kept _ _ member, before⟩
  have middleAccounted := enqueued.accounted accounted
  rcases second middle middleAccounted with
    ⟨refused, past⟩ | ⟨next, more, taken, enqueuedNext, freshNext, sameNext⟩
  · refine .inl ⟨refused, fun pending stopped => ?_⟩
    obtain ⟨entry, member, before⟩ := past (pending ++ pushed) stopped
    rw [enqueued.lastEvent accounted] at before
    refine ⟨entry, ?_, before⟩
    simp only [same]
    exact member
  · refine .inr ⟨next, pushed ++ more, taken, enqueued.append enqueuedNext, ?_, fun _ _ => ?_⟩
    · rw [enqueued.fields.uid] at freshNext
      exact fresh.append freshNext
    · simp only [same, sameNext, List.append_assoc]

theorem mem_push {processor : Processor} {entry : Entry} (entries : List Entry)
    (member : entry ∈ processor.pending) : entry ∈ (processor.push entries).pending :=
  List.mem_append_left _ member

theorem admin_matches (graph : Graph) (config : Config) (accounted : loop.session.Accounted)
    (entry : Entry) (gap : Int → ℚ≥0) :
    Matches loop (loop.admin graph config entry gap)
      fun processor => processor.admin graph config entry gap := by
  simp only [Processor.admin_eq]
  refine Matches.bind (fun processor => processor.serialise config entry)
    (fun processor =>
      ((processor.generate graph entry gap).log config entry).observe config entry)
    ?_ accounted (fun loop accounted => ?_) fun _ _ member => ?_
  · exact matches_push accounted (fresh_serialised ..) fun _ _ => rfl
  · refine Matches.bind (fun processor => processor.generate graph entry gap)
      (fun processor => (processor.log config entry).observe config entry)
      ?_ accounted (fun loop accounted => ?_) fun _ _ member => ?_
    · exact matches_push accounted (fresh_generateArrivals ..) fun _ _ => rfl
    · refine Matches.bind (fun processor => processor.log config entry)
        (fun processor => processor.observe config entry)
        ?_ accounted (fun loop accounted => ?_) fun _ _ member => ?_
      · exact matches_push accounted (fresh_logged ..) fun _ _ => rfl
      · exact matches_push accounted (fresh_rolled ..) fun _ _ => rfl
      · exact mem_push _ member
    · exact mem_push _ (mem_push _ member)
  · exact mem_push _ (mem_push _ (mem_push _ member))

/-! The loop of the post event. -/

theorem drain_spec {session : Session} (accounted : session.Accounted) {fuel : Nat}
    (enough : session.queue.size < fuel) :
    ∃ drained final, session.drain fuel = some (drained, .ok final) ∧ final.Accounted ∧
      (drained : Multiset Entry) = session.queue.held ∧ final.queue.held = 0 ∧
      final.accepted = session.accepted ∧ final.dequeued = session.dequeued ++ drained ∧
      (session.Ordered → final.Ordered) ∧ (session.Stable → final.Stable) := by
  induction fuel generalizing session with
  | zero => omega
  | succ fuel ih =>
      rcases Session.call_dequeue_cases accounted.valid with
        ⟨_, empty, none⟩ | ⟨middle, first, rest, served, list, taken, called⟩
      · have nothing : session.queue.held = 0 := by
          rw [accounted.valid.size_eq] at none
          exact Multiset.card_eq_zero.mp none
        refine ⟨[], session, ?_, accounted, ?_, nothing, rfl, ?_, id, id⟩
        · simp only [Session.drain, empty]
        · rw [nothing]
          rfl
        · exact (List.append_nil _).symm
      · have nextAccounted : (session.handOut first (middle.popped first rest)).Accounted :=
          accounted.next called
        have valid : (middle.popped first rest).Valid := nextAccounted.valid
        have content : first ::ₘ (middle.popped first rest).held = session.queue.held := by
          rw [LadderQueue.popped_held list, served.held accounted.valid]
        have smaller : (middle.popped first rest).size < fuel := by
          have cards := congrArg Multiset.card content
          rw [Multiset.card_cons, ← accounted.valid.size_eq, ← valid.size_eq] at cards
          omega
        obtain ⟨drained, final, ran, done, same, nothing, accepted, dequeued, ordered, stable⟩ :=
          ih nextAccounted smaller
        refine ⟨first :: drained, final, ?_, done, ?_, nothing, accepted, ?_, fun before => ?_,
          fun before => ?_⟩
        · simp only [Session.drain, taken, ran, Option.map_some]
        · rw [← Multiset.cons_coe, same]
          exact content
        · rw [dequeued]
          simp [Session.handOut]
        · exact ordered (@Session.Ordered.call _ _ .dequeue before trivial trivial called).1
        · exact stable (@Session.Stable.call _ _ .dequeue before trivial trivial called)

end QueuedLoop

end RlAqs
