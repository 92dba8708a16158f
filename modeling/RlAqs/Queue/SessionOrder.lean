import RlAqs.Queue.LadderQueueOrder
import RlAqs.Queue.SessionTotal

/-! The order in which a session is served. -/

namespace RlAqs

namespace Session

def OnTime (session : Session) : Call → Prop
  | .push entry => 0 ≤ entry.arrival ∧ ∀ last ∈ session.dequeued.getLast?,
      last.arrival ≤ entry.arrival
  | .dequeue => True

def Undisturbed (session : Session) : Call → Prop
  | .push entry => session.queue.Undisturbed entry.arrival
  | .dequeue => True

instance (session : Session) : DecidablePred session.OnTime
  | .push _ => inferInstanceAs (Decidable (_ ∧ _))
  | .dequeue => inferInstanceAs (Decidable True)

instance (session : Session) : DecidablePred session.Undisturbed
  | .push _ => inferInstanceAs (Decidable (LadderQueue.Undisturbed _ _))
  | .dequeue => inferInstanceAs (Decidable True)

def ServesEarliest (session : Session) : Prop :=
  ∀ entry, session.queue.dequeue.1 = .ok (some entry) →
    ∀ x ∈ session.pending, entry.arrival ≤ x.arrival

structure Ordered (session : Session) : Prop where
  accounted : session.Accounted
  queue : session.queue.Ordered
  served : session.dequeued.Pairwise fun x y => x.arrival ≤ y.arrival
  past : ∀ x ∈ session.dequeued, x.arrival ≤ session.queue.bottom.lastEvent
  last : session.queue.bottom.lastEvent = (session.dequeued.getLast?.map Entry.arrival).getD 0

theorem init_ordered : init.Ordered where
  accounted := init_accounted
  queue := LadderQueue.init_ordered
  served := List.Pairwise.nil
  past := fun _ member => absurd member List.not_mem_nil
  last := rfl

theorem Ordered.fresh {session : Session} (ordered : session.Ordered) {entry : Entry}
    (onTime : session.OnTime (.push entry)) :
    session.queue.bottom.lastEvent ≤ entry.arrival := by
  rw [ordered.last]
  cases last : session.dequeued.getLast? with
  | none => exact onTime.1
  | some x => exact onTime.2 x last

theorem Ordered.servesEarliest {session : Session} (ordered : session.Ordered) :
    session.ServesEarliest := by
  intro entry dequeued x member
  have valid := ordered.accounted.valid
  rw [ordered.accounted.pending_eq] at member
  rcases call_dequeue_cases valid with
    ⟨_, empty, _⟩ | ⟨middle, first, rest, served, list, taken, _⟩
  · rw [empty] at dequeued
    exact absurd dequeued (by simp)
  · rw [taken] at dequeued
    obtain rfl : first = entry := by simpa using dequeued
    rw [← served.held valid] at member
    exact (served.ordered valid ordered.queue).first_le (served.valid valid) list member

theorem Ordered.call {session next : Session} {action : Call} (ordered : session.Ordered)
    (onTime : session.OnTime action) (undisturbed : session.Undisturbed action)
    (called : session.call action = some next) :
    next.Ordered ∧ next.accepted = session.accepted ++ pushes [action] := by
  have valid := ordered.accounted.valid
  have accounted := ordered.accounted.next called
  cases action with
  | push entry =>
      rcases call_push_cases valid entry with ⟨_, past⟩ | ⟨queue, pushed, accepted⟩
      · exact absurd (ordered.fresh onTime) (not_le.mpr past)
      · rw [called, Option.some.injEq] at accepted
        subst accepted
        have kept := pushed.ordered valid ordered.queue (ordered.fresh onTime) undisturbed
        refine ⟨⟨accounted, kept, ordered.served, ?_, ?_⟩, rfl⟩
        · intro x member
          rw [pushed.lastEvent]
          exact ordered.past x member
        · rw [pushed.lastEvent]
          exact ordered.last
  | dequeue =>
      rcases call_dequeue_cases valid with
        ⟨empty, _, _⟩ | ⟨middle, first, rest, served, list, _, taken⟩
      · rw [called, Option.some.injEq] at empty
        subst empty
        exact ⟨ordered, (List.append_nil _).symm⟩
      · rw [called, Option.some.injEq] at taken
        subst taken
        have middleOrdered := served.ordered valid ordered.queue
        have member : first ∈ session.queue.held := by
          rw [← served.held valid, ← LadderQueue.popped_held list]
          exact Multiset.mem_cons_self first _
        have late := ordered.queue.future first member
        refine ⟨⟨accounted, middleOrdered.popped (served.valid valid) list, ?_, ?_, ?_⟩,
          (List.append_nil _).symm⟩
        · refine List.pairwise_append.mpr ⟨ordered.served, List.pairwise_singleton _ _, ?_⟩
          intro x before y final
          rw [List.mem_singleton.mp final]
          exact (ordered.past x before).trans late
        · intro x inside
          rcases List.mem_append.mp inside with before | final
          · exact (ordered.past x before).trans late
          · rw [List.mem_singleton.mp final]
            exact le_refl _
        · simp [LadderQueue.popped]

theorem Ordered.run {session final : Session} {calls : List Call} (ordered : session.Ordered)
    (along : Runs.Along Session.call
      (fun session action => session.OnTime action ∧ session.Undisturbed action) session calls)
    (ran : Runs.run Session.call session calls = some final) :
    final.Ordered ∧ final.accepted = session.accepted ++ pushes calls := by
  induction calls generalizing session with
  | nil =>
      simp only [Runs.run_nil, Option.some.injEq] at ran
      subst ran
      exact ⟨ordered, (List.append_nil _).symm⟩
  | cons action rest ih =>
      simp only [Runs.run_cons, Option.bind_eq_some_iff] at ran
      obtain ⟨next, called, later⟩ := ran
      obtain ⟨kept, accepted⟩ := ordered.call along.1.1 along.1.2 called
      obtain ⟨done, whole⟩ := ih kept (along.2 next called) later
      refine ⟨done, ?_⟩
      rw [whole, accepted, List.append_assoc]
      simp only [pushes, ← List.filterMap_append, List.singleton_append]

/-- A run of timely and undisturbed calls accepts every event and serves the earliest first. -/
theorem run_serves_earliest (calls : List Call) (session : Session)
    (along : Runs.Along call
      (fun session action => session.OnTime action ∧ session.Undisturbed action) init calls)
    (ran : Runs.run call init calls = some session) :
    session.accepted = pushes calls ∧ session.ServesEarliest ∧
      session.dequeued.Pairwise fun x y => x.arrival ≤ y.arrival := by
  obtain ⟨ordered, accepted⟩ := init_ordered.run along ran
  exact ⟨accepted, ordered.servesEarliest, ordered.served⟩

def pushAt (uid : Nat) (arrival : ℚ) : Call := .push (Entry.new uid 0 arrival 0 0 0)

theorem run_serves_earliest_three :
    ∃ session, Runs.run call init [pushAt 0 0, pushAt 1 100, .dequeue, pushAt 2 50] =
      some session ∧ session.ServesEarliest := by
  obtain ⟨session, ran, _⟩ := run_accounted [pushAt 0 0, pushAt 1 100, .dequeue, pushAt 2 50]
  refine ⟨session, ran, (run_serves_earliest _ session ?_ ran).2.1⟩
  exact Runs.along_of_check (by decide +kernel)

/-- Fifty events overflow the bottom into the ladder, fifty-one earlier ones follow them to a
new rung that does not reach back to them, and one between them is taken by the ladder. -/
def overtaking : List Call :=
  [pushAt 0 0, pushAt 1 100, .dequeue] ++
    (List.range 50).map (fun index => pushAt (2 + index) 10) ++
    (List.range 51).map (fun index => pushAt (60 + index) 1) ++ [pushAt 200 7]

theorem overtaking_serves_late :
    ¬ ∀ (calls : List Call) (session : Session), Runs.Along call OnTime init calls →
      Runs.run call init calls = some session →
      session.ServesEarliest ∧
        session.dequeued.Pairwise fun x y => x.arrival ≤ y.arrival := by
  intro all
  obtain ⟨session, ran, _⟩ := run_accounted overtaking
  have onTime : Runs.Along call OnTime init overtaking :=
    Runs.along_of_check (by decide +kernel)
  have served : (Runs.run call init overtaking).map (fun session =>
      (session.queue.dequeue.1,
        decide (Entry.new 60 0 1 0 0 0 ∈ session.pending))) =
      some (.ok (some (Entry.new 200 0 7 0 0 0)), true) := by decide +kernel
  rw [ran] at served
  simp only [Option.map_some, Option.some.injEq, Prod.mk.injEq, decide_eq_true_eq] at served
  have earliest := (all overtaking session onTime ran).1 _ served.1 _ served.2
  exact absurd earliest (by decide)

end Session

end RlAqs
