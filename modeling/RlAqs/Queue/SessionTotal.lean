import RlAqs.Queue.LadderQueueStages
import RlAqs.Queue.SessionCore
import RlAqs.Library.Runs

/-! Any sequence of calls goes through, and no event is lost on the way. -/

namespace RlAqs

namespace Session

structure Accounted (session : Session) : Prop where
  valid : session.queue.Valid
  balance : (session.accepted : Multiset Entry) =
    session.queue.held + (session.dequeued : Multiset Entry)

theorem Accounted.pending_eq {session : Session} (accounted : session.Accounted) :
    session.pending = session.queue.held := by
  rw [pending, accounted.balance]
  exact add_tsub_cancel_right _ _

section Cases

variable {session : Session} (valid : session.queue.Valid)

include valid

theorem call_push_cases (entry : Entry) :
    (session.call (.push entry) = some session ∧
        entry.arrival < session.queue.bottom.lastEvent) ∨
      ∃ next, LadderQueue.Pushed session.queue entry next ∧
        session.call (.push entry) =
          some { session with queue := next, accepted := session.accepted ++ [entry] } := by
  rcases valid.push_cases entry with ⟨refused, past⟩ | ⟨next, accepted, pushed⟩
  · exact .inl ⟨by simp only [call, refused], past⟩
  · exact .inr ⟨next, pushed, by simp only [call, accepted]⟩

theorem call_dequeue_cases :
    (session.call .dequeue = some session ∧ session.queue.dequeue = (.ok none, session.queue) ∧
        session.queue.size = 0) ∨
      ∃ middle first rest, LadderQueue.Served session.queue middle ∧
        middle.bottom.list = first :: rest ∧
        session.queue.dequeue = (.ok (some first), middle.popped first rest) ∧
        session.call .dequeue =
          some { session with
            queue := middle.popped first rest
            dequeued := session.dequeued ++ [first] } := by
  rcases valid.dequeue_cases with ⟨empty, size⟩ | ⟨middle, first, rest, served, list, taken⟩
  · exact .inl ⟨by simp only [call, empty], empty, size⟩
  · exact .inr ⟨middle, first, rest, served, list, taken, by simp only [call, taken]⟩

end Cases

theorem init_accounted : init.Accounted where
  valid := LadderQueue.init_valid
  balance := by
    have empty : LadderQueue.init.held = 0 := by decide
    simp [init, empty]

theorem Accounted.call {session : Session} (accounted : session.Accounted) (action : Call) :
    ∃ next, session.call action = some next ∧ next.Accounted := by
  have balance := accounted.balance
  cases action with
  | push entry =>
      rcases call_push_cases accounted.valid entry with ⟨refused, _⟩ | ⟨next, pushed, accepted⟩
      · exact ⟨session, refused, accounted⟩
      · refine ⟨_, accepted, pushed.valid accounted.valid, ?_⟩
        simp only
        rw [← Multiset.coe_add, balance, pushed.held accounted.valid, Multiset.coe_singleton,
          Multiset.cons_add, add_comm, Multiset.singleton_add]
  | dequeue =>
      rcases call_dequeue_cases accounted.valid with
        ⟨empty, _, _⟩ | ⟨middle, first, rest, served, list, _, taken⟩
      · exact ⟨session, empty, accounted⟩
      · refine ⟨_, taken, (served.valid accounted.valid).popped list, ?_⟩
        simp only
        rw [balance, ← served.held accounted.valid, ← LadderQueue.popped_held list,
          ← Multiset.coe_add, Multiset.coe_singleton, Multiset.cons_add, add_comm,
          ← Multiset.singleton_add]
        abel

theorem Accounted.next {session next : Session} {action : Call} (accounted : session.Accounted)
    (called : session.call action = some next) : next.Accounted := by
  obtain ⟨result, same, kept⟩ := accounted.call action
  rw [called, Option.some.injEq] at same
  rwa [same]

theorem run_accounted (calls : List Call) :
    ∃ session, Runs.run call init calls = some session ∧ session.Accounted :=
  Runs.run_total (fun _ _ => True)
    (fun _ action accounted _ => accounted.call action) init_accounted
    (Runs.along_true init calls)

theorem Accounted.size_eq {session : Session} (accounted : session.Accounted) :
    session.queue.size + session.dequeued.length = session.accepted.length := by
  have cards := congrArg Multiset.card accounted.balance
  rw [Multiset.card_add, Multiset.coe_card, Multiset.coe_card] at cards
  rw [accounted.valid.size_eq, cards]

end Session

end RlAqs
