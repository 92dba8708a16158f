import RlAqs.Queue.SessionOrder

/-!
Which pushes of a session are refused. The check for past events is made by the bottom alone, so
the ladder takes such an event where its lowest rung reaches back behind the last one served.
-/

namespace RlAqs

namespace LadderQueue

/-- A past event that the ladder takes before the bottom sees it. -/
def Overlooks (queue : LadderQueue) (ts : ℚ) : Prop :=
  ts < queue.bottom.lastEvent ∧ ¬queue.InBottom ts ∧ queue.ladder.Takes ts

instance (queue : LadderQueue) (ts : ℚ) : Decidable (queue.Overlooks ts) :=
  inferInstanceAs (Decidable (_ ∧ _))

theorem Valid.push_of_takes {queue : LadderQueue} (valid : queue.Valid) {entry : Entry}
    (early : entry.arrival < queue.top.getTopStart) (outside : ¬queue.InBottom entry.arrival)
    (takes : queue.ladder.Takes entry.arrival) : (queue.push entry).1 = .ok true := by
  simp only [InBottom] at outside
  simp only [push, ge_iff_le, not_le.mpr early, outside, valid.ladder.push_eq takes, ↓reduceIte]

end LadderQueue

namespace Session

def Past (session : Session) (entry : Entry) : Prop :=
  ∃ last ∈ session.dequeued.getLast?, entry.arrival < last.arrival

structure RejectsPast (session : Session) (entry : Entry) : Prop where
  refused : (session.queue.push entry).1 = .error (.thrown .pastEventNotAllowed) ↔
    session.Past entry
  unchanged : ∀ failure, (session.queue.push entry).1 = .error failure →
    (session.queue.push entry).2 = session.queue
  accepted : ¬session.Past entry → (session.queue.push entry).1 = .ok true ∧
    (session.queue.push entry).2.held = entry ::ₘ session.queue.held

/-- What holds of all sessions, also of those that are not served in order. -/
structure Tracked (session : Session) : Prop where
  accounted : session.Accounted
  early : session.queue.Early
  behind : session.queue.bottom.lastEvent ≤ session.queue.top.topStart
  last : session.queue.bottom.lastEvent = (session.dequeued.getLast?.map Entry.arrival).getD 0

theorem init_tracked : init.Tracked where
  accounted := init_accounted
  early := LadderQueue.init_ordered.early
  behind := le_refl _
  last := rfl

theorem Tracked.call {session next : Session} {action : Call} (tracked : session.Tracked)
    (called : session.call action = some next) : next.Tracked := by
  have valid := tracked.accounted.valid
  have accounted := tracked.accounted.next called
  cases action with
  | push entry =>
      rcases call_push_cases valid entry with ⟨refused, _⟩ | ⟨queue, pushed, accepted⟩
      · rw [called, Option.some.injEq] at refused
        exact refused ▸ tracked
      · rw [called, Option.some.injEq] at accepted
        subst accepted
        refine ⟨accounted, pushed.early valid tracked.early, ?_, ?_⟩
        · rw [pushed.lastEvent, pushed.topStart]
          exact tracked.behind
        · rw [pushed.lastEvent]
          exact tracked.last
  | dequeue =>
      rcases call_dequeue_cases valid with
        ⟨empty, _, _⟩ | ⟨middle, first, rest, served, list, _, taken⟩
      · rw [called, Option.some.injEq] at empty
        exact empty ▸ tracked
      · rw [called, Option.some.injEq] at taken
        subst taken
        have early := (served.early valid tracked.early).1
        refine ⟨accounted, ?_, ?_, ?_⟩
        · exact fun stage rung x member =>
            early stage rung x (LadderQueue.popped_subset list stage member)
        · apply early 0 (Nat.zero_le _) first
          rw [LadderQueue.stages_bottom, list]
          exact Multiset.mem_cons_self first rest
        · simp [LadderQueue.popped]

theorem run_tracked {calls : List Call} {session : Session}
    (ran : Runs.run call init calls = some session) : session.Tracked :=
  Runs.run_invariant _ (fun _ _ _ tracked called => tracked.call called) init_tracked ran

theorem Tracked.past_iff {session : Session} (tracked : session.Tracked) {entry : Entry}
    (nonneg : 0 ≤ entry.arrival) :
    session.Past entry ↔ entry.arrival < session.queue.bottom.lastEvent := by
  rw [tracked.last, Past]
  cases session.dequeued.getLast? with
  | none => simpa using nonneg
  | some last => simp

theorem Tracked.rejectsPast_iff {session : Session} (tracked : session.Tracked) {entry : Entry}
    (nonneg : 0 ≤ entry.arrival) :
    session.RejectsPast entry ↔ ¬session.queue.Overlooks entry.arrival := by
  have valid := tracked.accounted.valid
  have past := tracked.past_iff nonneg
  constructor
  · rintro rejects ⟨before, outside, takes⟩
    have pushed := valid.push_of_takes (before.trans_le tracked.behind) outside takes
    rw [rejects.refused.mpr (past.mpr before)] at pushed
    simp at pushed
  · intro seen
    rcases valid.push_cases entry with ⟨refused, before⟩ | ⟨next, accepted, pushed⟩
    · rw [← past] at before
      refine ⟨?_, ?_, fun fresh => absurd before fresh⟩
      · rw [refused]
        exact iff_of_true rfl before
      · rw [refused]
        exact fun _ _ => rfl
    · have fresh : ¬session.Past entry := by
        rw [past]
        intro before
        cases pushed with
        | top late => exact absurd (before.trans_le tracked.behind) (not_lt.mpr late)
        | ladder early outside takes => exact seen ⟨before, outside, takes⟩
        | bottom down fresh => exact fresh before
        | epoch down fresh unloaded bottom inserted => exact fresh before
        | back down fresh loaded room full => exact fresh before
      refine ⟨?_, ?_, ?_⟩
      · rw [accepted]
        exact iff_of_false (by simp) fresh
      · rw [accepted]
        intro failure failed
        simp at failed
      · rw [accepted]
        exact fun _ => ⟨rfl, pushed.held valid⟩

/-- After any calls a push rejects exactly the past if and only if the ladder does not take a
past event that the bottom has no range for. -/
theorem run_rejects_past_iff (calls : List Call) (session : Session)
    (ran : Runs.run call init calls = some session) (entry : Entry) (nonneg : 0 ≤ entry.arrival) :
    session.RejectsPast entry ↔ ¬session.queue.Overlooks entry.arrival :=
  (run_tracked ran).rejectsPast_iff nonneg

theorem run_rejects_past_iff_refused : ∃ session,
    Runs.run call init [pushAt 0 0, pushAt 1 100, .dequeue, .dequeue] = some session ∧
      session.RejectsPast (Entry.new 2 0 50 0 0 0) := by
  obtain ⟨session, ran, _⟩ := run_accounted [pushAt 0 0, pushAt 1 100, .dequeue, .dequeue]
  have seen : (Runs.run call init [pushAt 0 0, pushAt 1 100, .dequeue, .dequeue]).map
      (fun session => decide (session.queue.Overlooks 50)) = some false := by decide +kernel
  rw [ran] at seen
  refine ⟨session, ran, (run_rejects_past_iff _ session ran (Entry.new 2 0 50 0 0 0)
    (by decide +kernel)).mpr ?_⟩
  simpa [Entry.new] using seen

/-- Fifty events at 10 make the first rung, fifty at 1 and one at 9 a second one. All that is
left after the one at 9 is behind it, but the second rung reaches back before it. -/
def overlooked : List Call :=
  [pushAt 0 0, pushAt 1 100, .dequeue] ++
    (List.range 50).map (fun index => pushAt (2 + index) 10) ++
    (List.range 50).map (fun index => pushAt (60 + index) 1) ++
    [pushAt 200 9] ++ List.replicate 51 .dequeue

theorem overlooked_accepted : ∃ session, Runs.run call init overlooked = some session ∧
    Runs.Along call OnTime init overlooked ∧
    (session.dequeued.getLast?).map Entry.arrival = some 9 ∧
    (session.queue.push (Entry.new 201 0 (17 / 2) 0 0 0)).1 = .ok true ∧
    ¬session.RejectsPast (Entry.new 201 0 (17 / 2) 0 0 0) := by
  obtain ⟨session, ran, _⟩ := run_accounted overlooked
  have onTime : Runs.Along call OnTime init overlooked :=
    Runs.along_of_check (by decide +kernel)
  have outcome : (Runs.run call init overlooked).map (fun session =>
      ((session.dequeued.getLast?).map Entry.arrival,
        (session.queue.push (Entry.new 201 0 (17 / 2) 0 0 0)).1)) =
      some (some 9, .ok true) := by decide +kernel
  rw [ran] at outcome
  simp only [Option.map_some, Option.some.injEq, Prod.mk.injEq] at outcome
  obtain ⟨last, accepted⟩ := outcome
  refine ⟨session, ran, onTime, last, accepted, fun rejects => ?_⟩
  obtain ⟨entry, found, at_nine⟩ := Option.map_eq_some_iff.mp last
  have refused := rejects.refused.mpr ⟨entry, found, by rw [at_nine]; decide +kernel⟩
  rw [accepted] at refused
  simp at refused

end Session

end RlAqs
