import RlAqs.Queue.SessionOrder

/-!
Stability: events of one time are served in the order of their construction as
long as no push overtakes one of the same time that waits in a rung.
-/

namespace RlAqs

namespace LadderQueue

open Ladder (maxRungs)

/-- Each rung with an event of this time still takes the time, ahead of the bottom. -/
def Unmixed (queue : LadderQueue) (ts : ℚ) : Prop :=
  ts < queue.top.topStart → ∀ index < maxRungs, ∀ x ∈ queue.ladder.held index, x.arrival = ts →
    (queue.ladder.rung index).rCur ≤ ts ∧ ¬ queue.InBottom ts

instance (queue : LadderQueue) (ts : ℚ) : Decidable (queue.Unmixed ts) :=
  inferInstanceAs (Decidable (_ → _))

structure Stable (queue : LadderQueue) : Prop where
  stages : Stages.InOrder (fun x y : Entry => x.arrival = y.arrival → x.gid ≤ y.gid) queue.stages
  sorted : queue.bottom.list.Pairwise Entry.NoLater

theorem init_stable : init.Stable where
  stages := by
    rw [init_stages]
    exact Stages.inOrder_empty
  sorted := List.Pairwise.nil

theorem Valid.after_unmixed {queue : LadderQueue} (valid : queue.Valid) {ts : ℚ}
    (unmixed : queue.Unmixed ts) {stage : Nat} (later : queue.stageOf ts < stage) {y : Entry}
    (member : y ∈ queue.stages stage) : y.arrival ≠ ts := by
  have sound := valid.ladder.sound
  intro equal
  by_cases late : queue.top.getTopStart ≤ ts
  · rw [stageOf_of_late late] at later
    rw [stages_beyond queue later] at member
    exact Multiset.notMem_zero y member
  · have soon : ts < queue.top.getTopStart := not_le.mp late
    by_cases rung : stage ≤ maxRungs
    · have same : maxRungs - (maxRungs - stage) = stage := by omega
      rw [← same, stages_rung queue (by omega)] at member
      obtain ⟨reached, outside⟩ := unmixed soon _ (by omega) y member equal
      have used : maxRungs - stage ≤ queue.ladder.lowestRung := by
        by_contra unused
        rw [Ladder.held_of_unloaded sound (sound.unused _ (by omega))] at member
        exact Multiset.notMem_zero y member
      have loaded : queue.ladder.nbc ≠ 0 := by
        intro unloaded
        rw [Ladder.held_of_unloaded sound (sound.unloaded unloaded _)] at member
        exact Multiset.notMem_zero y member
      have anti := (valid.ladder.aligned loaded).rCur_anti used (Nat.le_refl _)
      have takes : queue.ladder.Takes ts := ⟨loaded, anti.trans reached⟩
      rw [stageOf_of_ladder soon outside takes] at later
      have refused := (Ladder.place_spec takes.2).2.2 (maxRungs - stage) (by omega)
      exact absurd reached (not_le.mpr refused)
    · by_cases top : stage = maxRungs + 1
      · rw [top, stages_top] at member
        have behind := valid.late y member
        rw [equal] at behind
        exact late behind
      · rw [stages_beyond queue (by omega)] at member
        exact Multiset.notMem_zero y member

theorem inserted_noLater {list : List Entry} {entry : Entry}
    (sorted : list.Pairwise Entry.NoLater) (newest : ∀ x ∈ list, x.gid < entry.gid) :
    (Bottom.inserted list entry).Pairwise Entry.NoLater := by
  obtain ⟨before, after, whole, result, early, late⟩ :=
    Bottom.inserted_split entry (sorted.imp Entry.NoLater.arrival)
  rw [result]
  rw [whole] at sorted newest
  obtain ⟨left, right, across⟩ := List.pairwise_append.mp sorted
  refine List.pairwise_append.mpr ⟨left, List.pairwise_cons.mpr ⟨?_, right⟩, ?_⟩
  · exact fun x member => .inl (late x member)
  · intro x inside y member
    rcases List.mem_cons.mp member with rfl | member
    · have older := newest x (List.mem_append_left _ inside)
      rcases (early x inside).lt_or_eq with less | equal
      · exact .inl less
      · exact .inr ⟨equal, older.le⟩
    · exact across x inside y member

theorem Pushed.stable {queue next : LadderQueue} {entry : Entry} (valid : queue.Valid)
    (stable : queue.Stable) (newest : ∀ x ∈ queue.held, x.gid < entry.gid)
    (unmixed : queue.Unmixed entry.arrival) (pushed : Pushed queue entry next) : next.Stable := by
  have stages : Stages.InOrder (fun x y : Entry => x.arrival = y.arrival → x.gid ≤ y.gid)
      next.stages := by
    apply pushed.inOrder valid stable.stages
    · intro stage earlier y member _
      by_cases bound : stage < maxRungs + 2
      · exact (newest y (mem_held.mpr ⟨stage, bound, member⟩)).le
      · rw [stages_beyond queue (by omega)] at member
        exact absurd member (Multiset.notMem_zero y)
    · intro stage later y member equal
      exact absurd equal.symm (valid.after_unmixed unmixed later member)
  have inBottom : ∀ x ∈ queue.bottom.list, x.gid < entry.gid := fun x member =>
    newest x (mem_held.mpr ⟨0, by omega, member⟩)
  refine ⟨stages, ?_⟩
  cases pushed with
  | top late => exact stable.sorted
  | ladder early outside takes => exact stable.sorted
  | bottom down fresh => exact inserted_noLater stable.sorted inBottom
  | epoch down fresh unloaded bottom inserted => exact List.Pairwise.nil
  | back down fresh loaded room full => exact List.Pairwise.nil

theorem Served.stable {queue middle : LadderQueue} (valid : queue.Valid)
    (stable : queue.Stable) (served : Served queue middle) : middle.Stable := by
  refine ⟨served.inOrder valid stable.stages, ?_⟩
  cases served with
  | bottom filled => exact stable.sorted
  | ladder drained loaded delisted => exact sortEntries_sorted _
  | top drained unloaded filled delisted => exact sortEntries_sorted _

theorem Stable.first_le {queue : LadderQueue} (stable : queue.Stable) {first : Entry}
    {rest : List Entry} (list : queue.bottom.list = first :: rest) {x : Entry}
    (member : x ∈ queue.held) (equal : x.arrival = first.arrival) : first.gid ≤ x.gid := by
  rw [← popped_held list, Multiset.mem_cons] at member
  rcases member with rfl | left
  · exact le_refl _
  · rcases mem_popped left with inside | ⟨stage, positive, inside⟩
    · have sorted := stable.sorted
      rw [list] at sorted
      rcases (List.pairwise_cons.mp sorted).1 x inside with less | ⟨_, gid⟩
      · exact absurd equal.symm less.ne
      · exact gid
    · apply stable.stages 0 stage positive first _ x inside equal.symm
      rw [stages_bottom, list]
      exact Multiset.mem_cons_self first rest

theorem Stable.popped {queue : LadderQueue} (stable : queue.Stable) {first : Entry}
    {rest : List Entry} (list : queue.bottom.list = first :: rest) :
    (queue.popped first rest).Stable := by
  have sorted := stable.sorted
  rw [list] at sorted
  exact ⟨stable.stages.mono (popped_subset list), (List.pairwise_cons.mp sorted).2⟩

end LadderQueue

namespace Session

def Newest (session : Session) : Call → Prop
  | .push entry => ∀ x ∈ session.accepted, x.gid < entry.gid
  | .dequeue => True

def Unmixed (session : Session) : Call → Prop
  | .push entry => session.queue.Unmixed entry.arrival
  | .dequeue => True

instance (session : Session) : DecidablePred session.Newest
  | .push entry => inferInstanceAs (Decidable (∀ x ∈ session.accepted, x.gid < entry.gid))
  | .dequeue => inferInstanceAs (Decidable True)

instance (session : Session) : DecidablePred session.Unmixed
  | .push _ => inferInstanceAs (Decidable (LadderQueue.Unmixed _ _))
  | .dequeue => inferInstanceAs (Decidable True)

def atTime (list : List Entry) (ts : ℚ) : List Entry := list.filter fun x => x.arrival = ts

def FirstComeFirstServed (session : Session) : Prop :=
  ∀ ts, atTime session.dequeued ts <+: atTime session.accepted ts

structure Stable (session : Session) : Prop where
  accounted : session.Accounted
  queue : session.queue.Stable
  ages : session.accepted.Pairwise fun x y => x.gid < y.gid
  fair : session.FirstComeFirstServed

theorem init_stable : init.Stable where
  accounted := init_accounted
  queue := LadderQueue.init_stable
  ages := List.Pairwise.nil
  fair := fun _ => List.prefix_refl []

theorem Stable.serve {session : Session} (stable : session.Stable) {first : Entry}
    (member : first ∈ session.queue.held)
    (oldest : ∀ x ∈ session.queue.held, x.arrival = first.arrival → first.gid ≤ x.gid)
    (ts : ℚ) : atTime (session.dequeued ++ [first]) ts <+: atTime session.accepted ts := by
  obtain ⟨waiting, whole⟩ := stable.fair ts
  rw [atTime, List.filter_append]
  by_cases same : first.arrival = ts
  · have own : List.filter (fun x : Entry => x.arrival = ts) [first] = [first] := by simp [same]
    have content : (waiting : Multiset Entry) =
        session.queue.held.filter fun x => x.arrival = ts := by
      have balance := congrArg (Multiset.filter fun x => x.arrival = ts) stable.accounted.balance
      rw [Multiset.filter_add, Multiset.filter_coe, Multiset.filter_coe] at balance
      simp only [atTime] at whole
      rw [← whole, ← Multiset.coe_add, add_comm] at balance
      exact add_right_cancel balance
    have waits : first ∈ waiting := by
      rw [← Multiset.mem_coe, content, Multiset.mem_filter]
      exact ⟨member, same⟩
    have ages : waiting.Pairwise fun x y => x.gid < y.gid := by
      have filtered := stable.ages.filter (p := fun x => decide (x.arrival = ts))
      simp only [atTime] at whole
      rw [← whole] at filtered
      exact (List.pairwise_append.mp filtered).2.1
    cases waiting with
    | nil => simp at waits
    | cons head tail =>
        have headHeld : head ∈ session.queue.held.filter fun x => x.arrival = ts := by
          rw [← content]
          exact List.mem_cons_self
        rw [Multiset.mem_filter] at headHeld
        have order := oldest head headHeld.1 (headHeld.2.trans same.symm)
        have equal : first = head := by
          rcases List.mem_cons.mp waits with equal | inTail
          · exact equal
          · have younger := (List.pairwise_cons.mp ages).1 first inTail
            omega
        rw [own, ← whole, equal]
        exact ⟨tail, by simp [atTime]⟩
  · have none : List.filter (fun x : Entry => x.arrival = ts) [first] = [] := by simp [same]
    rw [none, List.append_nil]
    exact stable.fair ts

theorem Stable.call {session next : Session} {action : Call} (stable : session.Stable)
    (newest : session.Newest action) (unmixed : session.Unmixed action)
    (called : session.call action = some next) : next.Stable := by
  have valid := stable.accounted.valid
  have accounted := stable.accounted.next called
  cases action with
  | push entry =>
      rcases call_push_cases valid entry with ⟨refused, _⟩ | ⟨queue, pushed, accepted⟩
      · rw [called, Option.some.injEq] at refused
        exact refused ▸ stable
      · rw [called, Option.some.injEq] at accepted
        subst accepted
        have older : ∀ x ∈ session.queue.held, x.gid < entry.gid := by
          intro x member
          apply newest x
          rw [← Multiset.mem_coe, stable.accounted.balance]
          exact Multiset.mem_add.mpr (.inl member)
        refine ⟨accounted, pushed.stable valid stable.queue older unmixed, ?_, ?_⟩
        · refine List.pairwise_append.mpr ⟨stable.ages, List.pairwise_singleton _ _, ?_⟩
          intro x before y final
          rw [List.mem_singleton.mp final]
          exact newest x before
        · intro ts
          have grown : atTime (session.accepted ++ [entry]) ts =
              atTime session.accepted ts ++ atTime [entry] ts := List.filter_append ..
          rw [grown]
          exact (stable.fair ts).trans (List.prefix_append _ _)
  | dequeue =>
      rcases call_dequeue_cases valid with
        ⟨empty, _, _⟩ | ⟨middle, first, rest, served, list, _, taken⟩
      · rw [called, Option.some.injEq] at empty
        exact empty ▸ stable
      · rw [called, Option.some.injEq] at taken
        subst taken
        have middleStable := served.stable valid stable.queue
        have held := served.held valid
        have member : first ∈ session.queue.held := by
          rw [← held, ← LadderQueue.popped_held list]
          exact Multiset.mem_cons_self first _
        refine ⟨accounted, middleStable.popped list, stable.ages, stable.serve member ?_⟩
        intro x inside equal
        rw [← held] at inside
        exact middleStable.first_le list inside equal

/-- A run that pushes events in the order of their construction, each unmixed, is stable. -/
theorem run_stable (calls : List Call) (session : Session)
    (along : Runs.Along call
      (fun session action => session.Newest action ∧ session.Unmixed action) init calls)
    (ran : Runs.run call init calls = some session) : session.FirstComeFirstServed :=
  (Runs.run_invariant_along Stable
    (fun _ _ _ stable guarded called => stable.call guarded.1 guarded.2 called)
    init_stable along ran).fair

theorem run_stable_equal :
    ∃ session, Runs.run call init
      [pushAt 0 0, pushAt 1 5, pushAt 2 5, .dequeue, .dequeue, pushAt 3 5, .dequeue] =
      some session ∧ session.FirstComeFirstServed := by
  obtain ⟨session, ran, _⟩ := run_accounted
    [pushAt 0 0, pushAt 1 5, pushAt 2 5, .dequeue, .dequeue, pushAt 3 5, .dequeue]
  refine ⟨session, ran, run_stable _ session ?_ ran⟩
  exact Runs.along_of_check (by decide +kernel)

/-- Fifty events of the time last served overflow the bottom into the ladder; the next one of
that time goes to the bottom and is served before them. -/
def reordering : List Call :=
  [pushAt 0 0, pushAt 1 100, .dequeue] ++
    (List.range 50).map (fun index => pushAt (2 + index) 0) ++ [pushAt 200 0, .dequeue]

theorem reordering_unfair :
    ¬ ∀ (calls : List Call) (session : Session),
      Runs.Along call (fun session action => session.OnTime action ∧ session.Newest action)
        init calls →
      Runs.run call init calls = some session → session.FirstComeFirstServed := by
  intro all
  obtain ⟨session, ran, _⟩ := run_accounted reordering
  have guarded : Runs.Along call
      (fun session action => session.OnTime action ∧ session.Newest action) init reordering :=
    Runs.along_of_check (by decide +kernel)
  have served : (Runs.run call init reordering).map (fun session =>
      decide (atTime session.dequeued 0 <+: atTime session.accepted 0)) = some false := by
    decide +kernel
  rw [ran] at served
  simp only [Option.map_some, Option.some.injEq, decide_eq_false_iff_not] at served
  exact served (all reordering session guarded ran 0)

end Session

end RlAqs
