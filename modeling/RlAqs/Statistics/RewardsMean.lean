import RlAqs.Library.Sums
import RlAqs.Simulator.HistoryPast
import RlAqs.Statistics.MonitorReported
import RlAqs.Statistics.RewardsCore

/-!
The mean reward of a vertex. The handler takes the response time with the sign of a reward turned
around, and clips it: every value that it averages is zero.
-/

namespace RlAqs

open Handlers Processor

/-! One acknowledgement. -/

def Record.IsAck (vertex : Int) (record : Record) : Prop :=
  (record.entry.type = ackEvent ∨ record.entry.type = ack1hopEvent) ∧
    record.entry.destination = vertex

instance (vertex : Int) (record : Record) : Decidable (record.IsAck vertex) :=
  inferInstanceAs (Decidable (_ ∧ _))

def acks (vertex : Int) (processed : List Record) : List Record :=
  processed.filter fun record => record.IsAck vertex

def rewards (vertex : Int) (processed : List Record) : List (Option ℚ) :=
  (acks vertex processed).map fun record => record.entry.getReward

section acks

variable {vertex : Int} {record : Record} {processed : List Record}

theorem acks_cons_ack (ack : record.IsAck vertex) :
    acks vertex (record :: processed) = record :: acks vertex processed := by
  simp [acks, ack]

theorem acks_cons_other (other : ¬record.IsAck vertex) :
    acks vertex (record :: processed) = acks vertex processed := by
  simp [acks, other]

end acks

structure Averaged (answers : List Record) (stats : ResponseStats) : Prop where
  read : ∀ record ∈ answers, ∃ top, record.entry.topArrival = some top
  small : stats.numEventsProcessed < 2 ^ 31
  counted : answers.length < 2 ^ 31 → stats.numEventsProcessed = answers.length
  mean : answers.length < 2 ^ 31 → stats.meanReward = some 0

theorem fresh_averaged : Averaged [] ResponseStats.fresh where
  read := by simp
  small := by simp [ResponseStats.fresh]
  counted := fun _ => rfl
  mean := fun _ => rfl

theorem mean_zero {count : Nat} (few : count < 2 ^ 31) : Stats.mean (count + 1) 0 0 = some 0 := by
  have nonzero : toInt (count + 1 : Nat) ≠ 0 := toInt_ne_zero (by omega) (by omega)
  rw [Stats.mean, ← Nat.cast_succ, divide, if_neg (by exact_mod_cast nonzero)]
  simp

theorem Averaged.ack {answers : List Record} {stats after : ResponseStats} {record : Record}
    (averaged : Averaged answers stats) (past : record.entry.Past)
    (handled : responseStatsHandler stats record.entry = some after) :
    Averaged (record :: answers) after := by
  obtain ⟨top, found, same⟩ := Option.map_eq_some_iff.mp handled
  have order : ¬(top - record.entry.arrival > 0) := by
    have earlier := past top (List.mem_of_mem_head? found)
    linarith
  have size : after.numEventsProcessed = toInt (stats.numEventsProcessed + 1) := by rw [← same]
  have counted (few : (record :: answers).length < 2 ^ 31) :
      toInt (stats.numEventsProcessed + 1) = (record :: answers).length := by
    rw [List.length_cons] at few ⊢
    rw [averaged.counted (by omega), ← Nat.cast_succ, toInt_natCast few]
  refine ⟨List.forall_mem_cons.mpr ⟨⟨top, found⟩, averaged.read⟩, size ▸ toInt_lt _,
    fun few => size.trans (counted few), fun few => ?_⟩
  have before := averaged.mean ((Nat.lt_succ_self _).trans few)
  rw [← same]
  simp only [if_neg order, before, Option.bind_some]
  rw [counted few, mean_zero few, ite_self]

/-- The mean is that of the rewards, and the count the number of the answers, exactly when every
answer comes at the time on top of its stack and there are fewer than the counter holds. -/
theorem Averaged.mean_iff {answers : List Record} {stats : ResponseStats}
    (averaged : Averaged answers stats) (past : ∀ record ∈ answers, record.entry.Past)
    (some_answer : answers ≠ []) :
    (stats.meanReward = meanValue (answers.map fun record => record.entry.getReward) ∧
        stats.numEventsProcessed = answers.length) ↔
      (answers.length < 2 ^ 31 ∧
        ∀ record ∈ answers, record.entry.topArrival = some record.entry.arrival) := by
  let reward (record : Record) : ℚ := (record.entry.getReward).getD 0
  have given : answers.map (fun record => record.entry.getReward) =
      (answers.map reward).map some := by
    rw [List.map_map]
    refine List.map_congr_left fun record member => ?_
    obtain ⟨top, found⟩ := averaged.read record member
    simp [reward, Entry.getReward, found]
  have nonpos : ∀ x ∈ answers.map reward, x ≤ 0 := by
    rintro x member
    obtain ⟨record, inside, rfl⟩ := List.mem_map.mp member
    obtain ⟨top, found⟩ := averaged.read record inside
    simp only [reward, Entry.getReward, found, Option.map_some, Option.getD_some]
    split
    · exact le_of_lt ‹_›
    · exact le_rfl
  have length : (0 : ℚ) < (answers.map reward).length := by
    rw [List.length_map]
    exact_mod_cast List.length_pos_iff.mpr some_answer
  rw [given, meanValue_some (by simpa using some_answer)]
  constructor
  · rintro ⟨mean, counted⟩
    have bound : answers.length < 2 ^ 31 := by
      have small := averaged.small
      omega
    rw [averaged.mean bound, Option.some.injEq, Welford.mean, eq_div_iff length.ne',
      zero_mul] at mean
    have none := Sums.zero_of_nonpos nonpos mean.le
    refine ⟨bound, fun record member => ?_⟩
    obtain ⟨top, found⟩ := averaged.read record member
    have order := past record member top (List.mem_of_mem_head? found)
    have same := none (reward record) (List.mem_map_of_mem member)
    simp only [reward, Entry.getReward, found, Option.map_some, Option.getD_some] at same
    rw [found, Option.some.injEq]
    split at same <;> linarith
  · rintro ⟨bound, present⟩
    have none : ∀ x ∈ answers.map reward, x = 0 := by
      rintro x member
      obtain ⟨record, inside, rfl⟩ := List.mem_map.mp member
      simp [reward, Entry.getReward, present record inside]
    refine ⟨?_, averaged.counted bound⟩
    rw [averaged.mean bound, Welford.mean, List.sum_eq_zero none, zero_div]

/-! A turn. -/

variable {graph : Graph} {config : Config} {processor after : Processor} {choice : Choice}

theorem processed_cases (stepped : Processor.step graph config processor choice = some after) :
    (∃ pushed, after.processed =
        ⟨processor.take choice.entry, choice.serviceTime, pushed⟩ :: processor.processed ∧
      ¬((processor.take choice.entry).origin = adminEvent ∨ after.stopped ∨ after.undefined)) ∨
      (after.processed = processor.processed ∧
        ((processor.take choice.entry).origin = adminEvent ∨ after.stopped ∨ after.undefined)) := by
  obtain ⟨dequeued, turn⟩ := Processor.step_cases stepped
  have running (origin : (processor.take choice.entry).origin ≠ adminEvent) :
      ¬((processor.take choice.entry).origin = adminEvent ∨ processor.stopped ∨
        processor.undefined) := by
    rintro (admin | stopped | undefined)
    · exact origin admin
    · rw [dequeued.running] at stopped
      cases stopped
    · rw [dequeued.defined] at undefined
      cases undefined
  cases turn with
  | admin origin =>
      obtain ⟨_, effect⟩ := admin_effect (admin_cases graph config (processor.dequeue choice)
        (processor.take choice.entry) choice.gap)
      exact .inr ⟨effect.processed, .inl origin⟩
  | stop origin late => exact .inr ⟨rfl, .inr (.inl rfl)⟩
  | «break» origin inTime type empty => exact .inr ⟨rfl, .inr (.inr rfl)⟩
  | arrival origin => exact .inl ⟨_, rfl, running origin⟩
  | departure origin => exact .inl ⟨_, rfl, running origin⟩
  | ack origin => exact .inl ⟨_, rfl, running origin⟩
  | other origin => exact .inl ⟨_, rfl, running origin⟩

theorem top_of_ack (stepped : Processor.step graph config processor choice = some after)
    (going : ¬((processor.take choice.entry).origin = adminEvent ∨ after.stopped ∨
      after.undefined))
    (type : (processor.take choice.entry).type = ackEvent ∨
      (processor.take choice.entry).type = ack1hopEvent) :
    ∃ top, (processor.take choice.entry).topArrival = some top := by
  cases found : (processor.take choice.entry).topArrival with
  | some top => exact ⟨top, rfl⟩
  | none =>
      exfalso
      have unread : responseHandler (processor.take choice.entry) = none := by
        simp [responseHandler, Entry.getReward, found]
      have unhandled (before : Processor) :
          before.handle graph config (processor.take choice.entry) choice = none := by
        simp only [handle, unread, Option.bind_none]
        rcases type with type | type <;> rw [type] <;> rfl
      simp only [not_or] at going
      obtain ⟨plain, running, defined⟩ := going
      unfold Processor.step at stepped
      split at stepped
      · cases stepped
      split at stepped
      · simp only [if_neg plain, unhandled] at stepped
        split at stepped
        · exact running (Option.some.inj stepped ▸ rfl)
        · exact defined (Option.some.inj stepped ▸ rfl)
      · cases stepped

theorem response_step {stats : Int → ResponseStats}
    (averaged : ∀ vertex, Averaged (acks vertex processor.processed) (stats vertex))
    (past : ∀ record ∈ after.processed, record.entry.Past)
    (stepped : Processor.step graph config processor choice = some after) :
    ∃ next, ResponseStats.step graph config (processor, stats) choice = some (after, next) ∧
      ∀ vertex, Averaged (acks vertex after.processed) (next vertex) := by
  simp only [ResponseStats.step, stepped, Option.bind_some]
  rcases processed_cases stepped with ⟨pushed, processed, going⟩ | ⟨processed, left⟩
  · rw [ResponseStats.turn, if_neg going]
    split
    · rename_i type
      obtain ⟨top, found⟩ := top_of_ack stepped going type
      obtain ⟨next, handled⟩ : ∃ next, responseStatsHandler
          (stats (processor.take choice.entry).destination) (processor.take choice.entry) =
            some next := by
        simp [responseStatsHandler, found]
      rw [handled, Option.map_some, Option.map_some]
      refine ⟨_, rfl, fun vertex => ?_⟩
      rw [processed]
      by_cases here : (processor.take choice.entry).destination = vertex
      · have ack : Record.IsAck vertex
            ⟨processor.take choice.entry, choice.serviceTime, pushed⟩ := ⟨type, here⟩
        subst here
        rw [acks_cons_ack ack, Function.update_self]
        rw [processed] at past
        exact (averaged _).ack (past _ List.mem_cons_self) handled
      · rw [acks_cons_other fun ack => here ack.2, Function.update_of_ne (Ne.symm here)]
        exact averaged vertex
    · rename_i type
      refine ⟨stats, rfl, fun vertex => ?_⟩
      rw [processed, acks_cons_other fun ack => type ack.1]
      exact averaged vertex
  · rw [ResponseStats.turn, if_pos left]
    refine ⟨stats, rfl, fun vertex => ?_⟩
    rw [processed]
    exact averaged vertex

variable {choices : List Choice} {final : Processor}

theorem run_averaged
    (ran : Runs.run (Processor.step graph config) (Processor.start config) choices = some final) :
    ∃ stats, Runs.run (ResponseStats.step graph config) (ResponseStats.start config) choices =
        some (final, stats) ∧
      ∀ vertex, Averaged (acks vertex final.processed) (stats vertex) := by
  refine Runs.run_induction (motive := fun choices final => ∃ stats,
    Runs.run (ResponseStats.step graph config) (ResponseStats.start config) choices =
        some (final, stats) ∧
      ∀ vertex, Averaged (acks vertex final.processed) (stats vertex)) ?_ ?_ ran
  · exact ⟨_, rfl, fun _ => fresh_averaged⟩
  · rintro choices before choice after earlier ⟨stats, ran, averaged⟩ stepped
    have past := (run_past (Runs.run_concat earlier stepped)).2
    obtain ⟨next, followed, still⟩ := response_step averaged past stepped
    exact ⟨next, Runs.run_concat ran followed, still⟩

/-- In every run, at every vertex that has processed an acknowledgement, the mean reward is the
mean of the rewards, and the count their number, exactly when each acknowledgement came at the
very time of the arrival it answers and there were fewer than 2^31. -/
theorem run_mean_reward_iff
    (ran : Runs.run (Processor.step graph config) (Processor.start config) choices = some final) :
    ∃ stats, Runs.run (ResponseStats.step graph config) (ResponseStats.start config) choices =
        some (final, stats) ∧
      ∀ vertex, acks vertex final.processed ≠ [] →
        (((stats vertex).meanReward = meanValue (rewards vertex final.processed) ∧
            (stats vertex).numEventsProcessed = (acks vertex final.processed).length) ↔
          ((acks vertex final.processed).length < 2 ^ 31 ∧
            ∀ record ∈ acks vertex final.processed,
              record.entry.topArrival = some record.entry.arrival)) := by
  obtain ⟨stats, followed, averaged⟩ := run_averaged ran
  have past (vertex : Int) : ∀ record ∈ acks vertex final.processed, record.entry.Past :=
    fun record member => (run_past ran).2 record (List.mem_of_mem_filter member)
  exact ⟨stats, followed, fun vertex some_ack => (averaged vertex).mean_iff (past vertex) some_ack⟩

def solitary : Graph := Graph.point

def acknowledged : List Choice :=
  let job := EventGenerator.generateArrival 1 0 0 1
  let served :=
    { job with arrival := (5 : Nat), origin := 0, eventPath := [-1], eventArrivals := [1] }
  [⟨EventGenerator.generateAdminEventType 0 0 generateArrivalEvent, 0, fun _ => 1, 0⟩,
    ⟨job, (4 : Nat), fun _ => (8 : Nat), 0⟩,
    ⟨{ served with type := departureEvent, gid := 4 }, 0, fun _ => 0, 0⟩,
    ⟨{ served with type := ackEvent, gid := 5 }, 0, fun _ => 0, 0⟩]

theorem acknowledged_stats :
    ∃ final stats,
      Runs.run (Processor.step solitary { stopTime := 20 }) (Processor.start { stopTime := 20 })
        acknowledged = some final ∧
      Runs.run (ResponseStats.step solitary { stopTime := 20 })
        (ResponseStats.start { stopTime := 20 }) acknowledged = some (final, stats) ∧
      rewards 0 final.processed = [some (-4)] ∧ stats 0 = ⟨1, some 0⟩ := by
  have checked : ∃ final ∈ Runs.run (Processor.step solitary { stopTime := 20 })
      (Processor.start { stopTime := 20 }) acknowledged,
      rewards 0 final.processed = [some (-4)] := by
    decide +kernel
  have kept : ∃ state ∈ Runs.run (ResponseStats.step solitary { stopTime := 20 })
      (ResponseStats.start { stopTime := 20 }) acknowledged, state.2 0 = ⟨1, some 0⟩ := by
    decide +kernel
  obtain ⟨final, ran, given⟩ := checked
  obtain ⟨⟨processor, stats⟩, followed, zero⟩ := kept
  obtain ⟨_, both, _⟩ := run_averaged ran
  obtain ⟨rfl, rfl⟩ : processor = final ∧ _ = _ := by
    rw [Option.mem_def, both] at followed
    simpa [eq_comm] using followed
  exact ⟨_, _, ran, both, given, zero⟩

theorem run_mean_reward_iff_acknowledged :
    ∃ final stats,
      Runs.run (Processor.step solitary { stopTime := 20 }) (Processor.start { stopTime := 20 })
        acknowledged = some final ∧
      Runs.run (ResponseStats.step solitary { stopTime := 20 })
        (ResponseStats.start { stopTime := 20 }) acknowledged = some (final, stats) ∧
      (acks 0 final.processed ≠ [] →
        (((stats 0).meanReward = meanValue (rewards 0 final.processed) ∧
            (stats 0).numEventsProcessed = (acks 0 final.processed).length) ↔
          ((acks 0 final.processed).length < 2 ^ 31 ∧
            ∀ record ∈ acks 0 final.processed,
              record.entry.topArrival = some record.entry.arrival))) := by
  obtain ⟨final, _, ran, _⟩ := acknowledged_stats
  obtain ⟨stats, followed, exactly⟩ := run_mean_reward_iff ran
  exact ⟨final, stats, ran, followed, exactly 0⟩

theorem mean_reward_differs :
    ¬∀ (graph : Graph) (config : Config) (choices : List Choice) (final : Processor)
      (stats : Int → ResponseStats) (vertex : Int),
      Runs.run (ResponseStats.step graph config) (ResponseStats.start config) choices =
        some (final, stats) →
      acks vertex final.processed ≠ [] →
        (stats vertex).meanReward = meanValue (rewards vertex final.processed) ∧
          (stats vertex).numEventsProcessed = (acks vertex final.processed).length := by
  intro always
  obtain ⟨final, stats, _, followed, given, kept⟩ := acknowledged_stats
  have some_ack : acks 0 final.processed ≠ [] := by
    intro none
    rw [rewards, none] at given
    cases given
  have same := (always solitary { stopTime := 20 } acknowledged final stats 0 followed some_ack).1
  rw [given, kept] at same
  exact absurd same (by decide +kernel)

end RlAqs
