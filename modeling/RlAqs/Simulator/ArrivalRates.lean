import RlAqs.Sampling.WalkBounded
import RlAqs.Simulator.AdminTimes
import RlAqs.Simulator.RatesCore

/-!
The arrival rates over a run. Between two serialisations each vertex has the rate of one column
of the matrix, and the rows of the matrix span the range they are scaled to.
-/

namespace RlAqs

open Handlers EventGenerator

/-! One row. -/

section row

variable {row : List ℚ}

theorem gslVectorMin_spec (some_value : row ≠ []) :
    gslVectorMin row ∈ row ∧ ∀ x ∈ row, gslVectorMin row ≤ x := by
  have least : row.min? = some (gslVectorMin row) := by
    cases row with
    | nil => exact absurd rfl some_value
    | cons first rest => rw [List.min?_cons', gslVectorMin, List.headD_cons, List.foldl_cons, min_self]
  exact List.min?_eq_some_iff.mp least

theorem gslVectorMax_spec (some_value : row ≠ []) :
    gslVectorMax row ∈ row ∧ ∀ x ∈ row, x ≤ gslVectorMax row := by
  have most : row.max? = some (gslVectorMax row) := by
    cases row with
    | nil => exact absurd rfl some_value
    | cons first rest => rw [List.max?_cons', gslVectorMax, List.headD_cons, List.foldl_cons, max_self]
  exact List.max?_eq_some_iff.mp most

theorem gslVectorMax_shift (some_value : row ≠ []) (level : ℚ) :
    gslVectorMax (row.map fun x => x + level) = gslVectorMax row + level := by
  obtain ⟨member, above⟩ := gslVectorMax_spec some_value
  obtain ⟨shifted, aboveShifted⟩ :=
    gslVectorMax_spec (by simpa using some_value : (row.map fun x => x + level) ≠ [])
  obtain ⟨x, inside, same⟩ := List.mem_map.mp shifted
  refine le_antisymm ?_ (aboveShifted _ (List.mem_map_of_mem member))
  rw [← same]
  exact add_le_add_left (above x inside) level

theorem scale_spans {lower upper arrivalRate : ℚ} {x y : ℚ} (first : x ∈ row) (second : y ∈ row)
    (varied : x ≠ y) (order : lower * arrivalRate ≤ upper * arrivalRate) :
    (∀ t < row.length, ∃ z, (CJYArrivals.scale lower upper arrivalRate row).getD t none = some z ∧
        lower * arrivalRate ≤ z ∧ z ≤ upper * arrivalRate) ∧
      (∃ t < row.length, (CJYArrivals.scale lower upper arrivalRate row).getD t none =
        some (lower * arrivalRate)) ∧
      ∃ t < row.length, (CJYArrivals.scale lower upper arrivalRate row).getD t none =
        some (upper * arrivalRate) := by
  have some_value : row ≠ [] := List.ne_nil_of_mem first
  obtain ⟨least, below⟩ := gslVectorMin_spec some_value
  obtain ⟨most, above⟩ := gslVectorMax_spec some_value
  set spread := gslVectorMax row - gslVectorMin row with spreadEq
  have wide : 0 < spread := by
    rcases lt_or_gt_of_ne varied with less | greater
    · linarith [below x first, above y second]
    · linarith [below y second, above x first]
  have scaled (t : Nat) (inside : t < row.length) :
      (CJYArrivals.scale lower upper arrivalRate row).getD t none =
        some ((row[t] - gslVectorMin row) / spread *
          (upper * arrivalRate - lower * arrivalRate) + lower * arrivalRate) := by
    have shift : gslVectorMax row + -gslVectorMin row = spread := (sub_eq_add_neg _ _).symm
    simp only [CJYArrivals.scale, gslVectorMax_shift some_value, shift, divide, if_neg wide.ne',
      Option.map_some, List.map_map]
    rw [List.getD_eq_getElem?_getD, List.getElem?_map, List.getElem?_eq_getElem inside]
    simp only [Option.map_some, Option.getD_some, Function.comp_apply, div_eq_mul_inv,
      sub_eq_add_neg, one_mul]
  refine ⟨fun t inside => ⟨_, scaled t inside, ?_⟩, ?_, ?_⟩
  · have low := below row[t] (List.getElem_mem inside)
    have high := above row[t] (List.getElem_mem inside)
    have from0 : 0 ≤ (row[t] - gslVectorMin row) / spread := div_nonneg (by linarith) wide.le
    have to1 : (row[t] - gslVectorMin row) / spread ≤ 1 := by
      rw [div_le_iff₀ wide]
      linarith
    constructor
    · linarith [mul_nonneg from0 (sub_nonneg.mpr order)]
    · linarith [mul_le_mul_of_nonneg_right to1 (sub_nonneg.mpr order)]
  · obtain ⟨t, inside, same⟩ := List.getElem_of_mem least
    refine ⟨t, inside, ?_⟩
    rw [scaled t inside, same, sub_self, zero_div, zero_mul, zero_add]
  · obtain ⟨t, inside, same⟩ := List.getElem_of_mem most
    refine ⟨t, inside, ?_⟩
    rw [scaled t inside, same, div_self wide.ne', one_mul, sub_add_cancel]

end row

/-! The matrix. -/

theorem mapM_getD {α β : Type} {step : α → Option β} {items : List α} {results : List β}
    (mapped : items.mapM step = some results) :
    results.length = items.length ∧ ∀ i, (inside : i < items.length) →
      ∃ result, results[i]? = some result ∧ step items[i] = some result := by
  induction items generalizing results with
  | nil =>
      rw [List.mapM_nil] at mapped
      cases mapped
      exact ⟨rfl, fun i inside => absurd inside (Nat.not_lt_zero i)⟩
  | cons item rest ih =>
      rw [List.mapM_cons] at mapped
      simp only [Option.bind_eq_bind, Option.pure_def, Option.bind_eq_some_iff,
        Option.some.injEq] at mapped
      obtain ⟨first, stepped, others, later, rfl⟩ := mapped
      obtain ⟨length, each⟩ := ih later
      refine ⟨by rw [List.length_cons, length, List.length_cons], fun i inside => ?_⟩
      cases i with
      | zero => exact ⟨first, rfl, stepped⟩
      | succ i => exact each i (Nat.lt_of_succ_lt_succ inside)

section matrix

variable {functions : MFRW.Functions} {settings : MFRW.Settings} {nmax : ℚ}
  {draws : Nat → MFRW.Draws} {lower upper : ℚ} {arrivalRate : Nat → ℚ} {graph : Graph}
  {netSize T : Nat} {arrivals : CJYArrivals}

theorem generate_rows (generated : CJYArrivals.generate functions settings nmax draws lower upper
    arrivalRate graph netSize T = some arrivals) :
    arrivals.size1 = netSize ∧ arrivals.size2 = T ∧ ∀ node < netSize, ∃ row,
      CJYArrivals.walk functions settings nmax draws T node = some row ∧
        ∀ t, arrivals.arrivalRates node t =
          (CJYArrivals.scale lower upper (arrivalRate node) row).getD t none := by
  unfold CJYArrivals.generate at generated
  split at generated
  · obtain ⟨rows, mapped, rfl⟩ := Option.map_eq_some_iff.mp generated
    refine ⟨rfl, rfl, fun node inside => ?_⟩
    obtain ⟨_, each⟩ := mapM_getD mapped
    obtain ⟨scaled, found, walked⟩ := each node (by rwa [List.length_range])
    rw [List.getElem_range] at walked
    obtain ⟨row, walk, rfl⟩ := Option.map_eq_some_iff.mp walked
    refine ⟨row, walk, fun t => ?_⟩
    simp only [List.getD_eq_getElem?_getD, found, Option.getD_some]
  · cases generated

theorem serialiseColumn_ok {t : Nat} (small : arrivals.size1 ≤ 65536) (late : arrivals.size2 ≤ 65536)
    (inside : t < arrivals.size2) {vertices : List Nat} (fits : ∀ vertex ∈ vertices,
      vertex < arrivals.size1) (rates : Nat → Option ℚ) :
    ∃ after, serialiseColumn arrivals t vertices rates = .ok after ∧
      ∀ vertex, after vertex =
        if vertex ∈ vertices then arrivals.arrivalRates vertex t else rates vertex := by
  induction vertices generalizing rates with
  | nil => exact ⟨rates, rfl, by simp⟩
  | cons first rest ih =>
      obtain ⟨here, others⟩ := List.forall_mem_cons.mp fits
      obtain ⟨after, done, each⟩ :=
        ih others (Function.update rates first (arrivals.arrivalRates first t))
      have written : arrivals.serialise first t rates =
          .ok (Function.update rates first (arrivals.arrivalRates first t)) := by
        simp only [CJYArrivals.serialise, Nat.mod_eq_of_lt (here.trans_le small),
          Nat.mod_eq_of_lt (inside.trans_le late)]
        rw [if_neg (not_le.mpr here), if_neg (not_le.mpr inside)]
      refine ⟨after, ?_, fun vertex => ?_⟩
      · rw [serialiseColumn, written]
        exact done
      · rw [each vertex]
        by_cases later : vertex ∈ rest
        · simp [later]
        · by_cases same : vertex = first
          · subst same
            simp [later]
          · simp [later, same]

end matrix

/-! A run. -/

namespace Processor

variable {graph : Graph} {config : Config} {arrivals : CJYArrivals} {arrivalRate : Nat → ℚ}
  {processor next : Processor} {choice : Choice} {rates : Nat → Option ℚ}

structure Rated (graph : Graph) (config : Config) (arrivals : CJYArrivals) (arrivalRate : Nat → ℚ)
    (processor : Processor) (rates : Nat → Option ℚ) : Prop where
  initial : processor.currentTimeStep = 0 → ∀ vertex, rates vertex = some (arrivalRate vertex)
  column : ∀ k, processor.currentTimeStep = k + 1 → k < config.mfrwT ∧
    (∀ vertex < graph.size, rates vertex = arrivals.arrivalRates vertex k) ∧
    serialiseInterval config * k ≤ processor.oldTime

theorem Rated.same (rated : Rated graph config arrivals arrivalRate processor rates)
    (ticks : next.currentTimeStep = processor.currentTimeStep)
    (later : processor.oldTime ≤ next.oldTime) :
    Rated graph config arrivals arrivalRate next rates := by
  constructor
  · rw [ticks]
    exact rated.initial
  · intro k
    rw [ticks]
    intro reached
    obtain ⟨inside, taken, time⟩ := rated.column k reached
    exact ⟨inside, taken, time.trans later⟩

theorem rates_step (begun : 0 ≤ config.stopTime) (fits : graph.size ≤ arrivals.size1)
    (small : arrivals.size1 ≤ 65536) (wide : arrivals.size2 = config.mfrwT)
    (steps : config.mfrwT ≤ 65536) (serialised : Serialised config processor)
    (consistent : Consistent config processor)
    (rated : Rated graph config arrivals arrivalRate processor rates)
    (stepped : Processor.step graph config processor choice = some next) :
    ∃ after, Rates.step graph config arrivals (processor, rates) choice = some (next, after) ∧
      Rated graph config arrivals arrivalRate next after := by
  obtain ⟨dequeued, turn⟩ := step_cases stepped
  have inHand := take_eq ((consistent.timed begun).future _ dequeued.member)
  have later : processor.oldTime ≤ next.oldTime := by
    rw [turn.oldTime_eq]
    exact oldTime_le_take processor choice.entry
  by_cases kind : choice.entry.type = serialiseArrivalEvent
  · have listed := mem_ofType.mpr ⟨dequeued.member, kind⟩
    cases serialised with
    | complete all none =>
        rw [none] at listed
        cases listed
    | due uid bound only =>
        rw [only, List.mem_singleton] at listed
        have admin : choice.entry.origin = adminEvent := by rw [listed]; rfl
        have handled := admin_turn inHand turn admin
        rw [admin_serialise kind] at handled
        split at handled
        · rename_i more
          obtain ⟨after, done, each⟩ := serialiseColumn_ok small (wide ▸ steps) (wide ▸ more)
            (fun vertex member => (List.mem_range.mp member).trans_le fits) rates
          refine ⟨after, ?_, ?_, ?_⟩
          · simp only [Rates.step, stepped, Option.bind_some, inHand]
            rw [if_pos ⟨admin, kind, more⟩, done]
            rfl
          · rw [handled]
            exact fun zero => absurd zero (Nat.succ_ne_zero _)
          · intro k reached
            have same : processor.currentTimeStep = k := by
              rw [handled] at reached
              exact Nat.succ_injective reached
            subst same
            refine ⟨more, fun vertex inside => ?_, ?_⟩
            · rw [each vertex, if_pos (List.mem_range.mpr inside)]
            · rw [turn.oldTime_eq, inHand, listed]
              exact le_rfl
        · rename_i last
          refine ⟨rates, ?_, rated.same (by rw [handled]; rfl) later⟩
          simp only [Rates.step, stepped, Option.bind_some]
          rw [if_neg fun taken => last taken.2.2]
  · have sourced : ∀ entry ∈ ofType serialiseArrivalEvent processor.pending,
        entry.origin = adminEvent := by
      cases serialised with
      | due uid bound only => exact sourced_single only
      | complete all none => simp [none]
    refine ⟨rates, ?_, ?_⟩
    · simp only [Rates.step, stepped, Option.bind_some, inHand]
      rw [if_neg fun taken => kind taken.2.1]
    · cases kind_cases begun consistent (by decide) sourced stepped with
      | kept pending ticks => exact rated.same (by simpa [Processor.ticks] using ticks) later
      | own same => exact absurd same kind

theorem run_rated (begun : 0 ≤ config.stopTime) (fits : graph.size ≤ arrivals.size1)
    (small : arrivals.size1 ≤ 65536) (wide : arrivals.size2 = config.mfrwT)
    (steps : config.mfrwT ≤ 65536) (serialises : config.mfrw = true)
    {choices : List Choice} {final : Processor}
    (ran : Runs.run (Processor.step graph config) (start config) choices = some final) :
    ∃ rates, Runs.run (Rates.step graph config arrivals)
        (start config, fun vertex => some (arrivalRate vertex)) choices = some (final, rates) ∧
      Rated graph config arrivals arrivalRate final rates := by
  refine Runs.run_induction (motive := fun choices final => ∃ rates,
    Runs.run (Rates.step graph config arrivals)
        (start config, fun vertex => some (arrivalRate vertex)) choices = some (final, rates) ∧
      Rated graph config arrivals arrivalRate final rates) ?_ ?_ ran
  · refine ⟨_, rfl, fun _ _ => rfl, fun k reached => ?_⟩
    exact absurd reached.symm (Nat.succ_ne_zero k)
  · rintro choices before choice after earlier ⟨rates, followed, rated⟩ stepped
    obtain ⟨next, step, still⟩ := rates_step begun fits small wide steps
      (run_serialised begun serialises earlier) (run_consistent earlier) rated stepped
    exact ⟨next, Runs.run_concat followed step, still⟩

/-- Between two serialisations the counter stands at the column in force. -/
theorem column_between (begun : 0 < config.stopTime) (serialised : Serialised config processor)
    (consistent : Consistent config processor)
    (rated : Rated graph config arrivals arrivalRate processor rates)
    (stepped : Processor.step graph config processor choice = some next) {k : Nat}
    (inside : k < config.mfrwT) (after : serialiseInterval config * k < choice.entry.arrival)
    (before : choice.entry.arrival < serialiseInterval config * (k + 1 : ℕ)) :
    processor.currentTimeStep = k + 1 := by
  obtain ⟨dequeued, _⟩ := step_cases stepped
  have interval : 0 < serialiseInterval config := by
    have some_steps : (0 : ℚ) < config.mfrwT := by exact_mod_cast (Nat.zero_le k).trans_lt inside
    exact div_pos begun some_steps
  have low : processor.currentTimeStep ≤ k + 1 := by
    cases reached : processor.currentTimeStep with
    | zero => exact Nat.zero_le _
    | succ column =>
        obtain ⟨_, _, time⟩ := rated.column column reached
        have now := (consistent.timed begun.le).future _ dequeued.member
        have less := (time.trans now).trans_lt before
        rw [mul_lt_mul_iff_of_pos_left interval] at less
        have fewer : column < k + 1 := by exact_mod_cast less
        omega
  cases serialised with
  | due uid bound only =>
      have due : generateAdminEventType uid (serialiseInterval config *
          processor.currentTimeStep) serialiseArrivalEvent ∈
            ofType serialiseArrivalEvent processor.pending := by
        rw [only]
        exact List.mem_singleton_self _
      have less := after.trans_le (dequeued.earliest _ (mem_ofType.mp due).1)
      change _ < serialiseInterval config * _ at less
      rw [mul_lt_mul_iff_of_pos_left interval] at less
      have more : k < processor.currentTimeStep := by exact_mod_cast less
      omega
  | complete all none => omega

/-- With a row of the matrix for every vertex, and a walk in it that is not constant, nothing is
thrown in any run. Every rate is that of the graph before the first column is taken over and lies
in the range of its vertex afterwards; an event between the times of two columns finds the first
of them; and the row of each vertex has both ends of the range. -/
theorem run_rates (begun : 0 < config.stopTime) (serialises : config.mfrw = true)
    {netSize : Nat} (fits : graph.size ≤ netSize) (small : netSize < 65536)
    (steps : config.mfrwT < 65536) {functions : MFRW.Functions}
    {settings : MFRW.Settings} {nmax : ℚ} {draws : Nat → MFRW.Draws} {lower upper : ℚ}
    (generated : CJYArrivals.generate functions settings nmax draws lower upper arrivalRate graph
      netSize config.mfrwT = some arrivals)
    (varied : ∀ vertex < graph.size, ∃ row ∈ CJYArrivals.walk functions settings nmax draws
      config.mfrwT vertex, row.length = config.mfrwT ∧ ∃ x ∈ row, ∃ y ∈ row, x ≠ y)
    (order : lower ≤ upper) (nonneg : ∀ vertex, 0 ≤ arrivalRate vertex)
    {choices : List Choice} {final : Processor}
    (ran : Runs.run (Processor.step graph config) (start config) choices = some final) :
    ∃ rates, Runs.run (Rates.step graph config arrivals)
        (start config, fun vertex => some (arrivalRate vertex)) choices = some (final, rates) ∧
      (final.currentTimeStep = 0 → ∀ vertex, rates vertex = some (arrivalRate vertex)) ∧
      (final.currentTimeStep ≠ 0 → ∀ vertex < graph.size, ∃ rate, rates vertex = some rate ∧
        lower * arrivalRate vertex ≤ rate ∧ rate ≤ upper * arrivalRate vertex) ∧
      (∀ k < config.mfrwT, ∀ choice next, Processor.step graph config final choice = some next →
        serialiseInterval config * k < choice.entry.arrival →
        choice.entry.arrival < serialiseInterval config * (k + 1 : ℕ) →
        ∀ vertex < graph.size, rates vertex = arrivals.arrivalRates vertex k) ∧
      ∀ vertex < graph.size,
        (∃ k < config.mfrwT, arrivals.arrivalRates vertex k = some (lower * arrivalRate vertex)) ∧
        ∃ k < config.mfrwT, arrivals.arrivalRates vertex k = some (upper * arrivalRate vertex) := by
  obtain ⟨size1, size2, rows⟩ := generate_rows generated
  obtain ⟨rates, followed, rated⟩ := @run_rated graph config arrivals arrivalRate begun.le
    (fits.trans size1.ge) (size1 ▸ small.le) size2 steps.le serialises choices final ran
  have spans (vertex : Nat) (inside : vertex < graph.size) :=
    show (∀ k < config.mfrwT, ∃ rate, arrivals.arrivalRates vertex k = some rate ∧
          lower * arrivalRate vertex ≤ rate ∧ rate ≤ upper * arrivalRate vertex) ∧
        (∃ k < config.mfrwT, arrivals.arrivalRates vertex k = some (lower * arrivalRate vertex)) ∧
        ∃ k < config.mfrwT, arrivals.arrivalRates vertex k = some (upper * arrivalRate vertex) by
      obtain ⟨row, walked, scaled⟩ := rows vertex (inside.trans_le fits)
      obtain ⟨other, walked', length, x, first, y, second, apart⟩ := varied vertex inside
      obtain rfl : row = other := Option.some.inj (walked.symm.trans walked')
      have spanned := scale_spans first second apart
        (mul_le_mul_of_nonneg_right order (nonneg vertex))
      simp only [← scaled, length] at spanned
      exact spanned
  refine ⟨rates, followed, rated.initial, fun moved vertex inside => ?_,
    fun k inside choice next stepped after before vertex placed => ?_,
    fun vertex inside => (spans vertex inside).2⟩
  · obtain ⟨k, reached⟩ := Nat.exists_eq_succ_of_ne_zero moved
    obtain ⟨early, taken, _⟩ := rated.column k reached
    rw [taken vertex inside]
    exact (spans vertex inside).1 k early
  · have reached := column_between begun (run_serialised begun.le serialises ran)
      (run_consistent ran) rated stepped inside after before
    exact (rated.column k reached).2.1 vertex placed

/-! Two columns, the second one twice the rate of the graph. -/

def unitDraws (_ : Nat) : MFRW.Draws where
  event i := i % 2
  gaussian _ := 1

def twoColumns : Config := { stopTime := 2, mfrw := true, mfrwT := 2 }

def betweenColumns : List Choice :=
  [⟨generateAdminEventType 0 0 serialiseArrivalEvent, 0, fun _ => 0, 0⟩,
    ⟨generateAdminEventType 1 0 generateArrivalEvent, 0, fun _ => (3 : ℕ) / (2 : ℕ), 0⟩,
    ⟨generateAdminEventType 2 1 serialiseArrivalEvent, 0, fun _ => 0, 0⟩]

theorem run_rates_twoColumns :
    ∃ arrivals final rates,
      CJYArrivals.generate MFRW.wholeFunctions MFRW.wholeSettings 2 unitDraws (1 / 2) 2
        (fun _ => 1) lone 1 2 = some arrivals ∧
      Runs.run (Rates.step lone twoColumns arrivals) (start twoColumns, fun _ => some 1)
        betweenColumns = some (final, rates) ∧
      rates 0 = arrivals.arrivalRates 0 1 ∧
      ∃ rate, rates 0 = some rate ∧ 1 / 2 ≤ rate ∧ rate ≤ 2 := by
  have walks : CJYArrivals.walk MFRW.wholeFunctions MFRW.wholeSettings 2 unitDraws 2 0 =
      some [1 / 2, 3 / 2] := by
    decide +kernel
  obtain ⟨arrivals, generated⟩ : ∃ arrivals, CJYArrivals.generate MFRW.wholeFunctions
      MFRW.wholeSettings 2 unitDraws (1 / 2) 2 (fun _ => 1) lone 1 2 = some arrivals := by
    simp [CJYArrivals.generate, List.range_succ, walks, lone, Graph.point]
  have checked : ∃ final ∈ Runs.run (Processor.step lone twoColumns) (start twoColumns)
      betweenColumns, final.currentTimeStep = 2 ∧ (Processor.step lone twoColumns final
        ⟨generateArrival 3 0 0 (3 / 2), 0, fun _ => 0, 0⟩).isSome = true := by
    decide +kernel
  obtain ⟨final, ran, moved, goes⟩ := checked
  obtain ⟨next, stepped⟩ := Option.isSome_iff_exists.mp goes
  obtain ⟨rates, followed, _, inRange, between, _⟩ := @run_rates lone twoColumns arrivals
    (fun _ => 1) (by decide) rfl 1 le_rfl (by decide) (by decide) MFRW.wholeFunctions
    MFRW.wholeSettings 2 unitDraws (1 / 2) 2 generated
    (fun vertex inside => by
      obtain rfl : vertex = 0 := Nat.lt_one_iff.mp inside
      exact ⟨_, walks, rfl, 1 / 2, by simp, 3 / 2, by simp, by norm_num⟩)
    (by norm_num) (fun _ => zero_le_one) betweenColumns final ran
  refine ⟨arrivals, final, rates, generated, followed, ?_, ?_⟩
  · exact between 1 (by decide) _ next stepped (by decide +kernel) (by decide +kernel) 0 (by decide)
  · obtain ⟨rate, same, low, high⟩ := inRange (by rw [moved]; decide) 0 (by decide)
    exact ⟨rate, same, by linarith, by linarith⟩

end Processor

end RlAqs
