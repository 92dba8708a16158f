import RlAqs.Library.Counter
import RlAqs.Queue.QueueCore
import RlAqs.Routing.RoutingCore
import Mathlib.Order.Bounds.Basic
import Mathlib.Tactic.IntervalCases
import Mathlib.Tactic.Positivity

/-!
`RLStateHelper`, which fills the input vector of the networks with what the state representation
asks for. Among the features are the best and the worst value of the edges out of the target,
two folds that start at the ends of the positive `double`s.
-/

namespace RlAqs

section Extremes

variable {α β : Type*} [LinearOrder β] (value : α → β)

theorem foldl_isGreatest (start : β) (items : List α) :
    IsGreatest (insert start {y | ∃ x ∈ items, y = value x})
      (items.foldl (fun best x => if best < value x then value x else best) start) := by
  induction items generalizing start with
  | nil => simp [IsGreatest, upperBounds]
  | cons x rest ih =>
      obtain ⟨member, bound⟩ := ih (if start < value x then value x else start)
      rw [List.foldl_cons]
      refine ⟨?_, ?_⟩
      · rcases member with initial | ⟨y, inside, same⟩
        · rw [initial]
          split
          · exact .inr ⟨x, List.mem_cons_self, rfl⟩
          · exact .inl rfl
        · exact .inr ⟨y, List.mem_cons_of_mem x inside, same⟩
      · have from_start := bound (.inl rfl)
        rintro y (rfl | ⟨z, inside, rfl⟩)
        · refine le_trans ?_ from_start
          split
          · rename_i better
            exact better.le
          · exact le_rfl
        · rcases List.mem_cons.mp inside with rfl | later
          · refine le_trans ?_ from_start
            split
            · exact le_rfl
            · rename_i no_better
              exact not_lt.mp no_better
          · exact bound (.inr ⟨z, later, rfl⟩)

theorem isGreatest_insert_iff {values : Set β} {start final : β}
    (found : IsGreatest (insert start values) final) :
    IsGreatest values final ↔ ∃ y ∈ values, start ≤ y := by
  constructor
  · rintro ⟨member, -⟩
    exact ⟨final, member, found.2 (Set.mem_insert start values)⟩
  · rintro ⟨y, inside, above⟩
    have bound : y ≤ final := found.2 (Set.mem_insert_of_mem start inside)
    refine ⟨?_, fun z other => found.2 (Set.mem_insert_of_mem start other)⟩
    rcases found.1 with initial | member
    · have same : final = y := le_antisymm (initial ▸ above) bound
      exact same ▸ inside
    · exact member

theorem foldl_greatest_iff (start : β) (items : List α) :
    IsGreatest {y | ∃ x ∈ items, y = value x}
        (items.foldl (fun best x => if best < value x then value x else best) start) ↔
      ∃ x ∈ items, start ≤ value x := by
  rw [isGreatest_insert_iff (foldl_isGreatest value start items)]
  constructor
  · rintro ⟨_, ⟨x, member, rfl⟩, above⟩
    exact ⟨x, member, above⟩
  · rintro ⟨x, member, above⟩
    exact ⟨value x, ⟨x, member, rfl⟩, above⟩

theorem foldl_least_iff (start : β) (items : List α) :
    IsLeast {y | ∃ x ∈ items, y = value x}
        (items.foldl (fun best x => if value x < best then value x else best) start) ↔
      ∃ x ∈ items, value x ≤ start :=
  foldl_greatest_iff (β := βᵒᵈ) value start items

end Extremes

structure VertexFeatures where
  expectedAverageNumberEvent : ℚ
  numberInQueue : Int
  utilisation : ℚ
  avgEventInSystemTime : ℚ
  averageDelayInQueue : ℚ
  expertNormal : ℚ
  expertAbsolute : ℚ
  expertPositive : ℚ
  expertNegative : ℚ
  deriving DecidableEq, Repr

/-- `std::numeric_limits<double>::min()`, the smallest positive normal number. -/
def dblMin : ℚ := 1 / 2 ^ 1022

namespace RLStateHelper

section

variable {graph : Graph} (out : OutEdges graph) (vertices : Nat → VertexFeatures)
  (qVal : Nat × Nat → ℚ)

/-- Feature 59. -/
def qMax (target : Nat) : ℚ :=
  (out.targets target).foldl
    (fun qMax e => if qVal (target, e) > qMax then qVal (target, e) else qMax) dblMin

/-- Feature 60. -/
def qMin (target : Nat) : ℚ :=
  (out.targets target).foldl
    (fun qMin e => if qVal (target, e) < qMin then qVal (target, e) else qMin) dblMax

/-- What a code of the representation asks for; any other leaves the input as it is. -/
def feature (edge : Nat × Nat) : Int → Option ℚ
  | 1 => some (vertices edge.1).expectedAverageNumberEvent
  | 2 => some (vertices edge.1).numberInQueue
  | 3 => some (vertices edge.1).utilisation
  | 4 => some (vertices edge.1).avgEventInSystemTime
  | 5 => some (vertices edge.1).averageDelayInQueue
  | 50 => some (vertices edge.2).expertNormal
  | 51 => some (vertices edge.2).expertAbsolute
  | 52 => some (vertices edge.2).expertPositive
  | 53 => some (vertices edge.2).expertNegative
  | 54 => some (vertices edge.2).expectedAverageNumberEvent
  | 55 => some (vertices edge.2).numberInQueue
  | 56 => some (vertices edge.2).utilisation
  | 57 => some (vertices edge.2).avgEventInSystemTime
  | 58 => some (vertices edge.2).averageDelayInQueue
  | 59 => some (qMax out qVal edge.2)
  | 60 => some (qMin out qVal edge.2)
  | _ => none

def fill (edge : Nat × Nat) (representation : List Int) (i : Nat) (inputs : Nat → ℚ) : Nat → ℚ :=
  match representation[i]?.bind (feature out vertices qVal edge) with
  | some value => Function.update inputs i value
  | none => inputs

/-- The counter has 16 bits, the length of the representation has not. -/
def fillStateVector (edge : Nat × Nat) (representation : List Int) (fuel : Nat)
    (inputs : Nat → ℚ) : Except Unit (Nat → ℚ) :=
  Counter.loop () 65536 representation.length
    (fun i inputs => .ok (.next (fill out vertices qVal edge representation i inputs))) fuel 0 inputs

variable {out vertices qVal} {edge : Nat × Nat} {representation : List Int}

def filled (out : OutEdges graph) (vertices : Nat → VertexFeatures) (qVal : Nat × Nat → ℚ)
    (edge : Nat × Nat) (representation : List Int) (inputs : Nat → ℚ) (i : Nat) : ℚ :=
  (representation[i]?.bind (feature out vertices qVal edge)).getD (inputs i)

theorem fill_apply (inputs : Nat → ℚ) (i j : Nat) :
    fill out vertices qVal edge representation i inputs j =
      if j = i then filled out vertices qVal edge representation inputs i else inputs j := by
  unfold fill filled
  cases asked : representation[i]?.bind (feature out vertices qVal edge) with
  | some value => simp [Function.update_apply]
  | none =>
      split
      · rename_i same
        simp [same]
      · rfl

theorem fillStateVector_filled {fuel : Nat} {inputs final : Nat → ℚ}
    (narrow : representation.length < 65536)
    (done : fillStateVector out vertices qVal edge representation fuel inputs = .ok final) :
    final = filled out vertices qVal edge representation inputs := by
  have below := Counter.loop_counted narrow
    (fun i state => ∀ j, state j =
      if j < i then filled out vertices qVal edge representation inputs j else inputs j)
    (fun i state turn turned => ⟨_, (Except.ok.inj turned).symm⟩) ?_ (Nat.zero_le _) (by simp) done
  · ext j
    rw [below j]
    split
    · rfl
    · rename_i beyond
      rw [filled, List.getElem?_eq_none (not_lt.mp beyond)]
      rfl
  · intro i state next _ before turned j
    obtain rfl := Counter.Turn.next.inj (Except.ok.inj turned)
    have unread : state i = inputs i := by simpa using before i
    rw [fill_apply, before j]
    by_cases same : j = i
    · rw [if_pos same, if_pos (by omega), same, filled, filled, unread]
    · have same_side : j < i + 1 ↔ j < i := by omega
      simp only [same, same_side, if_false]

theorem fillStateVector_returns_iff (inputs : Nat → ℚ) :
    (∃ fuel final, fillStateVector out vertices qVal edge representation fuel inputs = .ok final) ↔
      representation.length < 65536 :=
  Counter.loop_returns_iff (by decide) (fill out vertices qVal edge representation) inputs

def values (out : OutEdges graph) (qVal : Nat × Nat → ℚ) (vertex : Nat) : Set ℚ :=
  {q | ∃ target ∈ out.targets vertex, q = qVal (vertex, target)}

def NeighbourValues (out : OutEdges graph) (qVal : Nat × Nat → ℚ) (edge : Nat × Nat)
    (representation : List Int) (inputs : Nat → ℚ) : Prop :=
  ∀ i, (representation[i]? = some 59 → IsGreatest (values out qVal edge.2) (inputs i)) ∧
    (representation[i]? = some 60 → IsLeast (values out qVal edge.2) (inputs i))

theorem filled_neighbour_iff (inputs : Nat → ℚ) :
    NeighbourValues out qVal edge representation
        (filled out vertices qVal edge representation inputs) ↔
      (59 ∈ representation → ∃ target ∈ out.targets edge.2, dblMin ≤ qVal (edge.2, target)) ∧
      (60 ∈ representation → ∃ target ∈ out.targets edge.2, qVal (edge.2, target) ≤ dblMax) := by
  have greatest : IsGreatest (values out qVal edge.2) (qMax out qVal edge.2) ↔
      ∃ target ∈ out.targets edge.2, dblMin ≤ qVal (edge.2, target) :=
    foldl_greatest_iff (fun target => qVal (edge.2, target)) dblMin (out.targets edge.2)
  have least : IsLeast (values out qVal edge.2) (qMin out qVal edge.2) ↔
      ∃ target ∈ out.targets edge.2, qVal (edge.2, target) ≤ dblMax :=
    foldl_least_iff (fun target => qVal (edge.2, target)) dblMax (out.targets edge.2)
  have asked_max : ∀ i, representation[i]? = some 59 →
      filled out vertices qVal edge representation inputs i = qMax out qVal edge.2 :=
    fun i asked => by rw [filled, asked]; rfl
  have asked_min : ∀ i, representation[i]? = some 60 →
      filled out vertices qVal edge representation inputs i = qMin out qVal edge.2 :=
    fun i asked => by rw [filled, asked]; rfl
  rw [← greatest, ← least]
  constructor
  · intro exact_values
    refine ⟨fun member => ?_, fun member => ?_⟩
    · obtain ⟨i, asked⟩ := List.mem_iff_getElem?.mp member
      exact asked_max i asked ▸ (exact_values i).1 asked
    · obtain ⟨i, asked⟩ := List.mem_iff_getElem?.mp member
      exact asked_min i asked ▸ (exact_values i).2 asked
  · rintro ⟨some_max, some_min⟩ i
    refine ⟨fun asked => ?_, fun asked => ?_⟩
    · exact asked_max i asked ▸ some_max (List.mem_of_getElem? asked)
    · exact asked_min i asked ▸ some_min (List.mem_of_getElem? asked)

end

/-- The features are exact when the function returns at all, and the values reach the starts of
its two folds. -/
theorem fillStateVector_neighbour_iff {graph : Graph} (out : OutEdges graph)
    (vertices : Nat → VertexFeatures) (qVal : Nat × Nat → ℚ) (edge : Nat × Nat)
    (representation : List Int) (inputs : Nat → ℚ) :
    (∃ fuel final, fillStateVector out vertices qVal edge representation fuel inputs = .ok final ∧
        NeighbourValues out qVal edge representation final) ↔
      representation.length < 65536 ∧
      (59 ∈ representation → ∃ target ∈ out.targets edge.2, dblMin ≤ qVal (edge.2, target)) ∧
      (60 ∈ representation → ∃ target ∈ out.targets edge.2, qVal (edge.2, target) ≤ dblMax) := by
  constructor
  · rintro ⟨fuel, final, done, exact_values⟩
    have narrow := (fillStateVector_returns_iff inputs).mp ⟨fuel, final, done⟩
    rw [fillStateVector_filled narrow done, filled_neighbour_iff] at exact_values
    exact ⟨narrow, exact_values⟩
  · rintro ⟨narrow, reached⟩
    obtain ⟨fuel, final, done⟩ := (fillStateVector_returns_iff inputs).mpr narrow
    refine ⟨fuel, final, done, ?_⟩
    rw [fillStateVector_filled narrow done, filled_neighbour_iff]
    exact reached

def chain : Graph where
  size := 3
  edges := [(0, 1), (1, 2)]
  inside := by decide

theorem chain_edges (source target : Nat) :
    target ∈ (if source < 2 then [source + 1] else []) ↔ (source, target) ∈ chain.edges := by
  by_cases last : source < 2
  · obtain rfl | rfl : source = 0 ∨ source = 1 := by omega
    · simp [chain]
    · simp [chain]
  · simp [chain, last]
    omega

def chainOut : OutEdges chain where
  targets vertex := if vertex < 2 then [vertex + 1] else []
  mem_targets := chain_edges
  distinct source := by split <;> simp

/-- A single negative value behind the edge: the feature for the maximum is positive. -/
theorem fillStateVector_of_negative :
    ¬∀ (graph : Graph) (out : OutEdges graph) (vertices : Nat → VertexFeatures)
      (qVal : Nat × Nat → ℚ) (edge : Nat × Nat) (representation : List Int) (inputs : Nat → ℚ),
      edge ∈ graph.edges → out.targets edge.2 ≠ [] →
      ∃ fuel final,
        fillStateVector out vertices qVal edge representation fuel inputs = .ok final ∧
          NeighbourValues out qVal edge representation final := by
  intro always
  have positive : (0 : ℚ) < dblMin := by unfold dblMin; positivity
  obtain ⟨fuel, final, done, exact_values⟩ := always chain chainOut
    (fun _ => ⟨0, 0, 0, 0, 0, 0, 0, 0, 0⟩) (fun _ => -1) (0, 1) [59] (fun _ => 0) (by decide)
    (by decide)
  rw [fillStateVector_filled (by decide) done, filled_neighbour_iff] at exact_values
  obtain ⟨target, _, reached⟩ := exact_values.1 (by decide)
  linarith

end RLStateHelper

end RlAqs
