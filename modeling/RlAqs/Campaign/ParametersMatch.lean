import RlAqs.Campaign.ParametersCore
import Mathlib.Logic.Function.Iterate

/-!
A worker simulates a design point with the parameters of the sequential path, except for those
it takes from its own arguments: the outdegree of a BBV graph, the size of the matrix of arrival
rates and all that the policies read from the configuration channel.
-/

namespace RlAqs

open LhsUtils Simulation

/-! The sequential path: each row overwrites what the row before has written. -/

theorem pick_pick (column : Int) (row other : Int → ℚ) (present : ℚ) :
    pick column row (pick column other present) = pick column row present := by
  by_cases sampled : column ≥ 0 <;> simp [pick, sampled]

theorem pickUnsigned_pick (bits : Nat) (column : Int) (row other : Int → ℚ) (present : Nat) :
    pickUnsigned bits column row (pickUnsigned bits column other present) =
      pickUnsigned bits column row present := by
  by_cases sampled : column ≥ 0 <;> simp [pickUnsigned, sampled]

theorem assign_assign (args : DesArgs) (sample : Design) (i j : Nat) :
    SimulationLHS.assign (SimulationLHS.assign args sample j) sample i =
      SimulationLHS.assign args sample i := by
  have same : ∀ factor, index (SimulationLHS.assign args sample j) factor = index args factor :=
    fun _ => rfl
  unfold SimulationLHS.assign at same ⊢
  simp only [getNetSizeIndex, getMaxEdgesIndex, getEdgeProbIndex, getVertexBoostIndex,
    getEdgeBoostIndex, getRLAlphaIndex, getRLLambdaIndex, getRLEpsilonIndex, getNNMomentumIndex,
    getRlWplEtaIndex, getCplAPosIndex, getCplANegIndex, getCplRPosIndex, getCplRNegIndex] at same ⊢
  simp only [same, pick_pick, pickUnsigned_pick]

def SameBut (first second : DesArgs) : Prop :=
  ∃ size, first = { second with netSize := size } ∧
    (second.graphFilename = "" → size = second.netSize)

theorem SameBut.simulated {first second : DesArgs} (same : SameBut first second) (vertices : Nat) :
    SameBut (Simulation.simulated vertices first) second := by
  obtain ⟨size, rfl, kept⟩ := same
  by_cases generated : second.graphFilename = ""
  · refine ⟨size, ?_, kept⟩
    simp [Simulation.simulated, generated]
  · refine ⟨toUnsigned 16 vertices, ?_, fun read => absurd read generated⟩
    simp [Simulation.simulated, generated]

theorem SameBut.assign {first second : DesArgs} (same : SameBut first second) (sample : Design)
    (i : Nat) : SameBut (SimulationLHS.assign first sample i) (SimulationLHS.assign second sample i) := by
  obtain ⟨size, rfl, kept⟩ := same
  refine ⟨pickUnsigned 16 (getNetSizeIndex second) (sample i) size, rfl, ?_⟩
  intro generated
  rw [kept generated]
  rfl

theorem arguments_sameBut (args : DesArgs) (sample : Design) (vertices i : Nat) :
    SameBut (SimulationLHS.arguments args sample vertices i) (SimulationLHS.assign args sample i) := by
  induction i with
  | zero => exact ⟨_, rfl, fun _ => rfl⟩
  | succ i ih =>
      have next := (ih.simulated vertices).assign sample (i + 1)
      rw [assign_assign] at next
      exact next

theorem iterate_sameBut (args : DesArgs) (vertices jobs : Nat) :
    SameBut ((simulated vertices)^[jobs] args) args := by
  induction jobs with
  | zero => exact ⟨_, rfl, fun _ => rfl⟩
  | succ jobs ih =>
      rw [Function.iterate_succ_apply']
      exact ih.simulated vertices

/-- The size in the arguments is only used once the graph is there. -/
theorem SameBut.usage_eq {first second : DesArgs} (same : SameBut first second)
    (stored : ℚ → ℚ → Bool) (vertices : Nat) (own : Parameters) :
    Simulation.usage stored vertices first own = Simulation.usage stored vertices second own := by
  obtain ⟨size, rfl, kept⟩ := same
  by_cases generated : second.graphFilename = ""
  · rw [kept generated]
  · simp only [Simulation.usage, Simulation.simulated, generated, if_false]
    rfl

theorem SameBut.usage_locals_eq {first second : DesArgs} (same : SameBut first second)
    (stored : ℚ → ℚ → Bool) (vertices : Nat) :
    Simulation.usage stored vertices first (locals first.toParameters) =
      Simulation.usage stored vertices second (locals second.toParameters) := by
  rw [same.usage_eq]
  obtain ⟨size, rfl, kept⟩ := same
  by_cases generated : second.graphFilename = ""
  · rw [kept generated]
  · simp only [Simulation.usage, generated, false_and, if_false]
    rfl

/-! What a worker uses, beside what the row of the design asks for. -/

theorem toUnsigned_pickUnsigned (column : Int) (row : Int → ℚ) (present : Nat) :
    toUnsigned 16 (pickUnsigned 32 column row present) =
      toUnsigned 16 (pickUnsigned 16 column row present) := by
  by_cases sampled : column ≥ 0
  · simp only [pickUnsigned, toUnsigned, sampled, if_true]
    omega
  · simp only [pickUnsigned, sampled, if_false]

/-- The message says what the row says, but for the temperature. -/
theorem locals_assignParams (args : DesArgs) (sample : Design) (i : Nat) :
    locals (SimulationMPI.assignParams args sample (i + 1)) =
      { locals (SimulationLHS.assign args sample i).toParameters with rlPolicyBoltzmannT := 0 } := by
  unfold locals SimulationMPI.assignParams SimulationLHS.assign
  simp only [Nat.add_sub_cancel, toUnsigned_pickUnsigned]

/-- The factors that a worker takes from its own arguments have the values of the row there,
wherever its simulation uses them. -/
structure Handed (stored : ℚ → ℚ → Bool) (args : DesArgs) (row : Int → ℚ) : Prop where
  maxEdges : args.graphFilename = "" →
    ¬(args.graphSingle ∧ stored (pick (getVertexBoostIndex args) row args.boostArrival)
      (pick (getEdgeBoostIndex args) row args.boostEdge)) →
    args.netGen = 1 → pickUnsigned 16 (getMaxEdgesIndex args) row args.maxEdges = args.maxEdges
  netSize : args.graphFilename = "" → args.mfrw →
    pickUnsigned 16 (getNetSizeIndex args) row args.netSize = args.netSize
  epsilon : args.rl → args.rlPolicy ∈ [1, 3, 4, 5] →
    pick (getRLEpsilonIndex args) row args.rlPolicyEpsilon = args.rlPolicyEpsilon
  eta : args.rl → args.rlPolicy ∈ [3, 4, 5] →
    pick (getRlWplEtaIndex args) row args.rlPolicyWplEta = args.rlPolicyWplEta
  aPos : args.rl → args.rlPolicy = 5 →
    pick (getCplAPosIndex args) row args.cognitiveAPos = args.cognitiveAPos
  aNeg : args.rl → args.rlPolicy = 5 →
    pick (getCplANegIndex args) row args.cognitiveANeg = args.cognitiveANeg
  rPos : args.rl → args.rlPolicy = 5 →
    pick (getCplRPosIndex args) row args.cognitiveRPos = args.cognitiveRPos
  rNeg : args.rl → args.rlPolicy = 5 →
    pick (getCplRNegIndex args) row args.cognitiveRNeg = args.cognitiveRNeg

theorem createGraph_iff (args : DesArgs) (sample : Design) (i : Nat) :
    createGraph args (locals (SimulationMPI.assignParams args sample (i + 1))) =
        createGraph (SimulationLHS.assign args sample i)
          (locals (SimulationLHS.assign args sample i).toParameters) ↔
      (args.netGen = 1 →
        pickUnsigned 16 (getMaxEdgesIndex args) (sample i) args.maxEdges = args.maxEdges) := by
  rw [locals_assignParams]
  by_cases bbv : args.netGen = 1
  · simp [createGraph, SimulationLHS.assign, locals, bbv, eq_comm]
  · by_cases er : args.netGen = 2 <;> simp [createGraph, SimulationLHS.assign, locals, bbv, er]

theorem policy_iff (args : DesArgs) (sample : Design) (i : Nat) :
    policy args = policy (SimulationLHS.assign args sample i) ↔
      (args.rlPolicy ∈ [1, 3, 4, 5] →
        pick (getRLEpsilonIndex args) (sample i) args.rlPolicyEpsilon = args.rlPolicyEpsilon) ∧
      (args.rlPolicy ∈ [3, 4, 5] →
        pick (getRlWplEtaIndex args) (sample i) args.rlPolicyWplEta = args.rlPolicyWplEta) ∧
      (args.rlPolicy = 5 →
        pick (getCplANegIndex args) (sample i) args.cognitiveANeg = args.cognitiveANeg ∧
        pick (getCplAPosIndex args) (sample i) args.cognitiveAPos = args.cognitiveAPos ∧
        pick (getCplRNegIndex args) (sample i) args.cognitiveRNeg = args.cognitiveRNeg ∧
        pick (getCplRPosIndex args) (sample i) args.cognitiveRPos = args.cognitiveRPos) := by
  have kept : (SimulationLHS.assign args sample i).rlPolicy = args.rlPolicy := rfl
  unfold policy
  rw [kept]
  split <;> rename_i code <;> simp_all [SimulationLHS.assign, eq_comm]

theorem arrivals_iff (vertices : Nat) (args : DesArgs) (sample : Design) (i : Nat) :
    arrivals (simulated vertices args) =
        arrivals (simulated vertices (SimulationLHS.assign args sample i)) ↔
      (args.graphFilename = "" → args.mfrw →
        pickUnsigned 16 (getNetSizeIndex args) (sample i) args.netSize = args.netSize) := by
  by_cases generated : args.graphFilename = "" <;> by_cases walks : args.mfrw <;>
    simp [arrivals, simulated, SimulationLHS.assign, generated, walks, eq_comm]

theorem generator_iff (stored : ℚ → ℚ → Bool) (vertices : Nat) (args : DesArgs)
    (sample : Design) (i : Nat) :
    (Simulation.usage stored vertices args
        (locals (SimulationMPI.assignParams args sample (i + 1)))).generator =
      (Simulation.usage stored vertices (SimulationLHS.assign args sample i)
        (locals (SimulationLHS.assign args sample i).toParameters)).generator ↔
      (args.graphFilename = "" →
        ¬(args.graphSingle ∧ stored (pick (getVertexBoostIndex args) (sample i) args.boostArrival)
          (pick (getEdgeBoostIndex args) (sample i) args.boostEdge)) →
        args.netGen = 1 →
          pickUnsigned 16 (getMaxEdgesIndex args) (sample i) args.maxEdges = args.maxEdges) := by
  rw [← and_imp, ← createGraph_iff args sample i, locals_assignParams]
  by_cases generated : args.graphFilename = "" ∧
      ¬(args.graphSingle ∧ stored (pick (getVertexBoostIndex args) (sample i) args.boostArrival)
        (pick (getEdgeBoostIndex args) (sample i) args.boostEdge))
  · have worker : (Simulation.usage stored vertices args
        { locals (SimulationLHS.assign args sample i).toParameters with
          rlPolicyBoltzmannT := 0 }).generator = createGraph args
        { locals (SimulationLHS.assign args sample i).toParameters with
          rlPolicyBoltzmannT := 0 } := if_pos generated
    have sequential : (Simulation.usage stored vertices (SimulationLHS.assign args sample i)
        (locals (SimulationLHS.assign args sample i).toParameters)).generator =
        createGraph (SimulationLHS.assign args sample i)
          (locals (SimulationLHS.assign args sample i).toParameters) := if_pos generated
    rw [worker, sequential]
    exact ⟨fun same _ => same, fun same => same generated⟩
  · have worker : (Simulation.usage stored vertices args
        { locals (SimulationLHS.assign args sample i).toParameters with
          rlPolicyBoltzmannT := 0 }).generator = none := if_neg generated
    have sequential : (Simulation.usage stored vertices (SimulationLHS.assign args sample i)
        (locals (SimulationLHS.assign args sample i).toParameters)).generator = none :=
      if_neg generated
    rw [worker, sequential]
    exact ⟨fun _ used => absurd used generated, fun _ => rfl⟩

/-- A worker uses for a row what the sequential path uses, whatever either has done before, iff
its own arguments have the values of the row where it reads them. -/
theorem usage_iff (stored : ℚ → ℚ → Bool) (args : DesArgs) (sample : Design)
    (vertices jobs i : Nat) :
    SimulationMPI.usage stored args sample vertices jobs i =
        SimulationLHS.usage stored args sample vertices i ↔
      Handed stored args (sample i) := by
  unfold SimulationMPI.usage SimulationLHS.usage
  rw [(iterate_sameBut args vertices jobs).usage_eq,
    (arguments_sameBut args sample vertices i).usage_locals_eq]
  constructor
  · intro same
    have generator := (generator_iff stored vertices args sample i).mp
      (congrArg Usage.generator same)
    have rows := (arrivals_iff vertices args sample i).mp (congrArg Usage.arrivals same)
    have chosen (learns : args.rl) : policy args = policy (SimulationLHS.assign args sample i) := by
      have both := congrArg Usage.policy same
      rwa [show (Simulation.usage stored vertices args _).policy = policy args from if_pos learns,
        show (Simulation.usage stored vertices (SimulationLHS.assign args sample i) _).policy =
          policy (SimulationLHS.assign args sample i) from if_pos learns] at both
    exact
      { maxEdges := generator
        netSize := rows
        epsilon := fun learns => ((policy_iff args sample i).mp (chosen learns)).1
        eta := fun learns => ((policy_iff args sample i).mp (chosen learns)).2.1
        aNeg := fun learns code => (((policy_iff args sample i).mp (chosen learns)).2.2 code).1
        aPos := fun learns code => (((policy_iff args sample i).mp (chosen learns)).2.2 code).2.1
        rNeg := fun learns code => (((policy_iff args sample i).mp (chosen learns)).2.2 code).2.2.1
        rPos := fun learns code =>
          (((policy_iff args sample i).mp (chosen learns)).2.2 code).2.2.2 }
  · intro handed
    have generator := (generator_iff stored vertices args sample i).mpr handed.maxEdges
    have rows := (arrivals_iff vertices args sample i).mpr handed.netSize
    have policies : (if args.rl then policy args else none) =
        if args.rl then policy (SimulationLHS.assign args sample i) else none := by
      by_cases learns : args.rl
      · rw [(policy_iff args sample i).mpr ⟨handed.epsilon learns, handed.eta learns, fun code =>
          ⟨handed.aNeg learns code, handed.aPos learns code, handed.rNeg learns code,
            handed.rPos learns code⟩⟩]
      · simp [learns]
    rw [locals_assignParams] at generator ⊢
    have parts : ∀ first second : Usage, first.repository = second.repository →
        first.generator = second.generator → first.arrivals = second.arrivals →
        first.policy = second.policy → first.response = second.response → first = second := by
      rintro ⟨⟩ ⟨⟩ rfl rfl rfl rfl rfl
      rfl
    exact parts _ _ rfl generator rows policies rfl

def wplArgs : DesArgs where
  netSize := 10
  maxEdges := 2
  edgeProb := 0
  boostArrival := 1
  boostEdge := 1
  rlQAlpha := 1 / 10
  rlQLambda := 9 / 10
  rlPolicyEpsilon := 1 / 10
  rlPolicyBoltzmannT := 1
  nnMomentum := 0
  rlPolicyWplEta := 1 / 100
  cognitiveAPos := 0
  cognitiveANeg := 0
  cognitiveRPos := 0
  cognitiveRNeg := 0
  graphFilename := ""
  graphSingle := false
  netGen := 1
  mfrw := false
  rl := true
  rlPolicy := 3
  rlStateRepresentation := []
  nnCg := false
  minSize := 65535
  minMaxEdges := 65535
  minEdgeProb := dblMax
  minBoostArrival := dblMax
  minBoostEdge := dblMax
  minRlQAlpha := dblMax
  minRlQLambda := dblMax
  minRlPolicyEpsilon := dblMax
  minNnMomentum := dblMax
  minRlPolicyWplEta := 0
  minCognitiveAPos := dblMax
  minCognitiveANeg := dblMax
  minCognitiveRPos := dblMax
  minCognitiveRNeg := dblMax

/-- The row asks for 1/2; the worker learns with its own 1/100. -/
theorem usage_differs :
    (SimulationMPI.usage (fun _ _ => false) wplArgs (fun _ _ => 1 / 2) 10 0 0).policy =
        some (.weightedPolicyLearner (1 / 10) (1 / 100)) ∧
      (SimulationLHS.usage (fun _ _ => false) wplArgs (fun _ _ => 1 / 2) 10 0).policy =
        some (.weightedPolicyLearner (1 / 10) (1 / 2)) ∧
      ¬∀ (stored : ℚ → ℚ → Bool) (args : DesArgs) (sample : Design) (vertices jobs i : Nat),
        SimulationMPI.usage stored args sample vertices jobs i =
          SimulationLHS.usage stored args sample vertices i := by
  have worker : (SimulationMPI.usage (fun _ _ => false) wplArgs (fun _ _ => 1 / 2) 10 0 0).policy =
      some (.weightedPolicyLearner (1 / 10) (1 / 100)) := by decide +kernel
  have sequential :
      (SimulationLHS.usage (fun _ _ => false) wplArgs (fun _ _ => 1 / 2) 10 0).policy =
        some (.weightedPolicyLearner (1 / 10) (1 / 2)) := by decide +kernel
  refine ⟨worker, sequential, fun always => ?_⟩
  have same := congrArg Usage.policy
    (always (fun _ _ => false) wplArgs (fun _ _ => 1 / 2) 10 0 0)
  rw [worker, sequential] at same
  exact absurd same (by decide +kernel)

end RlAqs
