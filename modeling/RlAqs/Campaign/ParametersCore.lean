import RlAqs.Queue.QueueCore

/-!
The parameters of one design point on their two ways into a simulation: `SimulationLHS` writes
them into the shared arguments; `SimulationMPI` sends them to a worker, which keeps them in
local variables beside arguments of its own.
-/

namespace RlAqs

structure Parameters where
  netSize : Nat
  maxEdges : Nat
  edgeProb : ℚ
  boostArrival : ℚ
  boostEdge : ℚ
  rlQAlpha : ℚ
  rlQLambda : ℚ
  rlPolicyEpsilon : ℚ
  rlPolicyBoltzmannT : ℚ
  nnMomentum : ℚ
  rlPolicyWplEta : ℚ
  cognitiveAPos : ℚ
  cognitiveANeg : ℚ
  cognitiveRPos : ℚ
  cognitiveRNeg : ℚ
  deriving DecidableEq, Repr

/-- The command line, as far as it decides on parameters. A factor is sampled if its minimum is
below the largest number of its type. -/
structure DesArgs extends Parameters where
  graphFilename : String
  graphSingle : Bool
  netGen : Nat
  mfrw : Bool
  rl : Bool
  rlPolicy : Nat
  rlStateRepresentation : List Int
  nnCg : Bool
  minSize : Nat
  minMaxEdges : Nat
  minEdgeProb : ℚ
  minBoostArrival : ℚ
  minBoostEdge : ℚ
  minRlQAlpha : ℚ
  minRlQLambda : ℚ
  minRlPolicyEpsilon : ℚ
  minNnMomentum : ℚ
  minRlPolicyWplEta : ℚ
  minCognitiveAPos : ℚ
  minCognitiveANeg : ℚ
  minCognitiveRPos : ℚ
  minCognitiveRNeg : ℚ
  deriving DecidableEq, Repr

abbrev Design := Nat → Int → ℚ

namespace LhsUtils

/-- The factors in the order of the columns, those that are sampled marked. -/
def marks (args : DesArgs) : List Bool :=
  [args.minSize < 65535, args.minMaxEdges < 65535, args.minEdgeProb < dblMax,
    args.minBoostArrival < dblMax, args.minBoostEdge < dblMax, args.minRlQAlpha < dblMax,
    args.minRlQLambda < dblMax, args.minRlPolicyEpsilon < dblMax, args.minNnMomentum < dblMax,
    args.minRlPolicyWplEta < dblMax, args.minCognitiveAPos < dblMax,
    args.minCognitiveANeg < dblMax, args.minCognitiveRPos < dblMax,
    args.minCognitiveRNeg < dblMax]

/-- The column of a factor: the number of sampled factors up to it, less one. -/
def index (args : DesArgs) (factor : Nat) : Int :=
  if (marks args).getD factor false then ((marks args).take (factor + 1)).count true - 1 else -1

def getNetSizeIndex (args : DesArgs) : Int := index args 0

def getMaxEdgesIndex (args : DesArgs) : Int := index args 1

def getEdgeProbIndex (args : DesArgs) : Int := index args 2

def getVertexBoostIndex (args : DesArgs) : Int := index args 3

def getEdgeBoostIndex (args : DesArgs) : Int := index args 4

def getRLAlphaIndex (args : DesArgs) : Int := index args 5

def getRLLambdaIndex (args : DesArgs) : Int := index args 6

def getRLEpsilonIndex (args : DesArgs) : Int := index args 7

def getNNMomentumIndex (args : DesArgs) : Int := index args 8

def getRlWplEtaIndex (args : DesArgs) : Int := index args 9

def getCplAPosIndex (args : DesArgs) : Int := index args 10

def getCplANegIndex (args : DesArgs) : Int := index args 11

def getCplRPosIndex (args : DesArgs) : Int := index args 12

def getCplRNegIndex (args : DesArgs) : Int := index args 13

end LhsUtils

open LhsUtils

/-- `round`, which takes halves away from zero. -/
def cRound (x : ℚ) : Int := if x < 0 then -(-x + 1 / 2).floor else (x + 1 / 2).floor

def toUnsigned (bits : Nat) (x : Int) : Nat := (x % 2 ^ bits).toNat

def pick (column : Int) (row : Int → ℚ) (present : ℚ) : ℚ :=
  if column ≥ 0 then row column else present

def pickUnsigned (bits : Nat) (column : Int) (row : Int → ℚ) (present : Nat) : Nat :=
  if column ≥ 0 then toUnsigned bits (cRound (row column)) else present

/-- The message for a job; the temperature of the Boltzmann policy is never set. -/
def SimulationMPI.assignParams (args : DesArgs) (sample : Design) (simNum : Nat) : Parameters where
  netSize := pickUnsigned 32 (getNetSizeIndex args) (sample (simNum - 1)) args.netSize
  maxEdges := pickUnsigned 32 (getMaxEdgesIndex args) (sample (simNum - 1)) args.maxEdges
  edgeProb := pick (getEdgeProbIndex args) (sample (simNum - 1)) args.edgeProb
  boostArrival := pick (getVertexBoostIndex args) (sample (simNum - 1)) args.boostArrival
  boostEdge := pick (getEdgeBoostIndex args) (sample (simNum - 1)) args.boostEdge
  rlQAlpha := pick (getRLAlphaIndex args) (sample (simNum - 1)) args.rlQAlpha
  rlQLambda := pick (getRLLambdaIndex args) (sample (simNum - 1)) args.rlQLambda
  rlPolicyEpsilon := pick (getRLEpsilonIndex args) (sample (simNum - 1)) args.rlPolicyEpsilon
  rlPolicyBoltzmannT := 0
  nnMomentum := pick (getNNMomentumIndex args) (sample (simNum - 1)) args.nnMomentum
  rlPolicyWplEta := pick (getRlWplEtaIndex args) (sample (simNum - 1)) args.rlPolicyWplEta
  cognitiveAPos := pick (getCplAPosIndex args) (sample (simNum - 1)) args.cognitiveAPos
  cognitiveANeg := pick (getCplANegIndex args) (sample (simNum - 1)) args.cognitiveANeg
  cognitiveRPos := pick (getCplRPosIndex args) (sample (simNum - 1)) args.cognitiveRPos
  cognitiveRNeg := pick (getCplRNegIndex args) (sample (simNum - 1)) args.cognitiveRNeg

def SimulationLHS.assign (args : DesArgs) (sample : Design) (i : Nat) : DesArgs :=
  { args with
    netSize := pickUnsigned 16 (getNetSizeIndex args) (sample i) args.netSize
    maxEdges := pickUnsigned 16 (getMaxEdgesIndex args) (sample i) args.maxEdges
    edgeProb := pick (getEdgeProbIndex args) (sample i) args.edgeProb
    boostArrival := pick (getVertexBoostIndex args) (sample i) args.boostArrival
    boostEdge := pick (getEdgeBoostIndex args) (sample i) args.boostEdge
    rlQAlpha := pick (getRLAlphaIndex args) (sample i) args.rlQAlpha
    rlQLambda := pick (getRLLambdaIndex args) (sample i) args.rlQLambda
    rlPolicyEpsilon := pick (getRLEpsilonIndex args) (sample i) args.rlPolicyEpsilon
    nnMomentum := pick (getNNMomentumIndex args) (sample i) args.nnMomentum
    rlPolicyWplEta := pick (getRlWplEtaIndex args) (sample i) args.rlPolicyWplEta
    cognitiveAPos := pick (getCplAPosIndex args) (sample i) args.cognitiveAPos
    cognitiveANeg := pick (getCplANegIndex args) (sample i) args.cognitiveANeg
    cognitiveRPos := pick (getCplRPosIndex args) (sample i) args.cognitiveRPos
    cognitiveRNeg := pick (getCplRNegIndex args) (sample i) args.cognitiveRNeg }

namespace Simulation

inductive Generator where
  | createBBVGraph (size maxEdges : Nat) (boostArrival boostEdge : ℚ)
  | createERGraph (size : Nat) (boostArrival boostEdge edgeProb : ℚ) (maxEdges : Nat)
  deriving DecidableEq, Repr

inductive Policy where
  | epsilonGreedy (epsilon : ℚ)
  | boltzmannPolicy (tau : ℚ)
  | weightedPolicyLearner (epsilon eta : ℚ)
  | fairActionLearner (epsilon eta : ℚ)
  | gradientPolicyLearner (epsilon eta aNeg aPos rNeg rPos : ℚ)
  deriving DecidableEq, Repr

/-- The parameters of the response handler; conjugate gradients have no momentum. -/
inductive Response where
  | network (qAlpha qLambda : ℚ) (momentum : Option ℚ)
  | rlResponseHandler (qAlpha qLambda : ℚ)
  deriving DecidableEq, Repr

structure Usage where
  repository : Option (ℚ × ℚ)
  generator : Option Generator
  arrivals : Option Nat
  policy : Option Policy
  response : Option Response
  deriving DecidableEq, Repr

/-- The local variables; the sizes have 16 bits. -/
def locals (received : Parameters) : Parameters :=
  { received with
    netSize := toUnsigned 16 received.netSize
    maxEdges := toUnsigned 16 received.maxEdges }

def createGraph (args : DesArgs) (own : Parameters) : Option Generator :=
  if args.netGen = 1 then
    some (.createBBVGraph own.netSize args.maxEdges own.boostArrival own.boostEdge)
  else if args.netGen = 2 then
    some (.createERGraph own.netSize own.boostArrival own.boostEdge own.edgeProb own.maxEdges)
  else none

/-- The policies read the configuration channel, which holds the arguments. -/
def policy (args : DesArgs) : Option Policy :=
  match args.rlPolicy with
  | 1 => some (.epsilonGreedy args.rlPolicyEpsilon)
  | 2 => some (.boltzmannPolicy args.rlPolicyBoltzmannT)
  | 3 => some (.weightedPolicyLearner args.rlPolicyEpsilon args.rlPolicyWplEta)
  | 4 => some (.fairActionLearner args.rlPolicyEpsilon args.rlPolicyWplEta)
  | 5 => some (.gradientPolicyLearner args.rlPolicyEpsilon args.rlPolicyWplEta
      args.cognitiveANeg args.cognitiveAPos args.cognitiveRNeg args.cognitiveRPos)
  | _ => none

def response (args : DesArgs) (own : Parameters) : Response :=
  if args.rlStateRepresentation.length > 0 then
    .network own.rlQAlpha own.rlQLambda (if args.nnCg then none else some own.nnMomentum)
  else .rlResponseHandler own.rlQAlpha own.rlQLambda

/-- A graph that is read from a file overwrites the size in the arguments. -/
def simulated (vertices : Nat) (args : DesArgs) : DesArgs :=
  if args.graphFilename = "" then args else { args with netSize := toUnsigned 16 vertices }

/-- The rows of the matrix that the constructor of `CJYArrivals` allocates, with the size of the
configuration channel. -/
def arrivals (args : DesArgs) : Option Nat := if args.mfrw then some args.netSize else none

/-- `stored` tells which boosts the repository has a graph for, and the graph file has so many
vertices. -/
def usage (stored : ℚ → ℚ → Bool) (vertices : Nat) (args : DesArgs) (own : Parameters) :
    Usage where
  repository := if args.graphFilename = "" ∧ args.graphSingle then
    some (own.boostArrival, own.boostEdge) else none
  generator := if args.graphFilename = "" ∧
      ¬(args.graphSingle ∧ stored own.boostArrival own.boostEdge) then
    createGraph args own else none
  arrivals := arrivals (simulated vertices args)
  policy := if args.rl then policy args else none
  response := if args.rl then some (response args own) else none

end Simulation

open Simulation

/-- The arguments with which the sequential path simulates row `i`, after the rows before. -/
def SimulationLHS.arguments (args : DesArgs) (sample : Design) (vertices : Nat) : Nat → DesArgs
  | 0 => assign args sample 0
  | i + 1 => assign (simulated vertices (arguments args sample vertices i)) sample (i + 1)

def SimulationLHS.usage (stored : ℚ → ℚ → Bool) (args : DesArgs) (sample : Design)
    (vertices i : Nat) : Usage :=
  let args := arguments args sample vertices i
  Simulation.usage stored vertices args (locals args.toParameters)

def SimulationMPI.usage (stored : ℚ → ℚ → Bool) (args : DesArgs) (sample : Design)
    (vertices jobs i : Nat) : Usage :=
  Simulation.usage stored vertices ((simulated vertices)^[jobs] args)
    (locals (assignParams args sample (i + 1)))

end RlAqs
