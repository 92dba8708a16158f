import RlAqs.Sampling.WalkCore
import RlAqs.Simulator.ProcessorCore

/-!
The arrival rates of `src/core/mgmt/CJYArrivals.cc`: a matrix with a walk for each node, scaled
to a range around the arrival rate of the node, of which `SerialiseArrivalsHandler` writes a
column into the graph at each of its events. A number that is none is `none`.
-/

namespace RlAqs

def gslVectorMin (row : List ℚ) : ℚ := row.foldl min (row.headD 0)

def gslVectorMax (row : List ℚ) : ℚ := row.foldl max (row.headD 0)

structure CJYArrivals where
  size1 : Nat
  size2 : Nat
  arrivalRates : Nat → Nat → Option ℚ

inductive MgmtException
  | nodeNotExist
  | timeNotExist
  deriving DecidableEq, Repr

namespace CJYArrivals

def scale (lower upper arrivalRate : ℚ) (row : List ℚ) : List (Option ℚ) :=
  let least := lower * arrivalRate
  let most := upper * arrivalRate
  let minElement := -gslVectorMin row
  let row := row.map fun x => x + minElement
  let scale := divide 1 (gslVectorMax row)
  row.map fun x => scale.map fun scale => x * scale * (most - least) + least

/-- The walk of a node, with `mfrw_nmax` as a power of `lambda`. -/
def walk (functions : MFRW.Functions) (settings : MFRW.Settings) (nmax : ℚ)
    (draws : Nat → MFRW.Draws) (T node : Nat) : Option (List ℚ) :=
  (divide (functions.log nmax) (functions.log settings.lambda)).bind fun nmax =>
    MFRW.path functions { settings with nmax := nmax } (draws node) T

/-- `generate` without a file; a node that is no vertex has no arrival rate. -/
def generate (functions : MFRW.Functions) (settings : MFRW.Settings) (nmax : ℚ)
    (draws : Nat → MFRW.Draws) (lower upper : ℚ) (arrivalRate : Nat → ℚ) (graph : Graph)
    (netSize T : Nat) : Option CJYArrivals :=
  if netSize ≤ graph.size then
    ((List.range netSize).mapM fun node =>
      (walk functions settings nmax draws T node).map
        (scale lower upper (arrivalRate node))).map fun rows =>
      { size1 := netSize
        size2 := T
        arrivalRates := fun node t => (rows.getD node []).getD t none }
  else none

/-- The arguments are cut to 16 bits. -/
def serialise (arrivals : CJYArrivals) (v t : Nat) (rates : Nat → Option ℚ) :
    Except MgmtException (Nat → Option ℚ) :=
  let v := v % 65536
  let t := t % 65536
  if v ≥ arrivals.size1 then .error .nodeNotExist
  else if t ≥ arrivals.size2 then .error .timeNotExist
  else .ok (Function.update rates v (arrivals.arrivalRates v t))

end CJYArrivals

def Handlers.serialiseColumn (arrivals : CJYArrivals) (t : Nat) :
    List Nat → (Nat → Option ℚ) → Except MgmtException (Nat → Option ℚ)
  | [], rates => .ok rates
  | vertex :: rest, rates => do
      let rates ← arrivals.serialise vertex t rates
      serialiseColumn arrivals t rest rates

namespace Rates

open Handlers

abbrev State := Processor × (Nat → Option ℚ)

/-- Nothing is caught, so there is no turn where a rate does not exist. -/
def step (graph : Graph) (config : Config) (arrivals : CJYArrivals) (state : State)
    (choice : Choice) : Option State :=
  (Processor.step graph config state.1 choice).bind fun next =>
    let entry := state.1.take choice.entry
    if entry.origin = adminEvent ∧ entry.type = serialiseArrivalEvent ∧
        state.1.currentTimeStep < config.mfrwT then
      (serialiseColumn arrivals state.1.currentTimeStep (List.range graph.size)
        state.2).toOption.map fun rates => (next, rates)
    else some (next, state.2)

end Rates

end RlAqs
