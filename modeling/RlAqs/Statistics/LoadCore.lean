import RlAqs.Statistics.MonitorCore

/-!
`UtilisationHandler`, the first of the handlers called after any event. It reads the time of
the last event before `LastEventHandler` sets it anew.
-/

namespace RlAqs

structure Utilisation where
  bdt : ℚ
  utilisation : Option ℚ
  deriving DecidableEq, Repr

def Utilisation.fresh : Utilisation where
  bdt := 0
  utilisation := some 0

namespace Handlers

def utilisationHandler (server : Server) (vertex : VertexStatistics) (load : Utilisation)
    (entry : Entry) : Utilisation :=
  if servesEvent entry then
    let diff := entry.arrival - vertex.lastEventTime
    let b :=
      if entry.type = lastArrivalEvent ∨ entry.type = arrivalEvent then
        if server.numberInQueue > 0 ∧ diff ≥ 0 then diff else 0
      else if diff ≥ 0 then diff else 0
    let bdt := load.bdt + b
    { bdt := bdt, utilisation := divide bdt entry.arrival }
  else load

end Handlers

namespace Utilisation

open Handlers

def turn (loads : Int → Utilisation) (monitor : Monitor) (entry : Entry) (next : Processor) :
    Int → Utilisation :=
  let vertex := entry.destination
  if entry.origin = adminEvent then loads
  else if next.stopped ∨ next.undefined then loads
  else
    Function.update loads vertex
      (utilisationHandler (next.servers vertex) ((monitor.leave entry).vertices vertex)
        (loads vertex) entry)

abbrev State := (Processor × Monitor) × (Int → Utilisation)

def start (config : Config) (system : SystemStatistics) : State :=
  ((Processor.start config, Monitor.start system), fun _ => fresh)

def step (graph : Graph) (config : Config) (state : State) (choice : Choice) : Option State :=
  (Monitor.step graph config state.1 choice).map fun next =>
    (next, turn state.2 state.1.2 (state.1.1.take choice.entry) next.1)

end Utilisation

end RlAqs
