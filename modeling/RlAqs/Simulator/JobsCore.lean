import RlAqs.Simulator.ProcessorCore

/-!
The way of an external job through the graph. The code spreads it over copies of `Entry`;
here it is the list of the vertices the job has visited, and the itinerary is what its
processed events have to look like: out over the visited vertices, back over the same
vertices with acknowledgements, and away from the first of them.
-/

namespace RlAqs

structure Visit where
  vertex : Int
  time : ℚ
  deriving DecidableEq, Repr

inductive Stop
  | arrive (visit : Visit)
  | depart (vertex : Int)
  | ack (origin vertex : Int) (topArrival : Option ℚ)
  | leave (origin : Int)
  deriving DecidableEq, Repr

namespace Stop

def visit? : Stop → Option Visit
  | arrive visit => some visit
  | _ => none

def isAck : Stop → Bool
  | ack .. => true
  | _ => false

def isLeave : Stop → Bool
  | leave _ => true
  | _ => false

/-- `ACK_1HOP` copies are not counted. -/
def ofEntry (entry : Entry) : Option Stop :=
  if entry.type = lastArrivalEvent ∨ entry.type = arrivalEvent then
    some (.arrive ⟨entry.destination, entry.arrival⟩)
  else if entry.type = departureEvent then some (.depart entry.destination)
  else if entry.type = ackEvent then
    some (.ack entry.origin entry.destination entry.topArrival)
  else if entry.type = leaveEvent then some (.leave entry.origin)
  else none

end Stop

/-! A journey, with the visits listed newest first. -/

def outward : List Visit → List Stop
  | [] => []
  | visit :: earlier => outward earlier ++ [.arrive visit, .depart visit.vertex]

/-- The way back from `origin` over the visits that are still open. -/
def homeward : Int → List Visit → List Stop
  | origin, [] => [.leave origin]
  | origin, visit :: earlier =>
      .ack origin visit.vertex (some visit.time) :: homeward visit.vertex earlier

/-- The first acknowledgement is from the last vertex to itself. -/
def itinerary : List Visit → List Stop
  | [] => []
  | visit :: earlier => outward (visit :: earlier) ++ homeward visit.vertex (visit :: earlier)

def Linked (graph : Graph) (visited : List Visit) : Prop :=
  visited.IsChain fun later earlier => graph.HasEdge earlier.vertex later.vertex

def journey (id : Nat) (processed : List Record) : List Stop :=
  ((processed.filter fun record => record.entry.id = id).filterMap fun record =>
    Stop.ofEntry record.entry).reverse

def live (id : Nat) (entries : List Entry) : List Entry :=
  entries.filter fun entry => entry.id = id ∧ (Stop.ofEntry entry).isSome

namespace Processor

def External (id : Nat) (processor : Processor) : Prop :=
  (∃ entry ∈ processor.pending, entry.id = id ∧ entry.type = lastArrivalEvent) ∨
    ∃ record ∈ processor.processed,
      record.entry.id = id ∧ record.entry.type = lastArrivalEvent

instance (id : Nat) (processor : Processor) : Decidable (External id processor) :=
  inferInstanceAs (Decidable (_ ∨ _))

def Routed (graph : Graph) (_ : Processor) (choice : Choice) : Prop :=
  choice.entry.type = departureEvent → 0 < graph.outDegree choice.entry.destination →
    graph.HasEdge choice.entry.destination choice.selected

instance (graph : Graph) (processor : Processor) (choice : Choice) :
    Decidable (Routed graph processor choice) :=
  inferInstanceAs (Decidable (_ → _ → _))

end Processor

end RlAqs
