import RlAqs.Queue.SessionStable
import RlAqs.Simulator.LoopCore

/-!
`EventProcessor::process` over the ladder queue itself, to the end of its post event. A turn
dequeues, and the only choice left to it is what its handlers draw.
-/

namespace RlAqs

structure TurnDraws where
  serviceTime : ℚ≥0
  gap : Int → ℚ≥0
  selected : Nat

def TurnDraws.choice (draws : TurnDraws) (entry : Entry) : Choice where
  entry := entry
  serviceTime := draws.serviceTime
  gap := draws.gap
  selected := draws.selected

def Choice.draws (choice : Choice) : TurnDraws where
  serviceTime := choice.serviceTime
  gap := choice.gap
  selected := choice.selected

namespace Session

def handOut (session : Session) (entry : Entry) (queue : LadderQueue) : Session :=
  { session with queue := queue, dequeued := session.dequeued ++ [entry] }

/-- The loop of `UnprocessedEventsHandler` and `NullUnprocessedEventsHandler` after its first
event: what it dequeues, and how it ends. -/
def drain : Nat → Session → Option (List Entry × Except Failure Session)
  | 0, _ => none
  | fuel + 1, session =>
      match session.queue.dequeue with
      | (.error failure, _) => some ([], .error failure)
      | (.ok none, queue) => some ([], .ok { session with queue := queue })
      | (.ok (some entry), queue) =>
          (drain fuel (session.handOut entry queue)).map fun rest => (entry :: rest.1, rest.2)

end Session

structure QueuedLoop where
  /-- The queue, with what it accepted and what it handed out. -/
  session : Session
  servers : Int → Server
  uid : Nat
  oldTime : ℚ
  counter : Nat
  currentTimeStep : Nat
  /-- What `process` returned, once it did. -/
  returned : Option Bool
  processed : List Record
  /-- The admin events handled, newest first. -/
  administered : List Entry
  /-- The events left over for the post event, in the order they are recorded. -/
  unprocessed : List Entry
  corrected : Bool
  /-- No push has disturbed the order of the queue. -/
  undisturbed : Bool
  /-- No push has gone below an event of its time. -/
  unmixed : Bool

namespace QueuedLoop

open Handlers

def initial : QueuedLoop where
  session := Session.init
  servers := fun _ => Server.fresh
  uid := 0
  oldTime := 0
  counter := 0
  currentTimeStep := 0
  returned := none
  processed := []
  administered := []
  unprocessed := []
  corrected := false
  undisturbed := true
  unmixed := true

def processor (loop : QueuedLoop) (pending : List Entry) (stopped : Bool) : Processor where
  servers := loop.servers
  pending := pending
  uid := loop.uid
  oldTime := loop.oldTime
  counter := loop.counter
  currentTimeStep := loop.currentTimeStep
  stopped := stopped
  undefined := false
  processed := loop.processed

def accept (loop : QueuedLoop) (entry : Entry) (queue : LadderQueue) : QueuedLoop :=
  { loop with
    session := { loop.session with queue := queue, accepted := loop.session.accepted ++ [entry] }
    uid := loop.uid + 1
    undisturbed := loop.undisturbed && decide (loop.session.queue.Undisturbed entry.arrival)
    unmixed := loop.unmixed && decide (loop.session.queue.Unmixed entry.arrival) }

/-- The pushes of a handler, up to the first one that fails. -/
def push (loop : QueuedLoop) : List Entry → Except Failure QueuedLoop
  | [] => .ok loop
  | entry :: rest =>
      match loop.session.queue.push entry with
      | (.error failure, _) => .error failure
      | (.ok _, queue) => (loop.accept entry queue).push rest

def start (config : Config) : Except Failure QueuedLoop :=
  initial.push ((Processor.initialTypes config).mapIdx fun uid type =>
    EventGenerator.generateAdminEventType uid 0 type)

/-- The handler of `QueueException` in `process`. -/
def caught (loop : QueuedLoop) : Failure → Option QueuedLoop
  | .thrown code => some { loop with returned := some (code = .queueEmpty) }
  | .outOfBounds => none

def admin (graph : Graph) (config : Config) (loop : QueuedLoop) (entry : Entry)
    (gap : Int → ℚ≥0) : Except Failure QueuedLoop := do
  let (currentTimeStep, serialised) :=
    serialiseArrivalsHandler config loop.currentTimeStep loop.uid entry
  let loop ← { loop with currentTimeStep := currentTimeStep }.push serialised
  let loop ← loop.push (generateArrivalsAdminHandler graph loop.uid entry gap)
  let (counter, logged) := logGraphHandler config loop.counter loop.uid entry
  let loop ← { loop with counter := counter }.push logged
  loop.push (rollingSystemStatsAdminHandler config loop.uid entry)

def post (loop : QueuedLoop) (entry : Entry) : Option QueuedLoop :=
  (loop.session.drain (loop.session.queue.size + 1)).bind fun (drained, ended) =>
    let loop := { loop with unprocessed := entry :: drained }
    match ended with
    | .error failure => loop.caught failure
    | .ok session => some { loop with session := session, returned := some true }

def take (loop : QueuedLoop) (entry : Entry) (queue : LadderQueue) : QueuedLoop × Entry :=
  let past := decide (entry.arrival < loop.oldTime)
  let taken := if past then entry.setArrival (loop.oldTime + Processor.epsilon) else entry
  ({ loop with
      session := loop.session.handOut entry queue
      oldTime := taken.arrival
      corrected := loop.corrected || past },
    taken)

/-- What `process` does with the event in hand; `none` where a history stack is empty. -/
def handle (graph : Graph) (config : Config) (loop : QueuedLoop) (entry : Entry)
    (draws : TurnDraws) : Option QueuedLoop :=
  if entry.origin = adminEvent then
    match loop.admin graph config entry draws.gap with
    | .error failure => loop.caught failure
    | .ok loop => some { loop with administered := entry :: loop.administered }
  else if entry.arrival > config.stopTime then loop.post entry
  else
    ((loop.processor [] false).handle graph config entry (draws.choice entry)).bind
      fun (servers, pushed) =>
        match loop.push pushed with
        | .error failure => loop.caught failure
        | .ok loop =>
            some { loop with
              servers := servers
              processed := ⟨entry, draws.serviceTime, pushed⟩ :: loop.processed }

def step (graph : Graph) (config : Config) (loop : QueuedLoop) (draws : TurnDraws) :
    Option QueuedLoop :=
  if loop.returned ≠ none then none
  else match loop.session.queue.dequeue with
    | (.error failure, _) => loop.caught failure
    | (.ok none, queue) =>
        -- `post` is given no event then, and records nothing.
        some { loop with
          session := { loop.session with queue := queue }
          returned := some true }
    | (.ok (some entry), queue) =>
        let (loop, entry) := loop.take entry queue
        loop.handle graph config entry draws

def run (graph : Graph) (config : Config) (draws : List TurnDraws) : Option QueuedLoop :=
  (start config).toOption.bind fun loop => Runs.run (step graph config) loop draws

end QueuedLoop

end RlAqs
