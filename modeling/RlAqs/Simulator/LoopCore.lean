import RlAqs.Simulator.ProcessorCore

/-!
`EventProcessor::process` over a queue that refuses: it hands events out in time order and
throws at exactly those entries that are earlier than the last event handed out. The handlers
push one entry after the other, and the first refusal ends the loop.
-/

namespace RlAqs

structure EventLoop where
  processor : Processor
  /-- The time of the last event that the queue handed out. -/
  handedOut : Option ℚ
  /-- What `process` returned, once it did. -/
  returned : Option Bool
  /-- The times of the events handled, newest first. -/
  times : List ℚ
  /-- The clock was corrected at some event. -/
  corrected : Bool
  /-- Every entry pushed and the clock at the push, newest first. -/
  pushes : List (ℚ × Entry)

namespace EventLoop

open Handlers

def start (config : Config) : EventLoop where
  processor := Processor.start config
  handedOut := none
  returned := none
  times := []
  corrected := false
  pushes := []

/-- `PAST_EVENT_NOT_ALLOWED`. -/
def refuses (loop : EventLoop) (entry : Entry) : Bool :=
  match loop.handedOut with
  | none => false
  | some time => entry.arrival < time

/-- The pushes of a handler; `none` when one of them throws. -/
def push (loop : EventLoop) : List Entry → Option EventLoop
  | [] => some loop
  | entry :: rest =>
      if loop.refuses entry then none
      else
        push { loop with
          processor := loop.processor.push [entry]
          pushes := (loop.processor.oldTime, entry) :: loop.pushes } rest

def admin (graph : Graph) (config : Config) (loop : EventLoop) (entry : Entry)
    (gap : Int → ℚ≥0) : Option EventLoop :=
  let (currentTimeStep, serialised) :=
    serialiseArrivalsHandler config loop.processor.currentTimeStep loop.processor.uid entry
  let loop := { loop with processor := { loop.processor with currentTimeStep := currentTimeStep } }
  (loop.push serialised).bind fun loop =>
    (loop.push (generateArrivalsAdminHandler graph loop.processor.uid entry gap)).bind fun loop =>
      let (counter, logged) :=
        logGraphHandler config loop.processor.counter loop.processor.uid entry
      let loop := { loop with processor := { loop.processor with counter := counter } }
      (loop.push logged).bind fun loop =>
        loop.push (rollingSystemStatsAdminHandler config loop.processor.uid entry)

/-- A turn of `process`. After a refusal the vertex is half updated, but `process` returns. -/
def step (graph : Graph) (config : Config) (loop : EventLoop) (choice : Choice) :
    Option EventLoop :=
  if loop.returned ≠ none ∨ loop.processor.undefined then none
  else if loop.processor.pending = [] then some { loop with returned := some true }
  else if choice.entry ∈ loop.processor.pending ∧
      ∀ other ∈ loop.processor.pending, choice.entry.arrival ≤ other.arrival then
    let entry := loop.processor.take choice.entry
    let rest := loop.processor.pending.erase choice.entry
    let loop := { loop with
      processor := { loop.processor with pending := rest, oldTime := entry.arrival }
      handedOut := some choice.entry.arrival
      times := entry.arrival :: loop.times
      corrected := loop.corrected || choice.entry.arrival < loop.processor.oldTime }
    if entry.origin = adminEvent then
      some ((loop.admin graph config entry choice.gap).getD { loop with returned := some false })
    else if entry.arrival > config.stopTime then
      some { loop with
        processor := { loop.processor with pending := entry :: rest, stopped := true }
        returned := some true }
    else match loop.processor.handle graph config entry choice with
      | none =>
          some { loop with
            processor := { loop.processor with pending := entry :: rest, undefined := true } }
      | some (servers, pushed) =>
          match loop.push pushed with
          | none => some { loop with returned := some false }
          | some loop =>
              some { loop with
                processor := { loop.processor with
                  servers := servers
                  processed := ⟨entry, choice.serviceTime, pushed⟩ :: loop.processor.processed } }
  else none

end EventLoop

end RlAqs
