import RlAqs.Queue.LadderCore

/-!
The three-tier queue of `src/common/queue/LadderQueue.cc`. An operation returns
its result with the state it leaves, also when it fails: an exception does not
roll anything back.
-/

namespace RlAqs

structure LadderQueue where
  top : Top
  ladder : Ladder
  bottom : Bottom
  deriving DecidableEq, Repr

namespace LadderQueue

def init : LadderQueue where
  top := Top.init
  ladder := Ladder.init Ladder.defaultThres
  bottom := Bottom.init

/-- What `push` does after an insertion into the bottom: an overfull bottom goes to the
ladder, as a new epoch or by `pushBack`; a `pushBack` that throws leaves it where it is. -/
def relieveBottom (queue : LadderQueue) : Except Failure Bool × LadderQueue :=
  if queue.bottom.size > queue.ladder.getThres then
    if queue.ladder.getNBC = 0 then
      match queue.ladder.pushList queue.bottom.list queue.bottom.getMaxTS
          queue.bottom.getMinTS with
      | (result, ladder, list) =>
          (result.map fun _ => true,
            { queue with ladder := ladder, bottom := { queue.bottom with list := list } })
    else
      match queue.ladder.pushBack queue.bottom.list with
      | (.error .outOfBounds, ladder, list) =>
          (.error .outOfBounds,
            { queue with ladder := ladder, bottom := { queue.bottom with list := list } })
      | (_, ladder, list) =>
          (.ok true,
            { queue with ladder := ladder, bottom := { queue.bottom with list := list } })
  else (.ok true, queue)

def pushBottom (queue : LadderQueue) (entry : Entry) : Except Failure Bool × LadderQueue :=
  match queue.bottom.push entry with
  | (.error failure, bottom) => (.error failure, { queue with bottom := bottom })
  | (.ok _, bottom) => relieveBottom { queue with bottom := bottom }

def push (queue : LadderQueue) (entry : Entry) : Except Failure Bool × LadderQueue :=
  if entry.arrival ≥ queue.top.getTopStart then
    (.ok true, { queue with top := queue.top.push entry })
  else if entry.arrival ≤ queue.bottom.getMaxTS ∧ entry.arrival ≥ queue.bottom.getMinTS then
    queue.pushBottom entry
  else
    match queue.ladder.push entry with
    | (.ok _, ladder) => (.ok true, { queue with ladder := ladder })
    | (.error (.thrown _), ladder) => pushBottom { queue with ladder := ladder } entry
    | (.error .outOfBounds, ladder) =>
        (.error .outOfBounds, { queue with ladder := ladder })

def popBottom (queue : LadderQueue) : Except Failure (Option Entry) × LadderQueue :=
  match queue.bottom.front with
  | .error failure => (.error failure, queue)
  | .ok entry =>
      match queue.bottom.popFront with
      | (.error failure, bottom) => (.error failure, { queue with bottom := bottom })
      | (.ok _, bottom) => (.ok (some entry), { queue with bottom := bottom })

def popLadder (queue : LadderQueue) : Except Failure (Option Entry) × LadderQueue :=
  match queue.ladder.delist with
  | (.error failure, ladder) => (.error failure, { queue with ladder := ladder })
  | (.ok list, ladder) =>
      popBottom { queue with ladder := ladder, bottom := queue.bottom.pushList list }

def popTop (queue : LadderQueue) : Except Failure (Option Entry) × LadderQueue :=
  let max := queue.top.getMaxTS
  let min := queue.top.getMinTS
  match queue.top.delist with
  | (list, top) =>
      match queue.ladder.pushList list max min with
      | (.error failure, ladder, list) =>
          (.error failure, { queue with top := { top with fifo := list }, ladder := ladder })
      | (.ok _, ladder, list) =>
          match Top.reset { top with fifo := list } with
          | (.error failure, top) =>
              (.error failure, { queue with top := top, ladder := ladder })
          | (.ok _, top) => popLadder { queue with top := top, ladder := ladder }

/-- `dequeue`; `none` is the null pointer of the source. -/
def dequeue (queue : LadderQueue) : Except Failure (Option Entry) × LadderQueue :=
  if queue.bottom.size > 0 then queue.popBottom
  else if queue.ladder.getNBC > 0 then queue.popLadder
  else if queue.top.getNTop > 0 then queue.popTop
  else (.ok none, queue)

def size (queue : LadderQueue) : Nat :=
  queue.top.getNTop + queue.ladder.getNBC + queue.bottom.size

end LadderQueue

end RlAqs
