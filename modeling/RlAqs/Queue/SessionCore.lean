import RlAqs.Queue.LadderQueueCore
import Mathlib.Data.Multiset.AddSub
import Mathlib.Data.Multiset.UnionInter

/-!
Sequences of calls on a queue that starts empty. A session keeps the events that
were accepted and those that were handed out, both in the order of the calls. A
call that leaves the arrays has no next state.
-/

namespace RlAqs

inductive Call
  | push (entry : Entry)
  | dequeue
  deriving DecidableEq, Repr

structure Session where
  queue : LadderQueue
  accepted : List Entry
  dequeued : List Entry
  deriving DecidableEq, Repr

namespace Session

def init : Session := { queue := LadderQueue.init, accepted := [], dequeued := [] }

def call (session : Session) : Call → Option Session
  | .push entry =>
      match session.queue.push entry with
      | (.ok _, queue) =>
          some { session with queue := queue, accepted := session.accepted ++ [entry] }
      | (.error (.thrown _), queue) => some { session with queue := queue }
      | (.error .outOfBounds, _) => none
  | .dequeue =>
      match session.queue.dequeue with
      | (.ok (some entry), queue) =>
          some { session with queue := queue, dequeued := session.dequeued ++ [entry] }
      | (.ok none, queue) => some { session with queue := queue }
      | (.error (.thrown _), queue) => some { session with queue := queue }
      | (.error .outOfBounds, _) => none

def pending (session : Session) : Multiset Entry :=
  (session.accepted : Multiset Entry) - session.dequeued

def pushes (calls : List Call) : List Entry :=
  calls.filterMap fun
    | .push entry => some entry
    | .dequeue => none

end Session

end RlAqs
