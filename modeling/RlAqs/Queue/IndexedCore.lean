import RlAqs.Queue.LadderEpoch
import RlAqs.Queue.SessionCore

/-!
The look-ups `m_rungs[r][k]` of the queue. Beside each function of the source that
makes some stands the list of the rungs they are made on, each rung as it is at
that moment, in the order of the look-ups. A look-up outside the array is listed
and is the last one.
-/

namespace RlAqs

/-- The look-ups of `Rung.advanceFrom`, that behind the last bucket included. -/
def Rung.advanceFromIndexed (rung : Rung) : List (List Entry) → List Rung
  | [] => [rung]
  | [] :: later =>
      rung :: Rung.advanceFromIndexed
        { rung with
          currentBucket := rung.currentBucket + 1
          rCur := rung.rCur + rung.bucketwidth }
        later
  | (_ :: _) :: _ => [rung]

def Rung.advanceIndexed (rung : Rung) : List Rung :=
  rung.advanceFromIndexed (rung.lists.drop rung.currentBucket)

namespace Ladder

def pushIndexed (ladder : Ladder) (entry : Entry) : List Rung :=
  if ladder.getNBC = 0 then []
  else if entry.arrival < ladder.lowest.rCur then []
  else
    let index := ladder.findRung entry.arrival ladder.lowestRung
    if index ≤ ladder.lowestRung then [ladder.rung index] else []

def pushRungIndexed (ladder : Ladder) (index : Nat) : List Entry → List Rung
  | [] => []
  | entry :: rest =>
      match ladder.enter index entry with
      | (.ok _, next) => ladder.rung index :: next.pushRungIndexed index rest
      | (.error _, _) => [ladder.rung index]

def enlistIndexed (ladder : Ladder) : List Rung :=
  let above := ladder.lowestRung - 1
  let rung := ladder.rung above
  match rung.lists[rung.currentBucket]? with
  | none => [rung]
  | some list =>
      let ladder := ladder.modifyRung above fun rung =>
        { rung with
          currentBucket := rung.currentBucket + 1
          lists := rung.lists.set rung.currentBucket [] }
      let ladder := ladder.removeEvents above list.length
      rung :: ladder.pushRungIndexed ladder.lowestRung list

def spawnIndexed (ladder : Ladder) (doEnlist : Bool) : List Rung :=
  if ladder.lowestRung < maxRungs - 1 then
    if doEnlist then ladder.openRung.enlistIndexed else []
  else []

def pushBackIndexed (ladder : Ladder) (list : List Entry) : List Rung :=
  ladder.spawnIndexed false ++
    match ladder.spawn false with
    | (.ok true, ladder) => ladder.pushRungIndexed ladder.lowestRung list
    | _ => []

def pushListIndexed (ladder : Ladder) (list : List Entry) (maxTS minTS : ℚ) : List Rung :=
  if ladder.getNBC ≠ 0 then []
  else if list.length = 0 then []
  else
    let ladder := ladder.started list maxTS minTS
    ladder.pushRungIndexed ladder.lowestRung list

def nextBucketIndexed (ladder : Ladder) : List Rung :=
  (skipEmptyRungs ladder.lowestRung ladder).lowest.advanceIndexed

def advanceDequeueBucketIndexed (ladder : Ladder) (doSpawn : Bool) : List Rung :=
  ladder.nextBucketIndexed ++
    match ladder.nextBucket with
    | (.error _, _) => []
    | (.ok _, ladder) =>
        if doSpawn ∧ ladder.lowest.current.length > ladder.thres then
          let ladder := ladder.modifyRung ladder.lowestRung fun rung =>
            { rung with rCur := rung.rCur + rung.bucketwidth }
          ladder.spawnIndexed true ++
            match ladder.spawn true with
            | (.error _, _) => []
            | (.ok _, ladder) => ladder.nextBucketIndexed
        else []

def delistIndexed (ladder : Ladder) : List Rung :=
  ladder.advanceDequeueBucketIndexed true ++
    match ladder.advanceDequeueBucket true with
    | (.error _, _) => []
    | (.ok _, ladder) => [ladder.lowest]

end Ladder

namespace LadderQueue

def relieveBottomIndexed (queue : LadderQueue) : List Rung :=
  if queue.bottom.size > queue.ladder.getThres then
    if queue.ladder.getNBC = 0 then
      queue.ladder.pushListIndexed queue.bottom.list queue.bottom.getMaxTS queue.bottom.getMinTS
    else queue.ladder.pushBackIndexed queue.bottom.list
  else []

def pushBottomIndexed (queue : LadderQueue) (entry : Entry) : List Rung :=
  match queue.bottom.push entry with
  | (.error _, _) => []
  | (.ok _, bottom) => relieveBottomIndexed { queue with bottom := bottom }

def pushIndexed (queue : LadderQueue) (entry : Entry) : List Rung :=
  if entry.arrival ≥ queue.top.getTopStart then []
  else if entry.arrival ≤ queue.bottom.getMaxTS ∧ entry.arrival ≥ queue.bottom.getMinTS then
    queue.pushBottomIndexed entry
  else
    queue.ladder.pushIndexed entry ++
      match queue.ladder.push entry with
      | (.error (.thrown _), ladder) => pushBottomIndexed { queue with ladder := ladder } entry
      | _ => []

def popTopIndexed (queue : LadderQueue) : List Rung :=
  let max := queue.top.getMaxTS
  let min := queue.top.getMinTS
  match queue.top.delist with
  | (list, top) =>
      queue.ladder.pushListIndexed list max min ++
        match queue.ladder.pushList list max min with
        | (.error _, _, _) => []
        | (.ok _, ladder, list) =>
            match Top.reset { top with fifo := list } with
            | (.error _, _) => []
            | (.ok _, _) => ladder.delistIndexed

def dequeueIndexed (queue : LadderQueue) : List Rung :=
  if queue.bottom.size > 0 then []
  else if queue.ladder.getNBC > 0 then queue.ladder.delistIndexed
  else if queue.top.getNTop > 0 then queue.popTopIndexed
  else []

end LadderQueue

def Session.indexed (session : Session) : Call → List Rung
  | .push entry => session.queue.pushIndexed entry
  | .dequeue => session.queue.dequeueIndexed

end RlAqs
