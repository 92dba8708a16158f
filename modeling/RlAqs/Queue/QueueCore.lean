import RlAqs.Queue.EntryCore
import Mathlib.Data.List.Sort

/-!
The two outer structures of the ladder queue: `Top`, an unsorted list with the
range of its times, and `Bottom`, the sorted list that serves the dequeues.
A list handed over by pointer is passed by value and given back as what the
callee leaves in it.
-/

namespace RlAqs

inductive QueueException
  | badReset
  | rungNotFound
  | rungOutOfBounds
  | bucketOutOfBounds
  | noEpochInit
  | epochExists
  | pastEventNotAllowed
  | queueEmpty
  | advanceIgnoredEvents
  | bucketEqualsDequeuebucket
  deriving DecidableEq, Repr

inductive Failure
  | thrown (code : QueueException)
  | outOfBounds
  deriving DecidableEq, Repr

def dblMax : ℚ := (2 ^ 53 - 1) * 2 ^ 971

/-- `EntryList::sort`, stable and ordered by `operator<`. -/
def sortEntries (list : List Entry) : List Entry :=
  list.insertionSort fun left right => right.lt left = false

/-- `EntryList::merge`: of two equal elements the one already in the list comes first. -/
def mergeEntries : List Entry → List Entry → List Entry
  | [], others => others
  | entry :: list, others =>
      (others.takeWhile fun other => other.lt entry) ++
        entry :: mergeEntries list (others.dropWhile fun other => other.lt entry)

structure Top where
  maxTS : ℚ
  minTS : ℚ
  topStart : ℚ
  fifo : List Entry
  deriving DecidableEq, Repr

namespace Top

def init : Top := { maxTS := 0, minTS := dblMax, topStart := 0, fifo := [] }

def getMaxTS (top : Top) : ℚ := top.maxTS

def getMinTS (top : Top) : ℚ := top.minTS

def getTopStart (top : Top) : ℚ := top.topStart

def getNTop (top : Top) : Nat := top.fifo.length

def setMaxTS (top : Top) (maxTS : ℚ) : Top :=
  if maxTS > top.maxTS then { top with maxTS := maxTS } else top

def setMinTS (top : Top) (minTS : ℚ) : Top :=
  if minTS < top.minTS then { top with minTS := minTS } else top

def reset (top : Top) : Except Failure Unit × Top :=
  if top.getNTop > 0 then (.error (.thrown .badReset), top)
  else (.ok (), { top with maxTS := 0, minTS := dblMax })

def push (top : Top) (entry : Entry) : Top :=
  let ranged := (top.setMaxTS entry.arrival).setMinTS entry.arrival
  { ranged with fifo := ranged.fifo ++ [entry] }

/-- `delist` hands out the list itself and moves the start of the next epoch behind it. -/
def delist (top : Top) : List Entry × Top :=
  let width := if top.maxTS > top.minTS then
    (top.maxTS - top.minTS) / top.fifo.length else 0
  (top.fifo, { top with topStart := top.maxTS + width })

end Top

structure Bottom where
  lastEvent : ℚ
  list : List Entry
  deriving DecidableEq, Repr

namespace Bottom

def init : Bottom := { lastEvent := 0, list := [] }

def size (bottom : Bottom) : Nat := bottom.list.length

/-- The backward search of the insertion, on the reversed list: in front of the first
element that is not later, at the far end when there is none. -/
def insertFromBack (entry : Entry) : List Entry → List Entry
  | [] => [entry]
  | last :: earlier =>
      if last.arrival ≤ entry.arrival then entry :: last :: earlier
      else last :: insertFromBack entry earlier

def push (bottom : Bottom) (entry : Entry) : Except Failure Bool × Bottom :=
  if entry.arrival < bottom.lastEvent then
    (.error (.thrown .pastEventNotAllowed), bottom)
  else match bottom.list.getLast? with
    | none => (.ok true, { bottom with list := bottom.list ++ [entry] })
    | some back =>
        if back.arrival ≤ entry.arrival then
          (.ok true, { bottom with list := bottom.list ++ [entry] })
        else
          (.ok true, { bottom with list := (insertFromBack entry bottom.list.reverse).reverse })

def pushList (bottom : Bottom) (list : List Entry) : Bottom :=
  { bottom with list := mergeEntries bottom.list (sortEntries list) }

def front (bottom : Bottom) : Except Failure Entry :=
  match bottom.list with
  | [] => .error (.thrown .queueEmpty)
  | first :: _ => .ok first

def popFront (bottom : Bottom) : Except Failure Unit × Bottom :=
  match bottom.list with
  | [] => (.error (.thrown .queueEmpty), bottom)
  | first :: rest => (.ok (), { bottom with lastEvent := first.arrival, list := rest })

def getMaxTS (bottom : Bottom) : ℚ :=
  match bottom.list.getLast? with
  | some back => back.arrival
  | none => bottom.lastEvent

def getMinTS (bottom : Bottom) : ℚ :=
  match bottom.list.head? with
  | some first => first.arrival
  | none => bottom.lastEvent

end Bottom

end RlAqs
