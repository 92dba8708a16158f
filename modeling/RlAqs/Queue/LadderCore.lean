import RlAqs.Queue.QueueCore
import Mathlib.Data.Rat.Floor
import Mathlib.Data.Nat.Log

/-!
The ladder of `src/common/queue/Ladder.cc`. The parallel arrays of the class
(`m_events`, `m_currentBucket`, `m_buckets`, `m_bucketwidth`, `m_RCur`,
`m_RStart`, `m_rungs`) are one list with a record for each rung, so `m_NRung`
is its length. Counters are natural numbers.
-/

namespace RlAqs

/-- `(boost::uint32_t) x` of a nonnegative `x`. The conversion of a value from 2^32 on is
undefined; the low 32 bits are what the 64-bit conversion of the compilers leaves. -/
def toUInt32 (x : ℚ) : Nat := ⌊x⌋.toNat % 2 ^ 32

/-- The exponent `frexp` gives for a positive rational: the least one with `x < 2 ^ exponent`. -/
def frexpExponent (x : ℚ) : Int :=
  let guess : Int := Nat.log2 x.num.natAbs - Nat.log2 x.den
  if x < (2 : ℚ) ^ guess then guess else guess + 1

/-- `gsl_fcmp` of the GNU Scientific Library, on rationals. -/
def gslFcmp (x1 x2 epsilon : ℚ) : Int :=
  let max := if |x1| > |x2| then x1 else x2
  let exponent := if max = 0 then 0 else frexpExponent |max|
  let delta := epsilon * (2 : ℚ) ^ exponent
  if x1 - x2 > delta then 1 else if x1 - x2 < -delta then -1 else 0

structure Rung where
  events : Nat
  currentBucket : Nat
  buckets : Nat
  bucketwidth : ℚ
  rCur : ℚ
  rStart : ℚ
  lists : List (List Entry)
  deriving DecidableEq, Repr, Inhabited

def Rung.fresh (thres : Nat) : Rung where
  events := 0
  currentBucket := 0
  buckets := thres
  bucketwidth := 0
  rCur := dblMax
  rStart := dblMax
  lists := List.replicate thres []

structure Ladder where
  thres : Nat
  lowestRung : Nat
  nbc : Nat
  bucketsFirstRung : Nat
  rungs : List Rung
  deriving DecidableEq, Repr

namespace Ladder

def defaultThres : Nat := 50

def maxRungs : Nat := 5

def init (thres : Nat) : Ladder where
  thres := thres
  lowestRung := 0
  nbc := 0
  bucketsFirstRung := thres
  rungs := List.replicate 3 (Rung.fresh thres)

def nRung (ladder : Ladder) : Nat := ladder.rungs.length

def rung (ladder : Ladder) (index : Nat) : Rung := ladder.rungs.getD index default

def lowest (ladder : Ladder) : Rung := ladder.rung ladder.lowestRung

def modifyRung (ladder : Ladder) (index : Nat) (change : Rung → Rung) : Ladder :=
  { ladder with rungs := ladder.rungs.modify index change }

def getNBC (ladder : Ladder) : Nat := ladder.nbc

def getThres (ladder : Ladder) : Nat := ladder.thres

def bucketwidth (max min : ℚ) (n : Nat) : ℚ :=
  if max = min then 1 else (max - min) / n

def bucket (ladder : Ladder) (ts : ℚ) (index : Nat) : Nat :=
  let rung := ladder.rung index
  let diff := if ts - rung.rStart ≤ 0 then 0 else ts - rung.rStart
  let found := toUInt32 (diff / rung.bucketwidth)
  let found := if found < rung.currentBucket then found + 1 else found
  let found := if found ≥ rung.buckets then rung.buckets - 1 else found
  if found > rung.currentBucket then rung.currentBucket else found

def addEvents (ladder : Ladder) (index size : Nat) : Ladder :=
  let ladder := ladder.modifyRung index fun rung => { rung with events := rung.events + size }
  { ladder with nbc := ladder.nbc + size }

def removeEvents (ladder : Ladder) (index size : Nat) : Ladder :=
  let ladder := ladder.modifyRung index fun rung => { rung with events := rung.events - size }
  { ladder with nbc := ladder.nbc - size }

/-- Inserts at the tail of the bucket of the entry and counts it, as both `push(Entry*)` and
`push(rung, list)` do. -/
def enter (ladder : Ladder) (index : Nat) (entry : Entry) : Except Failure Unit × Ladder :=
  let found := ladder.bucket entry.arrival index
  if found < (ladder.rung index).lists.length then
    let ladder := ladder.modifyRung index fun rung =>
      { rung with lists := rung.lists.modify found fun list => list ++ [entry] }
    (.ok (), ladder.addEvents index 1)
  else (.error .outOfBounds, ladder)

def findRung (ladder : Ladder) (ts : ℚ) : Nat → Nat
  | 0 => ladder.lowestRung
  | below + 1 =>
      if ts < (ladder.rung (ladder.lowestRung - (below + 1))).rCur then
        ladder.findRung ts below
      else ladder.lowestRung - (below + 1)

def push (ladder : Ladder) (entry : Entry) : Except Failure Bool × Ladder :=
  if ladder.getNBC = 0 then (.error (.thrown .noEpochInit), ladder)
  else if entry.arrival < ladder.lowest.rCur then
    (.error (.thrown .rungNotFound), ladder)
  else
    let index := ladder.findRung entry.arrival ladder.lowestRung
    if index ≤ ladder.lowestRung then
      match ladder.enter index entry with
      | (.ok _, ladder) => (.ok true, ladder)
      | (.error failure, ladder) => (.error failure, ladder)
    else (.error (.thrown .rungNotFound), ladder)

/-- `push(rung, list)` moves the list over one event at a time. The third component is
what is left in the list. -/
def pushRung (ladder : Ladder) (index : Nat) :
    List Entry → Except Failure Unit × Ladder × List Entry
  | [] => (.ok (), ladder, [])
  | entry :: rest =>
      match ladder.enter index entry with
      | (.ok _, ladder) => ladder.pushRung index rest
      | (.error failure, ladder) => (.error failure, ladder, rest)

def createRung (ladder : Ladder) : Ladder :=
  { ladder with rungs := ladder.rungs ++ [Rung.fresh ladder.thres] }

/-- The part of `spawn` before the events are copied: the new lowest rung covers the
bucket of the previous rung that ends at its `rCur`. -/
def openRung (ladder : Ladder) : Ladder :=
  let above := ladder.lowestRung
  let ladder := { ladder with lowestRung := above + 1 }
  let ladder := if ladder.lowestRung ≥ ladder.nRung ∧ ladder.nRung < maxRungs then
    ladder.createRung else ladder
  let previous := ladder.rung above
  ladder.modifyRung ladder.lowestRung fun rung =>
    { rung with
      bucketwidth := previous.bucketwidth / (ladder.thres - 1 : Nat)
      rStart := previous.rCur - previous.bucketwidth
      rCur := previous.rCur - previous.bucketwidth
      currentBucket := 0 }

def enlist (ladder : Ladder) : Except Failure Unit × Ladder :=
  let above := ladder.lowestRung - 1
  let rung := ladder.rung above
  match rung.lists[rung.currentBucket]? with
  | none => (.error .outOfBounds, ladder)
  | some list =>
      let ladder := ladder.modifyRung above fun rung =>
        { rung with
          currentBucket := rung.currentBucket + 1
          lists := rung.lists.set rung.currentBucket [] }
      let ladder := ladder.removeEvents above list.length
      match ladder.pushRung ladder.lowestRung list with
      | (result, ladder, _) => (result, ladder)

def spawn (ladder : Ladder) (doEnlist : Bool) : Except Failure Bool × Ladder :=
  if ladder.lowestRung < maxRungs - 1 then
    let ladder := ladder.openRung
    if doEnlist then
      match ladder.enlist with
      | (.ok _, ladder) => (.ok true, ladder)
      | (.error failure, ladder) => (.error failure, ladder)
    else (.ok true, ladder)
  else (.ok false, ladder)

/-- `pushBack`: the bottom's list goes to a new lowest rung. -/
def pushBack (ladder : Ladder) (list : List Entry) :
    Except Failure Unit × Ladder × List Entry :=
  match ladder.spawn false with
  | (.error failure, ladder) => (.error failure, ladder, list)
  | (.ok false, ladder) => (.error (.thrown .rungOutOfBounds), ladder, list)
  | (.ok true, ladder) => ladder.pushRung ladder.lowestRung list

def resizeFirstRung (ladder : Ladder) (base : Nat) : Ladder :=
  let ladder := { ladder with bucketsFirstRung := 2 * base }
  ladder.modifyRung 0 fun rung =>
    { rung with
      buckets := ladder.bucketsFirstRung
      lists := List.replicate ladder.bucketsFirstRung [] }

/-- `push(list, max, min)` starts an epoch: the list goes to the first rung. -/
def pushList (ladder : Ladder) (list : List Entry) (maxTS minTS : ℚ) :
    Except Failure Unit × Ladder × List Entry :=
  if ladder.getNBC ≠ 0 then (.error (.thrown .epochExists), ladder, list)
  else if list.length = 0 then (.ok (), ladder, list)
  else
    let width := bucketwidth maxTS minTS list.length
    let ladder := { ladder with lowestRung := 0 }
    let ladder := ladder.modifyRung 0 fun rung =>
      { rung with bucketwidth := width, rStart := minTS, rCur := minTS }
    let ladder := { ladder with
      rungs := ladder.rungs.map fun rung : Rung => { rung with currentBucket := 0 } }
    let diff := if gslFcmp maxTS minTS (1 / 10 ^ 12) ≤ 0 then 0 else maxTS - minTS
    let buckets := toUInt32 (diff / width)
    let ladder := if buckets ≥ ladder.bucketsFirstRung then
      ladder.resizeFirstRung buckets else ladder
    ladder.pushRung ladder.lowestRung list

/-- Gives up the lowest rung: its times and its dequeue bucket are reset. -/
def dropLowest (ladder : Ladder) : Ladder :=
  let ladder := ladder.modifyRung ladder.lowestRung fun rung =>
    { rung with rCur := dblMax, rStart := dblMax, currentBucket := 0 }
  { ladder with lowestRung := ladder.lowestRung - 1 }

/-- The first loop of `advanceDequeueBucket`: skips the lower rungs without events. At most
`rounds` rungs can be given up when `rounds` is the index of the lowest one. -/
def skipEmptyRungs : Nat → Ladder → Ladder
  | 0, ladder => ladder
  | rounds + 1, ladder =>
      if ladder.lowestRung > 0 ∧ ladder.lowest.events = 0 then
        skipEmptyRungs rounds ladder.dropLowest
      else ladder

end Ladder

/-- The second loop of `advanceDequeueBucket` on the buckets from the current one on. It
goes on to the next bucket while the current one is empty, also behind the last one. -/
def Rung.advanceFrom (rung : Rung) : List (List Entry) → Option Rung
  | [] => none
  | [] :: later =>
      Rung.advanceFrom
        { rung with
          currentBucket := rung.currentBucket + 1
          rCur := rung.rCur + rung.bucketwidth }
        later
  | (_ :: _) :: _ => some rung

def Rung.advance (rung : Rung) : Option Rung :=
  rung.advanceFrom (rung.lists.drop rung.currentBucket)

def Rung.current (rung : Rung) : List Entry := rung.lists.getD rung.currentBucket []

namespace Ladder

/-- `advanceDequeueBucket` without the spawning at its end. -/
def nextBucket (ladder : Ladder) : Except Failure Unit × Ladder :=
  let ladder := skipEmptyRungs ladder.lowestRung ladder
  match ladder.lowest.advance with
  | none => (.error .outOfBounds, ladder)
  | some rung => (.ok (), ladder.modifyRung ladder.lowestRung fun _ => rung)

def advanceDequeueBucket (ladder : Ladder) (doSpawn : Bool) : Except Failure Unit × Ladder :=
  match ladder.nextBucket with
  | (.error failure, ladder) => (.error failure, ladder)
  | (.ok _, ladder) =>
      if doSpawn ∧ ladder.lowest.current.length > ladder.thres then
        let ladder := ladder.modifyRung ladder.lowestRung fun rung =>
          { rung with rCur := rung.rCur + rung.bucketwidth }
        match ladder.spawn true with
        | (.error failure, ladder) => (.error failure, ladder)
        | (.ok _, ladder) => ladder.nextBucket
      else (.ok (), ladder)

/-- `delist` hands out the current bucket of the lowest rung and closes it. The caller
merges the list elsewhere, which leaves the bucket empty. -/
def delist (ladder : Ladder) : Except Failure (List Entry) × Ladder :=
  match ladder.advanceDequeueBucket true with
  | (.error failure, ladder) => (.error failure, ladder)
  | (.ok _, ladder) =>
      let list := ladder.lowest.current
      let ladder := ladder.removeEvents ladder.lowestRung list.length
      let ladder := ladder.modifyRung ladder.lowestRung fun rung =>
        { rung with
          rCur := rung.rCur + rung.bucketwidth
          currentBucket := rung.currentBucket + 1
          lists := rung.lists.set rung.currentBucket [] }
      if ladder.lowestRung > 0 ∧ ladder.lowest.events = 0 then (.ok list, ladder.dropLowest)
      else (.ok list, ladder)

end Ladder

end RlAqs
