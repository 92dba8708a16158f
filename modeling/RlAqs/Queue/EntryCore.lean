import Mathlib.Data.Rat.Defs
import Mathlib.Algebra.Order.Ring.Rat

/-!
The queue entry of `src/common/list/Entry.cc`, with simulated times read as
exact rationals and the two history stacks written with the top first.
-/

namespace RlAqs

structure Entry where
  id : Nat
  delay : ℚ
  arrival : ℚ
  externalArrival : ℚ
  destination : Int
  origin : Int
  type : Int
  eventPath : List Int
  eventArrivals : List ℚ
  gid : Nat
  deriving DecidableEq, Repr, Inhabited

namespace Entry

/-- The constructor `Entry(del, a, d, o, t)`; `uid` is the static counter before the call. -/
def new (uid : Nat) (del a : ℚ) (d o t : Int) : Entry where
  id := uid + 1
  delay := del
  arrival := a
  externalArrival := a
  destination := d
  origin := o
  type := t
  eventPath := []
  eventArrivals := []
  gid := uid + 1

/-- The copy constructor keeps the id of the job and takes a fresh gid. -/
def copy (uid : Nat) (entry : Entry) : Entry := { entry with gid := uid + 1 }

/-- `operator<`: by arrival time, and by gid among equal times. -/
def lt (left right : Entry) : Bool :=
  if left.arrival = right.arrival then decide (left.gid < right.gid)
  else decide (left.arrival < right.arrival)

def delayed (entry : Entry) (delay newArrival : ℚ) (type : Int) : Entry :=
  { entry with
    delay := entry.delay + delay
    arrival := newArrival
    type := type
    origin := entry.destination }

def service (entry : Entry) (departure : ℚ) (type : Int) : Entry :=
  { entry with arrival := departure, type := type, origin := entry.destination }

def depart (entry : Entry) (destination type : Int) : Entry :=
  { entry with destination := destination, type := type }

def acknowledge (entry : Entry) (origin destination type : Int) : Entry :=
  { entry with destination := destination, origin := origin, type := type }

def leave (entry : Entry) (destination type : Int) : Entry :=
  { entry with origin := entry.destination, destination := destination, type := type }

def setArrival (entry : Entry) (arrival : ℚ) : Entry := { entry with arrival := arrival }

def pushEventHistory (entry : Entry) (node : Int) (time : ℚ) : Entry :=
  { entry with
    eventPath := node :: entry.eventPath
    eventArrivals := time :: entry.eventArrivals }

/-- `popEvent` reads and pops both stacks; `top` and `pop` of an empty stack are undefined. -/
def popEvent (entry : Entry) : Option (Int × Entry) :=
  match entry.eventPath, entry.eventArrivals with
  | dest :: path, _ :: arrivals =>
      some (dest, { entry with eventPath := path, eventArrivals := arrivals })
  | _, _ => none

def topArrival (entry : Entry) : Option ℚ := entry.eventArrivals.head?

/-- `getReward`: the time since the arrival on top of the stack, counted negative. -/
def getReward (entry : Entry) : Option ℚ :=
  entry.topArrival.map fun top =>
    if top - entry.arrival < 0 then top - entry.arrival else 0

end Entry

end RlAqs
