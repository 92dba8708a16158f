import RlAqs.Learner.SimplexCore

/-!
`MFRW::path` of `src/sampling/mfrw`. A `gsl_vector_get` outside its vector aborts, and is `none`
here, as is a number that is none. Neither the logarithm nor the square root nor the power is
looked into.
-/

namespace RlAqs

namespace MFRW

structure Functions where
  log : ℚ → ℚ
  sqrt : ℚ → ℚ
  pow : ℚ → ℚ → ℚ

structure Settings where
  d0 : ℚ
  a0 : ℚ
  b : ℚ
  lambda : ℚ
  /-- Of 16 bits. -/
  Nc : Nat
  n0 : ℚ
  nmax : ℚ

/-- `gsl_ran_discrete` and `gsl_ran_gaussian_ziggurat`, by the number of the call. -/
structure Draws where
  event : Nat → Nat
  gaussian : Nat → ℚ

structure Level where
  n : Nat
  nt : ℚ
  sum : ℚ
  deriving DecidableEq, Repr

def eta (draws : Draws) (T : Nat) : List ℚ :=
  (List.range T).map fun i => if draws.event i = 0 then -1 else 1

def Ki (functions : Functions) (Nc : Nat) : List ℚ :=
  (List.range (Nc + 1)).map fun i => 1 / functions.sqrt (i + 1 : Nat)

/-- One term of the sum in equation 4. -/
def term (Ki eta : List ℚ) (t : Nat) (sum : ℚ) (i : Nat) : Option ℚ := do
  let next ← Ki[i + 1]?
  let this ← Ki[i]?
  let event ← if i ≤ t then eta[t - i]? else none
  return sum + (next - this) * event

/-- The second term of equation 4, with the length of the sum in the third. -/
def second (eta : List ℚ) (Nc : Nat) (last : ℚ) (level : Level) (t : Nat) : Option (Nat × ℚ) :=
  if t > Nc then eta[t - Nc - 1]?.map fun event => (level.n, last * event) else some (t, 0)

/-- The third term; its value is that of the time step before where it is not computed. -/
def third (Ki eta : List ℚ) (level : Level) (n t : Nat) : Option ℚ :=
  if t > 1 then (List.range (n - 1)).foldlM (term Ki eta t) 0 else some level.sum

/-- `nt` is bounded to avoid too large fluctuations. -/
def bounded (nmax nt : ℚ) : ℚ := if nt < 0 then 0 else if nt > nmax then nmax else nt

def turn (functions : Functions) (settings : Settings) (draws : Draws) (Ki eta : List ℚ)
    (level : Level) (t : Nat) : Option (Level × ℚ) := do
  let a ← divide settings.a0 (functions.log settings.lambda)
  let p ← divide 1 (1 + settings.lambda ^ 2)
  let etaB := 2 * p - 1
  let last ← Ki[settings.Nc]?
  let (n, temp1) ← second eta settings.Nc last level t
  let sum ← third Ki eta level n t
  let first ← Ki[0]?
  let event ← eta[t]?
  let phit := first * event - temp1 + sum
  let dnt := event + a * phit - settings.b * etaB
  let nt := bounded settings.nmax (level.nt + dnt)
  let dt := settings.d0 * functions.pow settings.lambda nt
  return ({ n := n, nt := nt, sum := sum }, dt * draws.gaussian t)

def turns (functions : Functions) (settings : Settings) (draws : Draws) (Ki eta : List ℚ) :
    Level → Nat → Nat → Option (List ℚ)
  | _, _, 0 => some []
  | level, t, remaining + 1 => do
      let (level, element) ← turn functions settings draws Ki eta level t
      let later ← turns functions settings draws Ki eta level (t + 1) remaining
      return element :: later

def cumsum : ℚ → List ℚ → List ℚ
  | _, [] => []
  | before, element :: rest => (before + element) :: cumsum (before + element) rest

/-- The counter of the loop that fills `Ki` never gets beyond 65535. -/
def path (functions : Functions) (settings : Settings) (draws : Draws) (T : Nat) :
    Option (List ℚ) :=
  if settings.Nc < 65535 then
    let level : Level := { n := settings.Nc, nt := settings.n0, sum := 0 }
    (turns functions settings draws (Ki functions settings.Nc) (eta draws T) level 0 T).map
      (cumsum 0)
  else none

end MFRW

end RlAqs
