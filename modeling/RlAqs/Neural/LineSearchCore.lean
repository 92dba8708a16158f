import RlAqs.Library.Counter
import Mathlib.Algebra.Order.Field.Basic
import Mathlib.Data.Rat.Cast.OfScientific

/-!
`getOptimalTrainingRate`, the line search of the conjugate gradients: a minimum is bracketed by
golden sections and parabolas, and then narrowed down by Brent's method. The potential error of
the weights at a step is a function of the step.
-/

namespace RlAqs.ConjugateGradient

inductive SearchFault
  | divisionByZero
  | unfinished
  deriving DecidableEq, Repr

section

variable {K : Type*} [Field K] [LinearOrder K]

def gold : K := 1.618034

def glimit : K := 100.0

def tiny : K := 1.0e-20

def cgold : K := 0.3819660

def zeps : K := 1 / 2.0 ^ 52 * 1.0e-3

def tol : K := 3.0e-8

def sign (a b : K) : K :=
  if b ≥ 0 then (if a ≥ 0 then a else -a) else (if a ≥ 0 then -a else a)

def quotient (a b : K) : Except SearchFault K :=
  if b = 0 then .error .divisionByZero else .ok (a / b)

/-! Bracketing. -/

structure Bracket (K : Type*) where
  ax : K
  bx : K
  cx : K
  fa : K
  fb : K
  fc : K

/-- The two `shft3` at the end of the loop. -/
def Bracket.shift (s : Bracket K) (u fu : K) : Bracket K :=
  { ax := s.bx, bx := s.cx, cx := u, fa := s.fb, fb := s.fc, fc := fu }

def Bracket.start (f : K → K) (trainingRate error : K) : Bracket K :=
  let fb := f trainingRate
  let extend (ax bx fa fb : K) : Bracket K :=
    let cx := bx + gold * (bx - ax)
    { ax := ax, bx := bx, cx := cx, fa := fa, fb := fb, fc := f cx }
  if fb > error then extend trainingRate 0 fb error else extend 0 trainingRate error fb

def Bracket.extrapolate (s : Bracket K) : Except SearchFault K :=
  let r := (s.bx - s.ax) * (s.fb - s.fc)
  let q := (s.bx - s.cx) * (s.fb - s.fa)
  (quotient ((s.bx - s.cx) * q - (s.bx - s.ax) * r) (2.0 * sign (max |q - r| tiny) (q - r))).map
    fun step => s.bx - step

def Bracket.advance (f : K → K) (s : Bracket K) (u : K) : Counter.Turn (Bracket K) :=
  let ulim := s.bx + glimit * (s.cx - s.bx)
  let next := s.cx + gold * (s.cx - s.bx)
  if (s.bx - u) * (u - s.cx) > 0 then
    if f u < s.fc then .leave { s with ax := s.bx, bx := u, fa := s.fb, fb := f u }
    else if f u > s.fb then .leave { s with cx := u, fc := f u }
    else .next (s.shift next (f next))
  else if (s.cx - u) * (u - ulim) > 0 then
    if f u < s.fc then
      let next := u + gold * (u - s.cx)
      let s := { s with bx := s.cx, cx := u, fb := s.fc, fc := f u }
      .next (s.shift next (f next))
    else .next (s.shift u (f u))
  else if (u - ulim) * (ulim - s.cx) ≥ 0 then .next (s.shift ulim (f ulim))
  else .next (s.shift next (f next))

def Bracket.search (f : K → K) : Nat → Bracket K → Except SearchFault (Bracket K)
  | 0, _ => .error .unfinished
  | fuel + 1, s =>
      if s.fb > s.fc then
        s.extrapolate.bind fun u =>
          match s.advance f u with
          | .leave s => .ok s
          | .next s => search f fuel s
      else .ok s

/-! Brent's method. -/

structure Brent (K : Type*) where
  a : K
  b : K
  d : K
  e : K
  v : K
  w : K
  x : K
  fv : K
  fw : K
  fx : K

def Brent.start (f : K → K) (s : Bracket K) : Brent K where
  a := if s.ax < s.cx then s.ax else s.cx
  b := if s.ax > s.cx then s.ax else s.cx
  d := 0
  e := 0
  v := s.bx
  w := s.bx
  x := s.bx
  fv := f s.bx
  fw := f s.bx
  fx := f s.bx

/-- A golden section; the components are the new `d` and `e`. -/
def Brent.golden (s : Brent K) (xm : K) : K × K :=
  let e := if s.x ≥ xm then s.a - s.x else s.b - s.x
  (cgold * e, e)

def Brent.parabola (s : Brent K) : K × K :=
  let r := (s.x - s.w) * (s.fx - s.fv)
  let q := (s.x - s.v) * (s.fx - s.fw)
  let p := (s.x - s.v) * q - (s.x - s.w) * r
  let q := 2.0 * (q - r)
  (if q > 0 then -p else p, |q|)

def Brent.parabolic (s : Brent K) (xm tol1 tol2 : K) : Except SearchFault (K × K) :=
  let p := s.parabola.1
  let q := s.parabola.2
  let etemp := s.e
  if |p| ≥ |0.5 * q * etemp| ∨ p ≤ q * (s.a - s.x) ∨ p ≥ q * (s.b - s.x) then .ok (s.golden xm)
  else
    (quotient p q).map fun d =>
      let u := s.x + d
      (if u - s.a < tol2 ∨ s.b - u < tol2 then sign tol1 (xm - s.x) else d, s.d)

/-- The point bounds the interval on the side away from a better one. -/
def Brent.boundBest (s : Brent K) (u : K) : Brent K :=
  if u ≥ s.x then { s with a := s.x } else { s with b := s.x }

def Brent.boundWorse (s : Brent K) (u : K) : Brent K :=
  if u < s.x then { s with a := u } else { s with b := u }

def Brent.accept (s : Brent K) (u fu : K) : Brent K :=
  if fu ≤ s.fx then
    { s.boundBest u with v := s.w, w := s.x, x := u, fv := s.fw, fw := s.fx, fx := fu }
  else
    let s := s.boundWorse u
    if fu ≤ s.fw ∨ s.w = s.x then { s with v := s.w, w := u, fv := s.fw, fw := fu }
    else if fu ≤ s.fv ∨ s.v = s.x ∨ s.v = s.w then { s with v := u, fv := fu }
    else s

def Brent.turn (f : K → K) (s : Brent K) : Except SearchFault (Counter.Turn (Brent K)) :=
  let xm := 0.5 * (s.a + s.b)
  let tol1 := tol * |s.x| + zeps
  let tol2 := 2.0 * tol1
  if |s.x - xm| ≤ tol2 - 0.5 * (s.b - s.a) then .ok (.leave s)
  else
    (if |s.e| > tol1 then s.parabolic xm tol1 tol2 else .ok (s.golden xm)).map fun (d, e) =>
      let u := if |d| ≥ tol1 then s.x + d else s.x + sign tol1 d
      .next ({ s with d := d, e := e }.accept u (f u))

def itmax : Nat := 500

def Brent.search (f : K → K) (s : Brent K) : Except SearchFault K :=
  (Counter.loop .unfinished 65536 itmax (fun _ s => s.turn f) (itmax + 1) 0 s).map fun s => s.x

def getOptimalTrainingRate (f : K → K) (trainingRate error : K) (fuel : Nat) :
    Except SearchFault K :=
  ((Bracket.start f trainingRate error).search f fuel).bind fun s => (Brent.start f s).search f

end

end RlAqs.ConjugateGradient
