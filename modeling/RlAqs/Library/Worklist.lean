import Mathlib.Algebra.Group.Action.Defs
import Mathlib.Algebra.Order.BigOperators.Group.List
import Mathlib.Algebra.Order.Monoid.Unbundled.Pow
import Mathlib.Tactic.Ring

/-!
A queue of vertices that is worked off without marking: a vertex that is reached along
two ways is worked on twice. On a ranked graph the queue still runs empty.
-/

namespace Worklist

variable {σ V : Type*}

def drain (work : V → σ → σ) (next : V → List V) : Nat → List V → σ → Option σ
  | _, [], state => some state
  | 0, _ :: _, _ => none
  | fuel + 1, vertex :: rest, state => drain work next fuel (rest ++ next vertex) (work vertex state)

variable {work : V → σ → σ} {next : V → List V}

@[simp] theorem drain_nil (fuel : Nat) (state : σ) :
    drain work next fuel [] state = some state := by
  cases fuel <;> rfl

theorem drain_more {fuel more : Nat} {queue : List V} {state final : σ}
    (drained : drain work next fuel queue state = some final) (enough : fuel ≤ more) :
    drain work next more queue state = some final := by
  induction fuel generalizing queue state more with
  | zero =>
      cases queue with
      | nil => simpa only [drain_nil] using drained
      | cons vertex rest => cases drained
  | succ fuel ih =>
      cases queue with
      | nil => simpa only [drain_nil] using drained
      | cons vertex rest =>
          obtain ⟨more, rfl⟩ : ∃ less, more = less + 1 := ⟨more - 1, by omega⟩
          rw [drain] at drained ⊢
          exact ih drained (by omega)

theorem drain_invariant (invariant : List V → σ → Prop)
    (preserved : ∀ vertex rest state, invariant (vertex :: rest) state →
      invariant (rest ++ next vertex) (work vertex state))
    {fuel : Nat} {queue : List V} {state final : σ} (holds : invariant queue state)
    (drained : drain work next fuel queue state = some final) : invariant [] final := by
  induction fuel generalizing queue state with
  | zero =>
      cases queue with
      | nil =>
          simp only [drain_nil, Option.some.injEq] at drained
          exact drained ▸ holds
      | cons vertex rest => simp [drain] at drained
  | succ fuel ih =>
      cases queue with
      | nil =>
          simp only [drain_nil, Option.some.injEq] at drained
          exact drained ▸ holds
      | cons vertex rest =>
          simp only [drain] at drained
          exact ih (preserved vertex rest state holds) drained

/-! How much fuel a ranked graph needs. -/

def weight (width : Nat) (rank : V → Nat) (queue : List V) : Nat :=
  (queue.map fun vertex => width ^ rank vertex).sum

theorem weight_append (width : Nat) (rank : V → Nat) (first second : List V) :
    weight width rank (first ++ second) = weight width rank first + weight width rank second := by
  simp [weight]

theorem weight_next_lt {width : Nat} {rank : V → Nat} {vertex : V}
    (narrow : (next vertex).length < width)
    (descends : ∀ follower ∈ next vertex, rank follower < rank vertex) :
    weight width rank (next vertex) < width ^ rank vertex := by
  have positive : 0 < width := by omega
  cases level : rank vertex with
  | zero =>
      have empty : next vertex = [] := by
        apply List.eq_nil_iff_forall_not_mem.mpr
        intro follower member
        have := descends follower member
        omega
      simp [weight, empty]
  | succ level' =>
      have each : ∀ term ∈ (next vertex).map (fun follower => width ^ rank follower),
          term ≤ width ^ level' := by
        intro term member
        obtain ⟨follower, inside, rfl⟩ := List.mem_map.mp member
        have lower := descends follower inside
        exact Nat.pow_le_pow_right positive (by omega)
      have total := List.sum_le_card_nsmul _ _ each
      rw [List.length_map, smul_eq_mul] at total
      calc weight width rank (next vertex)
          ≤ (next vertex).length * width ^ level' := total
        _ < width * width ^ level' :=
            Nat.mul_lt_mul_of_pos_right narrow (Nat.pow_pos positive)
        _ = width ^ (level' + 1) := by ring

theorem drain_total {width : Nat} (rank : V → Nat)
    (narrow : ∀ vertex, (next vertex).length < width)
    (descends : ∀ vertex, ∀ follower ∈ next vertex, rank follower < rank vertex)
    {fuel : Nat} {queue : List V} (state : σ) (enough : weight width rank queue ≤ fuel) :
    ∃ final, drain work next fuel queue state = some final := by
  induction fuel generalizing queue state with
  | zero =>
      cases queue with
      | nil => exact ⟨state, drain_nil 0 state⟩
      | cons vertex rest =>
          have positive : 0 < width ^ rank vertex :=
            Nat.pow_pos (Nat.lt_of_le_of_lt (Nat.zero_le _) (narrow vertex))
          simp only [weight, List.map_cons, List.sum_cons] at enough
          omega
  | succ fuel ih =>
      cases queue with
      | nil => exact ⟨state, drain_nil _ state⟩
      | cons vertex rest =>
          have less := weight_next_lt (narrow vertex) (descends vertex)
          have split : weight width rank (vertex :: rest) =
              width ^ rank vertex + weight width rank rest := by simp [weight]
          apply ih (work vertex state)
          rw [weight_append]
          omega

end Worklist
