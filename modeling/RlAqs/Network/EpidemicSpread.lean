import RlAqs.Library.Inflow
import RlAqs.Network.NetworkChecks
import Mathlib.Tactic.Linarith

/-!
What `epidemic_visit` leaves in the two maps. A vertex is visited once for every way that
leads to it, and forwards what arrived since its last visit.
-/

namespace RlAqs

open Inflow

namespace Network

def base (settings : Settings) (network : Network) (vertex : Nat) : ℚ :=
  settings.boostArrival * network.arrivalRate vertex

def Indexed (network : Network) : Prop :=
  ∀ vertex < network.size, network.vertexIndex vertex = vertex

def Descends (network : Network) (rank : Nat → Nat) : Prop :=
  ∀ edge ∈ network.edges, rank edge.2 < rank edge.1

theorem spread_outEdges (routines : Routines) (network : Network) (factor : Nat × Nat → ℚ)
    (vertex target : Nat) (amount : ℚ) :
    spread (network.outEdges routines vertex) factor amount target =
      inflow network.edges factor (fun source => if source = vertex then amount else 0) target := by
  rw [inflow_single]
  exact spread_perm (routines.outOrder_perm _) amount

end Network

/-! One visit. -/

section Visit

variable {routines : Routines} {settings : Settings} {network : Network} {rank : Nat → Nat}
variable {vertex target : Nat} {strengths : Strengths}

def examined (settings : Settings) (network : Network) (vertex : Nat) (strengths : Strengths) :
    Strengths :=
  (epidemicVertexArrivalVisitor settings network).examineVertex vertex strengths

def sent (settings : Settings) (network : Network) (vertex : Nat) (amount : ℚ) (target : Nat) :
    ℚ :=
  inflow network.edges (edgeFactor settings network)
    (fun source => if source = vertex then amount else 0) target

def forwarded (settings : Settings) (network : Network) (vertex : Nat) (strengths : Strengths) :
    Strengths where
  diff target := strengths.diff target + sent settings network vertex (strengths.apply vertex) target
  apply target := if target = vertex then 0 else
    strengths.apply target + sent settings network vertex (strengths.apply vertex) target

theorem examined_calm (indexed : network.vertexIndex vertex = vertex)
    (calm : strengths.diff vertex = 0 → strengths.apply vertex = network.base settings vertex) :
    examined settings network vertex strengths = strengths := by
  simp only [examined, epidemicVertexArrivalVisitor, indexed]
  split
  · rename_i unchanged
    have same := calm unchanged
    simp only [Network.base] at same
    rw [← same, Function.update_eq_self]
  · rfl

theorem examineEdges_eq (indexed : network.Indexed) {edges : List (Nat × Nat)}
    (inside : ∀ edge ∈ edges, edge ∈ network.edges ∧ edge.1 = vertex)
    (loopless : ∀ edge ∈ edges, edge.2 ≠ vertex) :
    edges.foldl (fun strengths edge =>
        (epidemicVertexArrivalVisitor settings network).examineEdge edge strengths) strengths =
      { diff := fun target => strengths.diff target +
          spread edges (edgeFactor settings network) (strengths.apply vertex) target
        apply := fun target => strengths.apply target +
          spread edges (edgeFactor settings network) (strengths.apply vertex) target } := by
  induction edges generalizing strengths with
  | nil => simp
  | cons edge rest ih =>
      have here := inside edge (by simp)
      have bound := network.inside edge here.1
      have source : network.vertexIndex edge.1 = vertex := by rw [indexed _ bound.1, here.2]
      have target : network.vertexIndex edge.2 = edge.2 := indexed _ bound.2
      have away : vertex ≠ edge.2 := (loopless edge (by simp)).symm
      rw [List.foldl_cons, ih (fun other member => inside other (List.mem_cons_of_mem _ member))
        (fun other member => loopless other (List.mem_cons_of_mem _ member))]
      simp only [epidemicVertexArrivalVisitor, source, target, Function.update_of_ne away,
        spread_cons, Strengths.mk.injEq]
      constructor <;>
      · funext query
        by_cases same : edge.2 = query
        · subst same
          simp only [Function.update_self, if_true]
          ring
        · simp only [Function.update_of_ne (Ne.symm same), same, if_false]
          ring

theorem visit_eq (indexed : network.Indexed) (descends : network.Descends rank)
    (bound : vertex < network.size) :
    (epidemicVertexArrivalVisitor settings network).visit (network.outEdges routines) vertex
        strengths =
      forwarded settings network vertex (examined settings network vertex strengths) := by
  have inside : ∀ edge ∈ network.outEdges routines vertex,
      edge ∈ network.edges ∧ edge.1 = vertex := fun edge => Network.mem_outEdges.mp
  have loopless : ∀ edge ∈ network.outEdges routines vertex, edge.2 ≠ vertex := by
    intro edge member same
    have lower := descends edge (inside edge member).1
    rw [(inside edge member).2, same] at lower
    omega
  have loop : (epidemicVertexArrivalVisitor settings network).visit (network.outEdges routines)
      vertex strengths = (epidemicVertexArrivalVisitor settings network).finishVertex vertex
        ((network.outEdges routines vertex).foldl (fun strengths edge =>
          (epidemicVertexArrivalVisitor settings network).examineEdge edge strengths)
          (examined settings network vertex strengths)) := rfl
  rw [loop, examineEdges_eq indexed inside loopless]
  simp only [epidemicVertexArrivalVisitor, indexed vertex bound, forwarded, Strengths.mk.injEq]
  constructor
  · funext target
    rw [Network.spread_outEdges, sent]
  · funext target
    by_cases same : target = vertex
    · simp [same]
    · rw [Function.update_of_ne same, if_neg same, Network.spread_outEdges, sent]

theorem sent_absent (missing : (vertex, target) ∉ network.edges) (amount : ℚ) :
    sent settings network vertex amount target = 0 := by
  apply inflow_zero
  intro edge member arrives
  have other : edge.1 ≠ vertex := by
    intro leaves
    rw [← leaves, ← arrives] at missing
    exact missing member
  simp [other]

theorem mul_sent (scale amount : ℚ) :
    scale * sent settings network vertex amount target =
      sent settings network vertex (scale * amount) target := by
  rw [sent, sent, inflow_single, inflow_single, mul_spread]

theorem sent_nonneg (positive : ∀ edge ∈ network.edges, 0 < edgeFactor settings network edge)
    {amount : ℚ} (nonneg : 0 ≤ amount) : 0 ≤ sent settings network vertex amount target := by
  rw [sent, inflow_single]
  exact spread_nonneg (fun edge member => positive edge (List.mem_of_mem_filter member)) nonneg

theorem sent_pos (positive : ∀ edge ∈ network.edges, 0 < edgeFactor settings network edge)
    {amount : ℚ} (gained : 0 < amount) (member : (vertex, target) ∈ network.edges) :
    0 < sent settings network vertex amount target := by
  rw [sent, inflow_single]
  have leaves : (vertex, target) ∈ network.edges.filter fun edge => edge.1 = vertex := by
    simpa using member
  exact spread_pos (fun edge inside => positive edge (List.mem_of_mem_filter inside)) gained leaves

end Visit

/-! What holds while the queue is worked off. -/

namespace Network

def Reaches (network : Network) (root vertex : Nat) : Prop :=
  Relation.ReflTransGen (Reach.Edge network.edges) root vertex

theorem Reaches.bound {network : Network} {root vertex : Nat} (inside : root < network.size)
    (path : network.Reaches root vertex) : vertex < network.size := by
  cases path with
  | refl => exact inside
  | tail _ edge => exact (network.inside _ edge).2

theorem mem_targets {routines : Routines} {network : Network} {vertex target : Nat} :
    target ∈ (network.outEdges routines vertex).map Prod.snd ↔
      (vertex, target) ∈ network.edges := by
  constructor
  · intro member
    obtain ⟨edge, leaves, rfl⟩ := List.mem_map.mp member
    obtain ⟨inside, rfl⟩ := mem_outEdges.mp leaves
    exact inside
  · intro inside
    exact List.mem_map.mpr ⟨(vertex, target), mem_outEdges.mpr ⟨inside, rfl⟩, rfl⟩

end Network

section Spread

variable {routines : Routines} {settings : Settings} {network : Network} {rank : Nat → Nat}
variable {root vertex : Nat} {rest queue : List Nat} {strengths : Strengths}

/-- `diff - apply` is what a vertex has sent on, and `diff` what it got from the others. -/
structure Flowing (settings : Settings) (network : Network) (root : Nat) (queue : List Nat)
    (strengths : Strengths) : Prop where
  reached : ∀ vertex ∈ queue, network.Reaches root vertex
  spreads : ∀ vertex, strengths.diff vertex ≠ 0 → network.Reaches root vertex
  pending : ∀ vertex, strengths.apply vertex ≠ 0 → vertex ∈ queue
  balanced : ∀ target, strengths.diff target =
    inflow network.edges (edgeFactor settings network) (fun source =>
      (if source = root then network.base settings root else 0) + strengths.diff source -
        strengths.apply source) target

theorem Flowing.forward (descends : network.Descends rank)
    (flowing : Flowing settings network root (vertex :: rest) strengths) :
    Flowing settings network root (rest ++ (network.outEdges routines vertex).map Prod.snd)
      (forwarded settings network vertex strengths) := by
  have loopless : (vertex, vertex) ∉ network.edges := fun loop =>
    Nat.lt_irrefl _ (descends _ loop)
  have here := flowing.reached vertex (by simp)
  refine ⟨?_, ?_, ?_, ?_⟩
  · intro target member
    rcases List.mem_append.mp member with old | new
    · exact flowing.reached target (List.mem_cons_of_mem _ old)
    · exact here.tail (Network.mem_targets.mp new)
  · intro target changed
    by_cases edge : (vertex, target) ∈ network.edges
    · exact here.tail edge
    · apply flowing.spreads
      simpa [forwarded, sent_absent edge] using changed
  · intro target holding
    by_cases edge : (vertex, target) ∈ network.edges
    · exact List.mem_append_right _ (Network.mem_targets.mpr edge)
    · by_cases same : target = vertex
      · simp [forwarded, same] at holding
      · have before : strengths.apply target ≠ 0 := by
          simpa [forwarded, same, sent_absent edge] using holding
        have queued := (List.mem_cons.mp (flowing.pending target before)).resolve_left same
        exact List.mem_append_left _ queued
  · intro target
    simp only [forwarded]
    rw [flowing.balanced target, sent, ← inflow_add]
    apply inflow_congr
    intro edge _ _
    by_cases same : edge.1 = vertex
    · rw [same, sent_absent loopless]
      simp
    · simp only [same, if_false]
      ring

/-! The amounts of one visit all have the sign of the rate at its root. -/

def Passed (settings : Settings) (network : Network) (root : Nat) (strengths : Strengths)
    (vertex : Nat) : Prop :=
  ∀ target, (vertex, target) ∈ network.edges →
    0 < network.base settings root * strengths.diff target

structure Signed (settings : Settings) (network : Network) (root : Nat) (queue : List Nat)
    (strengths : Strengths) : Prop where
  gained : ∀ vertex, 0 ≤ network.base settings root * strengths.diff vertex
  held : ∀ vertex, 0 ≤ network.base settings root * strengths.apply vertex
  arrived : ∀ vertex ∈ queue, 0 < network.base settings root * strengths.diff vertex
  passed : ∀ vertex, Passed settings network root strengths vertex ∨
    strengths.apply vertex = strengths.diff vertex

theorem signed_forwarded
    (positive : ∀ edge ∈ network.edges, 0 < edgeFactor settings network edge)
    (gained : ∀ target, 0 ≤ network.base settings root * strengths.diff target)
    (held : ∀ target, 0 ≤ network.base settings root * strengths.apply target)
    (arrived : ∀ target ∈ rest, 0 < network.base settings root * strengths.diff target)
    (others : ∀ other ≠ vertex, Passed settings network root strengths other ∨
      strengths.apply other = strengths.diff other)
    (ready : Passed settings network root strengths vertex ∨
      0 < network.base settings root * strengths.apply vertex) :
    Signed settings network root (rest ++ (network.outEdges routines vertex).map Prod.snd)
      (forwarded settings network vertex strengths) := by
  have more : ∀ target, 0 ≤ network.base settings root *
      sent settings network vertex (strengths.apply vertex) target := by
    intro target
    rw [mul_sent]
    exact sent_nonneg positive (held vertex)
  have now : Passed settings network root (forwarded settings network vertex strengths) vertex := by
    intro target edge
    simp only [forwarded, mul_add]
    rcases ready with passed | holding
    · have already := passed target edge
      linarith [more target]
    · have arriving := sent_pos positive holding edge
      rw [← mul_sent] at arriving
      linarith [gained target]
  refine ⟨?_, ?_, ?_, ?_⟩
  · intro target
    simp only [forwarded, mul_add]
    linarith [gained target, more target]
  · intro target
    simp only [forwarded]
    split
    · simp
    · rw [mul_add]
      linarith [held target, more target]
  · intro target member
    rcases List.mem_append.mp member with old | new
    · simp only [forwarded, mul_add]
      linarith [arrived target old, more target]
    · exact now target (Network.mem_targets.mp new)
  · intro other
    by_cases same : other = vertex
    · rw [same]
      exact Or.inl now
    · refine (others other same).imp ?_ ?_
      · intro passed target edge
        simp only [forwarded, mul_add]
        linarith [passed target edge, more target]
      · intro fresh
        simp only [forwarded, same, if_false, fresh]

theorem Signed.forward
    (positive : ∀ edge ∈ network.edges, 0 < edgeFactor settings network edge)
    (signed : Signed settings network root (vertex :: rest) strengths) :
    Signed settings network root (rest ++ (network.outEdges routines vertex).map Prod.snd)
      (forwarded settings network vertex strengths) := by
  have here := signed.arrived vertex (by simp)
  apply signed_forwarded positive signed.gained signed.held
    (fun target member => signed.arrived target (List.mem_cons_of_mem _ member))
    (fun other _ => signed.passed other)
  refine (signed.passed vertex).imp_right ?_
  intro fresh
  rw [fresh]
  exact here

/-! The whole visit. Without any arrivals from outside both maps stay zero. -/

theorem forwarded_zero : forwarded settings network vertex Strengths.zero = Strengths.zero := by
  have nothing : ∀ target, sent settings network vertex 0 target = 0 := by
    intro target
    apply inflow_zero
    intro edge _ _
    simp
  simp only [forwarded, Strengths.zero, nothing]
  simp

/-- Either every draw counts, or there are no arrivals at all. -/
def Alive (settings : Settings) (network : Network) : Prop :=
  (∀ vertex < network.size, network.base settings vertex ≠ 0) ∨
    ∀ vertex < network.size, network.base settings vertex = 0

def Steady (settings : Settings) (network : Network) (root : Nat) (queue : List Nat)
    (strengths : Strengths) : Prop :=
  Signed settings network root queue strengths ∨
    strengths = Strengths.zero ∧ ∀ vertex < network.size, network.base settings vertex = 0

theorem Steady.calm (steady : Steady settings network root (vertex :: rest) strengths)
    (bound : vertex < network.size) (unchanged : strengths.diff vertex = 0) :
    strengths.apply vertex = network.base settings vertex := by
  rcases steady with signed | ⟨still, silent⟩
  · have here := signed.arrived vertex (by simp)
    rw [unchanged, mul_zero] at here
    exact absurd here (lt_irrefl 0)
  · rw [still, silent vertex bound]
    rfl

theorem Steady.forward
    (positive : ∀ edge ∈ network.edges, 0 < edgeFactor settings network edge)
    (steady : Steady settings network root (vertex :: rest) strengths) :
    Steady settings network root (rest ++ (network.outEdges routines vertex).map Prod.snd)
      (forwarded settings network vertex strengths) := by
  rcases steady with signed | ⟨rfl, silent⟩
  · exact Or.inl (signed.forward positive)
  · exact Or.inr ⟨forwarded_zero, silent⟩

theorem examined_root (inside : root < network.size) (indexed : network.Indexed) :
    examined settings network root Strengths.zero =
      { diff := fun _ => 0
        apply := fun target => if target = root then network.base settings root else 0 } := by
  simp only [examined, epidemicVertexArrivalVisitor, Strengths.zero, indexed root inside,
    if_true, Strengths.mk.injEq, true_and]
  funext target
  by_cases same : target = root
  · simp [same, Network.base]
  · simp [same]

theorem flowing_root (inside : root < network.size) (indexed : network.Indexed) :
    Flowing settings network root [root] (examined settings network root Strengths.zero) := by
  rw [examined_root inside indexed]
  refine ⟨?_, ?_, ?_, ?_⟩
  · intro vertex member
    rw [List.mem_singleton.mp member]
    exact Relation.ReflTransGen.refl
  · intro vertex changed
    exact absurd rfl changed
  · intro vertex holding
    by_cases same : vertex = root
    · simp [same]
    · simp [same] at holding
  · intro target
    symm
    apply inflow_zero
    intro edge _ _
    simp

theorem signed_root (inside : root < network.size) (indexed : network.Indexed)
    (positive : ∀ edge ∈ network.edges, 0 < edgeFactor settings network edge)
    (loud : network.base settings root ≠ 0) :
    Signed settings network root ((network.outEdges routines root).map Prod.snd)
      (forwarded settings network root (examined settings network root Strengths.zero)) := by
  have square : 0 < network.base settings root * network.base settings root :=
    mul_self_pos.mpr loud
  rw [examined_root inside indexed, ← List.nil_append (List.map _ _)]
  apply signed_forwarded positive
  · intro target
    simp
  · intro target
    by_cases same : target = root
    · simp only [same, if_true]
      exact square.le
    · simp [same]
  · simp
  · intro other different
    right
    simp [different]
  · right
    simpa using square

theorem steady_root (inside : root < network.size) (indexed : network.Indexed)
    (positive : ∀ edge ∈ network.edges, 0 < edgeFactor settings network edge)
    (alive : Alive settings network) :
    Steady settings network root ((network.outEdges routines root).map Prod.snd)
      (forwarded settings network root (examined settings network root Strengths.zero)) := by
  rcases alive with loud | silent
  · exact .inl (signed_root inside indexed positive (loud root inside))
  · right
    have quiet : examined settings network root Strengths.zero = Strengths.zero :=
      examined_calm (indexed root inside) fun _ => (silent root inside).symm
    rw [quiet]
    exact ⟨forwarded_zero, silent⟩

theorem epidemicVisit_total (descends : network.Descends rank) {fuel : Nat}
    (enough : (network.edges.length + 1) ^ rank root ≤ fuel) :
    ∃ final, (epidemicVertexArrivalVisitor settings network).epidemicVisit
      (network.outEdges routines) fuel root Strengths.zero = some final := by
  apply Worklist.drain_total rank
  · intro vertex
    rw [List.length_map, Network.outEdges, (routines.outOrder_perm _).length_eq]
    exact Nat.lt_succ_of_le (List.length_filter_le _ _)
  · intro vertex target member
    exact descends _ (Network.mem_targets.mp member)
  · simpa [Worklist.weight] using enough

theorem epidemicVisit_ended (inside : root < network.size) (indexed : network.Indexed)
    (descends : network.Descends rank)
    (positive : ∀ edge ∈ network.edges, 0 < edgeFactor settings network edge)
    (steady : Steady settings network root ((network.outEdges routines root).map Prod.snd)
      (forwarded settings network root (examined settings network root Strengths.zero)))
    {fuel : Nat} {final : Strengths}
    (visited : (epidemicVertexArrivalVisitor settings network).epidemicVisit
      (network.outEdges routines) fuel root Strengths.zero = some final) :
    Flowing settings network root [] final ∧ ∀ vertex, final.apply vertex = 0 := by
  cases fuel with
  | zero => simp [Visitor.epidemicVisit, Worklist.drain] at visited
  | succ fuel =>
      have after : Worklist.drain
          ((epidemicVertexArrivalVisitor settings network).visit (network.outEdges routines))
          (fun vertex => (network.outEdges routines vertex).map Prod.snd) fuel
          ((network.outEdges routines root).map Prod.snd)
          (forwarded settings network root (examined settings network root Strengths.zero)) =
            some final := by
        rw [← visit_eq indexed descends inside]
        exact visited
      have ended := Worklist.drain_invariant
        (fun queue strengths => Flowing settings network root queue strengths ∧
          Steady settings network root queue strengths)
        (by
          rintro vertex rest strengths ⟨flowing, steady⟩
          have bound := (flowing.reached vertex (by simp)).bound inside
          rw [visit_eq indexed descends bound,
            examined_calm (indexed vertex bound) (steady.calm bound)]
          exact ⟨flowing.forward descends, steady.forward positive⟩)
        ⟨(flowing_root inside indexed).forward descends, steady⟩ after
      refine ⟨ended.1, fun vertex => ?_⟩
      by_contra holding
      exact absurd (ended.1.pending vertex holding) (by simp)

theorem Flowing.response {final : Strengths} (flowing : Flowing settings network root [] final)
    (applied : ∀ vertex, final.apply vertex = 0) (target : Nat) :
    final.diff target = inflow network.edges (edgeFactor settings network) (fun source =>
      (if source = root then network.base settings root else 0) + final.diff source) target := by
  have balanced := flowing.balanced target
  simpa only [applied, sub_zero] using balanced

/-- What the visit leaves is the response of the network to the rate of its root. -/
theorem epidemicVisit_spec (inside : root < network.size) (indexed : network.Indexed)
    (descends : network.Descends rank)
    (positive : ∀ edge ∈ network.edges, 0 < edgeFactor settings network edge)
    (alive : Alive settings network) {fuel : Nat} {final : Strengths}
    (visited : (epidemicVertexArrivalVisitor settings network).epidemicVisit
      (network.outEdges routines) fuel root Strengths.zero = some final) :
    (∀ target, final.diff target =
      inflow network.edges (edgeFactor settings network) (fun source =>
        (if source = root then network.base settings root else 0) + final.diff source) target) ∧
      ∀ vertex, final.diff vertex ≠ 0 → network.Reaches root vertex := by
  obtain ⟨flowing, applied⟩ := epidemicVisit_ended inside indexed descends positive
    (steady_root inside indexed positive alive) visited
  exact ⟨flowing.response applied, flowing.spreads⟩

end Spread

end RlAqs
