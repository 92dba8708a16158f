import RlAqs.Network.EpidemicSpread

/-!
The traffic equations of a generated network. Balancing a vertex adds the response of the
network to the arrivals there; once this was done for every vertex with out-edges, a service
rate is what arrives from outside and along the in-edges.
-/

namespace RlAqs

open Inflow

namespace Network

def TrafficEquations (settings : Settings) (network : Network) : Prop :=
  ∀ target < network.size, network.serviceRate target =
    settings.boostArrival * network.arrivalRate target +
      inflow network.edges (edgeFactor settings network) network.serviceRate target

/-- The equations, with the arrivals at the vertices in `done` alone passed on. -/
def Balanced (settings : Settings) (network : Network) (done : Finset Nat) : Prop :=
  ∀ target < network.size, network.serviceRate target = network.base settings target +
    inflow network.edges (edgeFactor settings network) (fun source =>
      (if source ∈ done then network.base settings source else 0) +
        (network.serviceRate source - network.base settings source)) target

theorem Balanced.traffic {settings : Settings} {network : Network} {done : Finset Nat}
    (balanced : network.Balanced settings done) (all : ∀ edge ∈ network.edges, edge.1 ∈ done) :
    network.TrafficEquations settings := by
  intro target bound
  have passed : inflow network.edges (edgeFactor settings network) (fun source =>
      (if source ∈ done then network.base settings source else 0) +
        (network.serviceRate source - network.base settings source)) target =
      inflow network.edges (edgeFactor settings network) network.serviceRate target := by
    apply inflow_congr
    intro edge member _
    rw [if_pos (all edge member)]
    ring
  rw [balanced target bound, passed, base]

/-- What the balancing needs of a network; it says nothing about the service rates. -/
structure Sound (settings : Settings) (network : Network) (rank : Nat → Nat) : Prop where
  indexed : network.Indexed
  descends : network.Descends rank
  positive : ∀ edge ∈ network.edges, 0 < edgeFactor settings network edge
  alive : Alive settings network

/-! Balancing one vertex. -/

section Balance

variable {routines : Routines} {settings : Settings} {network next : Network}
variable {rank : Nat → Nat} {root fuel : Nat}

theorem balanceVertexStrength_total (sound : network.Sound settings rank)
    (enough : (network.edges.length + 1) ^ rank root ≤ fuel) :
    ∃ next, network.balanceVertexStrength routines settings fuel root = some next := by
  obtain ⟨final, visited⟩ : ∃ final, (epidemicVertexArrivalVisitor settings network).epidemicVisit
      (network.outEdges routines) fuel root Strengths.zero = some final :=
    epidemicVisit_total sound.descends enough
  exact ⟨_, by rw [balanceVertexStrength, visited]; rfl⟩

theorem balanceVertexStrength_spec (sound : network.Sound settings rank)
    (inside : root < network.size)
    (finished : network.balanceVertexStrength routines settings fuel root = some next) :
    ∃ diff : Nat → ℚ,
      next = { network with serviceRate := fun vertex => network.serviceRate vertex + diff vertex } ∧
      ∀ target, diff target = inflow network.edges (edgeFactor settings network) (fun source =>
        (if source = root then network.base settings root else 0) + diff source) target := by
  obtain ⟨final, visited, rfl⟩ := Option.map_eq_some_iff.mp finished
  obtain ⟨response, spreads⟩ := epidemicVisit_spec inside sound.indexed sound.descends
    sound.positive sound.alive visited
  refine ⟨final.diff, ?_, response⟩
  have within : ∀ vertex ∈ routines.breadthFirstVisit network.edges root,
      network.vertexIndex vertex = vertex := by
    intro vertex member
    have path : network.Reaches root vertex := (routines.mem_discovered _ _ _).mp member
    exact sound.indexed vertex (path.bound inside)
  rw [applyEnduced_foldl final.diff network (routines.discovered_nodup _ _) within]
  simp only [Network.mk.injEq, true_and, and_true]
  funext vertex
  split
  · rfl
  · rename_i missed
    have untouched : final.diff vertex = 0 := by
      by_contra changed
      exact missed ((routines.mem_discovered _ _ _).mpr (spreads vertex changed))
    rw [untouched, add_zero]

theorem Balanced.balance {done : Finset Nat} (balanced : network.Balanced settings done)
    (fresh : root ∉ done) {diff : Nat → ℚ}
    (response : ∀ target, diff target =
      inflow network.edges (edgeFactor settings network) (fun source =>
        (if source = root then network.base settings root else 0) + diff source) target) :
    Balanced settings
      { network with serviceRate := fun vertex => network.serviceRate vertex + diff vertex }
      (insert root done) := by
  intro target bound
  have before := balanced target bound
  have passed : inflow network.edges (edgeFactor settings network) (fun source =>
      (if source ∈ insert root done then network.base settings source else 0) +
        (network.serviceRate source + diff source - network.base settings source)) target =
      inflow network.edges (edgeFactor settings network) (fun source =>
        (if source ∈ done then network.base settings source else 0) +
          (network.serviceRate source - network.base settings source)) target + diff target := by
    rw [response target, ← inflow_add]
    apply inflow_congr
    intro edge _ _
    by_cases same : edge.1 = root
    · simp only [same, Finset.mem_insert_self, if_true, fresh, if_false]
      ring
    · simp only [Finset.mem_insert, same, false_or, if_false]
      ring
  calc network.serviceRate target + diff target
      = network.base settings target + (inflow network.edges (edgeFactor settings network)
          (fun source => (if source ∈ done then network.base settings source else 0) +
            (network.serviceRate source - network.base settings source)) target +
              diff target) := by rw [before]; ring
    _ = network.base settings target + inflow network.edges (edgeFactor settings network)
          (fun source => (if source ∈ insert root done then network.base settings source else 0) +
            (network.serviceRate source + diff source - network.base settings source)) target := by
        rw [passed]

end Balance

end Network

end RlAqs
