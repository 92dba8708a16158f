import RlAqs.Library.Parking
import RlAqs.Library.Sums
import RlAqs.Network.RoutinesReference
import RlAqs.Network.FormedGenerated
import Mathlib.Data.List.GetD

/-!
How many links a new vertex gets. A draw prefers the vertex its share falls to, in the order of
the service rates, and takes the first one from there on that is not linked yet: the links are
made as cars are parked.
-/

namespace RlAqs

namespace Network

/-! The links of a new vertex. -/

section

variable (routines : Routines) (network : Network)

def serviceRateOrder : List Nat := routines.sort network.serviceRate (List.range network.size)

def totalRate : ℚ := ((List.range network.size).map network.serviceRate).sum

def heaviest (count : Nat) : ℚ :=
  (((network.serviceRateOrder routines).take count).map network.serviceRate).sum

theorem serviceRateOrder_length : (network.serviceRateOrder routines).length = network.size := by
  rw [serviceRateOrder, (routines.sort_perm _ _).length_eq, List.length_range]

theorem serviceRateOrder_nodup : (network.serviceRateOrder routines).Nodup :=
  (routines.sort_perm _ _).nodup_iff.mpr List.nodup_range

theorem serviceRateOrder_sum :
    ((network.serviceRateOrder routines).map network.serviceRate).sum = network.totalRate :=
  ((routines.sort_perm _ _).map _).sum_eq

theorem heaviest_mono {i j : Nat} (order : i ≤ j) {draw : ℚ} (below : draw < 1)
    (rated : 0 < network.totalRate) (selected : draw < network.heaviest routines i / network.totalRate) :
    draw < network.heaviest routines j / network.totalRate := by
  have descending : ((network.serviceRateOrder routines).map network.serviceRate).Pairwise
      fun first second => second ≤ first :=
    List.pairwise_map.mpr (routines.sort_descending _ _)
  have rises := Sums.sum_take_descending descending order
  rw [← List.map_take, ← List.map_take, network.serviceRateOrder_sum routines] at rises
  rcases rises with grown | above
  · exact selected.trans_le (div_le_div_of_nonneg_right grown rated.le)
  · exact below.trans_le ((one_le_div rated).mpr above)

/-- The position a draw falls to, the number of vertices if it falls to none. -/
def prefers (draw : ℚ) : Nat :=
  Nat.find (p := fun position => network.size ≤ position ∨
    draw < network.heaviest routines (position + 1) / network.totalRate) ⟨_, .inl le_rfl⟩

variable {routines network}

theorem prefers_le_iff {draw : ℚ} (below : draw < 1) (rated : 0 < network.totalRate)
    {position : Nat} (inside : position < network.size) :
    network.prefers routines draw ≤ position ↔
      draw < network.heaviest routines (position + 1) / network.totalRate := by
  rw [prefers, Nat.find_le_iff]
  constructor
  · rintro ⟨first, less, outside | selected⟩
    · omega
    · exact network.heaviest_mono routines (Nat.succ_le_succ less) below rated selected
  · intro selected
    exact ⟨position, le_rfl, .inr selected⟩

theorem le_prefers_iff {draw : ℚ} (below : draw < 1) (rated : 0 < network.totalRate)
    {count : Nat} (some_vertex : 0 < count) (inside : count ≤ network.size) :
    count ≤ network.prefers routines draw ↔
      network.heaviest routines count / network.totalRate ≤ draw := by
  obtain ⟨position, rfl⟩ : ∃ position, count = position + 1 := ⟨count - 1, by omega⟩
  rw [Nat.succ_le_iff, ← not_le, prefers_le_iff below rated inside, not_lt]

variable (routines network) in
def occupied (later : Network) : Finset Nat :=
  (Finset.range network.size).filter fun position =>
    later.edges.contains (network.size, (network.serviceRateOrder routines).getD position 0)

structure Linking (network later : Network) : Prop where
  size : later.size = network.size + 1
  rates : ∀ target < network.size, later.serviceRate target = network.serviceRate target

theorem Linking.connect {later : Network} (linking : network.Linking later) (draw : ℚ) :
    network.Linking (Network.connect network.size network.totalRate draw
      (network.serviceRateOrder routines) 0 later) := by
  have older : ∀ target ∈ network.serviceRateOrder routines, target < network.size :=
    fun _ member => mem_serviceRateOrder.mp member
  have linked := linked_connect network.totalRate draw older 0 later
  refine ⟨linked.size.trans linking.size, fun target older => ?_⟩
  rw [linked.serviceRate]
  exact linking.rates target older

theorem Linking.selects_iff {later : Network} (linking : network.Linking later)
    (rated : 0 < network.totalRate) (draw : ℚ) (position : Nat) :
    Selects later.serviceRate network.totalRate draw 0 (network.serviceRateOrder routines) position ↔
      draw < network.heaviest routines (position + 1) / network.totalRate := by
  have rates : ((network.serviceRateOrder routines).take (position + 1)).map later.serviceRate =
      ((network.serviceRateOrder routines).take (position + 1)).map network.serviceRate :=
    List.map_congr_left fun target member =>
      linking.rates target (mem_serviceRateOrder.mp (List.mem_of_mem_take member))
  rw [Selects, BelowShare, if_neg rated.ne', rates, zero_add, heaviest]

theorem mem_occupied {later : Network} {position : Nat}
    (inside : position < (network.serviceRateOrder routines).length) :
    position ∈ network.occupied routines later ↔
      (network.size, (network.serviceRateOrder routines)[position]) ∈ later.edges := by
  have bound := inside.trans_eq (network.serviceRateOrder_length routines)
  rw [occupied, Finset.mem_filter, List.getD_eq_getElem _ _ inside, List.contains_iff_mem]
  simp only [Finset.mem_range, bound, true_and]

theorem occupied_addEdge {later : Network} (linking : network.Linking later) {position : Nat}
    (inside : position < (network.serviceRateOrder routines).length)
    (unlinked : (network.size, (network.serviceRateOrder routines)[position]) ∉ later.edges) :
    network.occupied routines
        (later.addEdge network.size (network.serviceRateOrder routines)[position]) =
      insert position (network.occupied routines later) := by
  have length := network.serviceRateOrder_length routines
  have older : (network.serviceRateOrder routines)[position] < network.size :=
    mem_serviceRateOrder.mp (List.getElem_mem inside)
  have size := linking.size
  have edges : (later.addEdge network.size (network.serviceRateOrder routines)[position]).edges =
      later.edges ++ [(network.size, (network.serviceRateOrder routines)[position])] := by
    rw [addEdge, dif_pos ⟨by omega, unlinked⟩]
  ext spot
  by_cases bound : spot < (network.serviceRateOrder routines).length
  · rw [mem_occupied bound, Finset.mem_insert, mem_occupied bound, edges, List.mem_append,
      List.mem_singleton, Prod.mk.injEq, and_iff_right rfl,
      (network.serviceRateOrder_nodup routines).getElem_inj_iff, or_comm]
  · have apart : spot ≠ position := by omega
    rw [length] at bound
    simp only [occupied, Finset.mem_insert, Finset.mem_filter, Finset.mem_range, bound, apart,
      false_and, or_false]

theorem Linking.parks {later : Network} (linking : network.Linking later) {draw : ℚ}
    (below : draw < 1) (rated : 0 < network.totalRate) :
    Parking.Parks network.size (network.prefers routines draw) (network.occupied routines later)
      (network.occupied routines (Network.connect network.size network.totalRate draw
        (network.serviceRateOrder routines) 0 later)) := by
  have length := network.serviceRateOrder_length routines
  have selects : ∀ position < network.size,
      Selects later.serviceRate network.totalRate draw 0 (network.serviceRateOrder routines)
        position ↔ network.prefers routines draw ≤ position := fun position inside =>
    (linking.selects_iff rated draw position).trans (prefers_le_iff below rated inside).symm
  rcases connect_cases network.size (network.serviceRateOrder routines) 0 later with
    ⟨position, bound, selected, unlinked, passed, linked⟩ | ⟨full, kept⟩
  · rw [linked, occupied_addEdge linking bound unlinked]
    have inside := bound.trans_eq length
    refine Parking.Parks.parked inside ((selects position inside).mp selected) ?_ ?_
    · rwa [mem_occupied bound]
    · intro other reached less
      rw [mem_occupied (less.trans bound)]
      exact passed other (less.trans bound) less ((selects other (less.trans inside)).mpr reached)
  · rw [kept]
    refine Parking.Parks.leaves fun spot inside reached => ?_
    have place : spot < (network.serviceRateOrder routines).length := by omega
    rw [mem_occupied place]
    exact full spot place ((selects spot inside).mpr reached)

variable (routines) in
theorem Linking.run {later : Network} (linking : network.Linking later) {draw : Nat → ℚ}
    (below : ∀ link, draw link < 1) (rated : 0 < network.totalRate) (links : List Nat) :
    Parking.Run network.size (links.map fun link => network.prefers routines (draw link))
      (network.occupied routines later)
      (network.occupied routines (links.foldl (fun network' link =>
        Network.connect network.size network.totalRate (draw link)
          (network.serviceRateOrder routines) 0 network') later)) := by
  induction links generalizing later with
  | nil => exact Parking.Run.done _
  | cons link rest ih =>
      exact Parking.Run.next (linking.parks (below link) rated) (ih (linking.connect _))

theorem occupied_card {later : Network} {added : List (Nat × Nat)}
    (grown : later.edges = network.edges ++ added)
    (older : ∀ edge ∈ added, edge.1 = network.size ∧ edge.2 < network.size) :
    (network.occupied routines later).card = added.length := by
  have distinct : added.Nodup := (List.nodup_append.mp (grown ▸ later.simple)).2.1
  have fresh : ∀ target, (network.size, target) ∈ later.edges ↔ (network.size, target) ∈ added := by
    intro target
    rw [grown, List.mem_append, or_iff_right]
    exact fun member => lt_irrefl _ (network.inside _ member).1
  have length := network.serviceRateOrder_length routines
  have links : (network.occupied routines later).image (fun position =>
      (network.size, (network.serviceRateOrder routines).getD position 0)) = added.toFinset := by
    ext ⟨source, target⟩
    simp only [occupied, List.contains_iff_mem, fresh, Finset.mem_image, Finset.mem_filter, Finset.mem_range,
      List.mem_toFinset]
    constructor
    · rintro ⟨position, ⟨_, member⟩, same⟩
      exact same ▸ member
    · intro member
      obtain ⟨source_eq, bound⟩ := older _ member
      obtain rfl : source = network.size := source_eq
      have listed : target ∈ network.serviceRateOrder routines := mem_serviceRateOrder.mpr bound
      obtain ⟨position, inside, found⟩ := List.mem_iff_getElem.mp listed
      have place : (network.serviceRateOrder routines).getD position 0 = target :=
        (List.getD_eq_getElem _ _ inside).trans found
      exact ⟨position, ⟨inside.trans_eq length, by rwa [place]⟩, by rw [place]⟩
  rw [← List.toFinset_card_of_nodup distinct, ← links, Finset.card_image_of_injOn]
  intro first left second right same
  have left_bound : first < (network.serviceRateOrder routines).length :=
    (Finset.mem_range.mp (Finset.mem_filter.mp left).1).trans_eq length.symm
  have right_bound : second < (network.serviceRateOrder routines).length :=
    (Finset.mem_range.mp (Finset.mem_filter.mp right).1).trans_eq length.symm
  have targets := (Prod.mk.inj same).2
  rwa [List.getD_eq_getElem _ _ left_bound, List.getD_eq_getElem _ _ right_bound,
    (network.serviceRateOrder_nodup routines).getElem_inj_iff] at targets

def LinkedTo (before after : Network) (count : Nat) : Prop :=
  ∃ targets : List Nat, targets.length = count ∧ targets.Nodup ∧
    (∀ target ∈ targets, target < before.size) ∧
    after.edges = before.edges ++ targets.map fun target => (before.size, target)

theorem linkedTo_iff {later : Network} {added : List (Nat × Nat)}
    (grown : later.edges = network.edges ++ added)
    (older : ∀ edge ∈ added, edge.1 = network.size ∧ edge.2 < network.size) (count : Nat) :
    LinkedTo network later count ↔ added.length = count := by
  constructor
  · rintro ⟨targets, length, _, _, same⟩
    have lists := List.append_cancel_left (grown.symm.trans same)
    rw [lists, List.length_map, length]
  · intro length
    have distinct : added.Nodup := (List.nodup_append.mp (grown ▸ later.simple)).2.1
    refine ⟨added.map Prod.snd, by rw [List.length_map, length], ?_, ?_, ?_⟩
    · refine distinct.map_on fun first left second right same => ?_
      exact Prod.ext ((older first left).1.trans (older second right).1.symm) same
    · intro target member
      obtain ⟨edge, inside, rfl⟩ := List.mem_map.mp member
      exact (older edge inside).2
    · have sources : (added.map Prod.snd).map (fun target => (network.size, target)) =
          added.map id := by
        rw [List.map_map]
        exact List.map_congr_left fun edge member => Prod.ext (older edge member).1.symm rfl
      rw [grown, sources, List.map_id]

variable {settings : Settings} {draws : Draws}

theorem drawEdges_range (drawable : settings.maxEdges ≠ 0) {vertices : Nat}
    (some_vertex : 0 < vertices) (draw : Nat) :
    ∃ edges, drawEdges settings draw vertices = some edges ∧
      (settings.maxEdges = maxOutdegree → edges = vertices) ∧
      (settings.maxEdges ≠ maxOutdegree →
        1 ≤ edges ∧ edges ≤ min vertices settings.maxEdges.toNat) ∧ edges ≤ vertices := by
  have limit : 0 < settings.maxEdges.toNat := by
    refine Nat.pos_of_ne_zero fun zero => drawable ?_
    exact UInt32.toNat_inj.mp zero
  unfold drawEdges gslRngUniformInt
  split
  · rename_i unlimited
    exact ⟨vertices, rfl, fun _ => rfl, fun limited => absurd unlimited limited, le_rfl⟩
  · rename_i limited
    split
    · rename_i few
      have drawn := Nat.mod_lt draw some_vertex
      refine ⟨draw % vertices + 1, by rw [if_neg some_vertex.ne']; rfl,
        fun unlimited => absurd unlimited limited, fun _ => ⟨Nat.succ_pos _, ?_⟩, by omega⟩
      exact le_min (by omega) (by omega)
    · rename_i many
      have drawn := Nat.mod_lt draw limit
      refine ⟨draw % settings.maxEdges.toNat + 1, by rw [if_neg limit.ne']; rfl,
        fun unlimited => absurd unlimited limited, fun _ => ⟨Nat.succ_pos _, ?_⟩, by omega⟩
      exact le_min (by omega) (by omega)

/-- All links are made exactly when the draws fit: for every number of vertices, those that fall
behind the shares of so many vertices are no more than the vertices left. -/
theorem attach_linkedTo_iff (rated : 0 < network.totalRate)
    (below : ∀ link, draws.uniform network.size link < 1) {edges : Nat} (few : edges ≤ network.size) :
    LinkedTo network (network.attach routines settings draws edges) edges ↔
      ∀ count, 0 < count → count ≤ network.size →
        ((List.range edges).countP fun link =>
          network.heaviest routines count / network.totalRate ≤ draws.uniform network.size link) ≤
            network.size - count := by
  obtain ⟨added, grown, older⟩ : ∃ added,
      (network.attach routines settings draws edges).edges = network.edges ++ added ∧
      ∀ edge ∈ added, edge.1 = network.size ∧ edge.2 < network.size :=
    (linked_attach routines settings draws edges network).edges
  have starts : network.Linking
      (network.addVertex.setRates settings (draws.arrival network.size) network.size) :=
    ⟨rfl, fun target before => Function.update_of_ne before.ne _ _⟩
  have empty : network.occupied routines
      (network.addVertex.setRates settings (draws.arrival network.size) network.size) = ∅ := by
    refine Finset.filter_eq_empty_iff.mpr fun position _ member => ?_
    exact lt_irrefl _ (network.inside _ (List.contains_iff_mem.mp member)).1
  have run := starts.run routines below rated (List.range edges)
  rw [empty] at run
  have parked := run.all_park_iff
  rw [List.length_map, List.length_range] at parked
  have card : (network.occupied routines (network.attach routines settings draws edges)).card =
      added.length := occupied_card grown older
  have sorted : ∀ count, 0 < count → count ≤ network.size →
      ((List.range edges).map fun link =>
        network.prefers routines (draws.uniform network.size link)).countP (count ≤ ·) =
      (List.range edges).countP fun link =>
        network.heaviest routines count / network.totalRate ≤ draws.uniform network.size link := by
    intro count some_vertex inside
    rw [List.countP_map]
    refine List.countP_congr fun link _ => ?_
    simp only [Function.comp_apply, decide_eq_true_eq]
    exact le_prefers_iff (below link) rated some_vertex inside
  rw [linkedTo_iff grown older, ← card]
  refine parked.trans ⟨fun fits count some_vertex inside => ?_, fun fits count inside => ?_⟩
  · rw [← sorted count some_vertex inside]
    exact fits count inside
  · rcases Nat.eq_zero_or_pos count with rfl | some_vertex
    · refine List.countP_le_length.trans ?_
      rw [List.length_map, List.length_range]
      exact few
    · rw [sorted count some_vertex inside]
      exact fits count some_vertex inside

theorem advanceStep_edges {edges fuel : Nat} {next : Network}
    (drew : drawEdges settings (draws.numEdges network.size) network.size = some edges)
    (stepped : advanceStep routines settings draws fuel network = some next) :
    next.edges = (network.attach routines settings draws edges).edges := by
  rw [advanceStep, drew, Option.bind_some] at stepped
  obtain ⟨rates, rfl⟩ := balanceVertexStrength_rates stepped
  rfl

end

/-- A step draws a number of links within its bounds, and makes all of them exactly when the
draws fit. -/
theorem advanceStep_links_iff {network : Network} (routines : Routines) {settings : Settings}
    {draws : Draws} (rated : 0 < network.totalRate) (drawable : settings.maxEdges ≠ 0)
    (below : ∀ link, draws.uniform network.size link < 1) :
    ∃ edges, drawEdges settings (draws.numEdges network.size) network.size = some edges ∧
      (settings.maxEdges = maxOutdegree → edges = network.size) ∧
      (settings.maxEdges ≠ maxOutdegree →
        1 ≤ edges ∧ edges ≤ min network.size settings.maxEdges.toNat) ∧
      ∀ next, (next = network.attach routines settings draws edges ∨
          ∃ fuel, advanceStep routines settings draws fuel network = some next) →
        (LinkedTo network next edges ↔
          ∀ count, 0 < count → count ≤ network.size →
            ((List.range edges).countP fun link =>
              network.heaviest routines count / network.totalRate ≤
                draws.uniform network.size link) ≤ network.size - count) := by
  have some_vertex : 0 < network.size := by
    by_contra none
    rw [totalRate, Nat.eq_zero_of_not_pos none] at rated
    exact lt_irrefl _ rated
  obtain ⟨edges, drew, unlimited, limited, few⟩ :=
    drawEdges_range drawable some_vertex (draws.numEdges network.size)
  refine ⟨edges, drew, unlimited, limited, fun next reached => ?_⟩
  have same : next.edges = (network.attach routines settings draws edges).edges := by
    rcases reached with rfl | ⟨fuel, stepped⟩
    · rfl
    · exact advanceStep_edges drew stepped
  rw [LinkedTo, same]
  exact attach_linkedTo_iff rated below few

def pair : Network :=
  { (((ofSize 0).addVertex.addVertex).addEdge 1 0) with serviceRate := fun _ => 1 }

def spreadDraws : Draws where
  arrival _ := 1 / 2
  numEdges _ := 0
  uniform _ edge := if edge = 0 then 1 / 4 else 3 / 4
  erdosRenyi := []

theorem advanceStep_links_spread :
    LinkedTo pair (pair.attach Routines.reference unitSettings spreadDraws 2) 2 := by
  obtain ⟨edges, drew, unlimited, _, linked⟩ :=
    @advanceStep_links_iff pair Routines.reference unitSettings spreadDraws (by decide +kernel)
      (by decide) fun link => by
        simp only [spreadDraws]
        split <;> norm_num
  obtain rfl : edges = 2 := unlimited rfl
  refine (linked _ (.inl rfl)).mpr fun count some_vertex inside => ?_
  have cases : count = 1 ∨ count = 2 := by
    have size : pair.size = 2 := rfl
    omega
  rcases cases with rfl | rfl <;> decide +kernel

def lateDraws : Draws := { spreadDraws with uniform := fun _ _ => 3 / 4 }

theorem attach_late :
    drawEdges unitSettings (lateDraws.numEdges pair.size) pair.size = some 2 ∧
      (pair.attach Routines.reference unitSettings lateDraws 2).edges = [(1, 0), (2, 1)] ∧
      ¬∀ (routines : Routines) (settings : Settings) (draws : Draws) (network : Network)
        (edges : Nat), 0 < network.totalRate → settings.maxEdges ≠ 0 → draws.Uniform →
          drawEdges settings (draws.numEdges network.size) network.size = some edges →
            LinkedTo network (network.attach routines settings draws edges) edges := by
  have made : (pair.attach Routines.reference unitSettings lateDraws 2).edges =
      [(1, 0), (2, 1)] := by decide +kernel
  refine ⟨rfl, made, fun always => ?_⟩
  have uniform : lateDraws.Uniform := by
    refine ⟨fun _ => ?_, fun _ _ => ?_, fun _ _ => ?_⟩ <;> norm_num [lateDraws, spreadDraws]
  obtain ⟨targets, length, _, _, linked⟩ := always Routines.reference unitSettings lateDraws pair 2
    (by decide +kernel) (by decide) uniform rfl
  have lengths := congrArg List.length (made.symm.trans linked)
  rw [List.length_append, List.length_map, length] at lengths
  exact absurd lengths (by decide)

end Network

end RlAqs
