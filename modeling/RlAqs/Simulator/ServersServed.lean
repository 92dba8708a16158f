import RlAqs.Simulator.HandlersChecks
import Mathlib.Tactic.Linarith

/-!
One server and the departures pending for it. An arrival schedules its departure at once,
so the count of pending departures is the waiting count and the one in service together,
and the last of them is at the time the service ends.
-/

namespace RlAqs

open Handlers

def departures (vertex : Int) (entries : List Entry) : List Entry :=
  entries.filter fun entry => entry.type = departureEvent ∧ entry.destination = vertex

section departures

variable {vertex : Int} {entry : Entry} {entries : List Entry}

theorem mem_departures : entry ∈ departures vertex entries ↔
    entry ∈ entries ∧ entry.type = departureEvent ∧ entry.destination = vertex := by
  simp [departures]

theorem departures_append (first second : List Entry) :
    departures vertex (first ++ second) = departures vertex first ++ departures vertex second := by
  simp [departures]

theorem departures_erase :
    departures vertex (entries.erase entry) = (departures vertex entries).erase entry :=
  List.erase_filter.symm

theorem departures_none (none : ∀ entry ∈ entries,
    ¬ (entry.type = departureEvent ∧ entry.destination = vertex)) :
    departures vertex entries = [] := by
  simpa [departures, List.filter_eq_nil_iff] using none

theorem departures_erase_of_ne
    (other : ¬ (entry.type = departureEvent ∧ entry.destination = vertex)) :
    departures vertex (entries.erase entry) = departures vertex entries := by
  rw [departures_erase]
  exact List.erase_of_not_mem fun member => other (mem_departures.mp member).2

end departures

structure Served (config : Config) (server : Server) (leaving : List Entry) : Prop where
  counted : (leaving.length : Int) = server.numberInQueue + if server.busy then 1 else 0
  nonneg : 0 ≤ server.numberInQueue
  waiting : 0 < server.numberInQueue → server.busy = true
  latest : server.busy = true → ∃ last ∈ leaving, last.arrival = server.timeServiceEnds
  bounded : server.busy = true →
    ∀ entry ∈ leaving, entry.arrival ≤ server.timeServiceEnds
  begun : server.busy = true → 0 ≤ config.stopTime

namespace Served

variable {config : Config} {server : Server} {leaving : List Entry} {entry : Entry}

theorem fresh : Served config Server.fresh [] where
  counted := by simp [Server.fresh]
  nonneg := by simp [Server.fresh]
  waiting := by simp [Server.fresh]
  latest := by simp [Server.fresh]
  bounded := by simp [Server.fresh]
  begun := by simp [Server.fresh]

theorem numEvents (served : Served config server leaving) (entry : Entry) :
    Served config (numEventsHandler server entry) leaving where
  counted := by simpa using served.counted
  nonneg := by simpa using served.nonneg
  waiting := by simpa using served.waiting
  latest := by simpa using served.latest
  bounded := by simpa using served.bounded
  begun := by simpa using served.begun

theorem perm {others : List Entry} (served : Served config server leaving)
    (perm : leaving.Perm others) : Served config server others where
  counted := by rw [← perm.length_eq]; exact served.counted
  nonneg := served.nonneg
  waiting := served.waiting
  latest := fun busy =>
    let ⟨last, member, ends⟩ := served.latest busy
    ⟨last, perm.mem_iff.mp member, ends⟩
  bounded := fun busy entry member => served.bounded busy entry (perm.mem_iff.mpr member)
  begun := served.begun

theorem empty_of_idle (served : Served config server leaving) (idle : server.busy = false) :
    leaving = [] := by
  have counted := served.counted
  have none : server.numberInQueue = 0 := by
    rcases served.nonneg.eq_or_lt with zero | waiting
    · exact zero.symm
    · rw [served.waiting waiting] at idle
      cases idle
  simp only [idle, none, Bool.false_eq_true, ↓reduceIte] at counted
  exact List.length_eq_zero_iff.mp (by omega)

theorem busy_of_mem (served : Served config server leaving) (member : entry ∈ leaving) :
    server.busy = true := by
  by_contra idle
  simp only [Bool.not_eq_true] at idle
  rw [served.empty_of_idle idle] at member
  cases member

theorem alone (served : Served config server leaving) (member : entry ∈ leaving)
    (empty : server.numberInQueue = 0) :
    leaving = [entry] ∧ entry.arrival = server.timeServiceEnds := by
  have busy := served.busy_of_mem member
  have counted := served.counted
  rw [empty, busy] at counted
  have length : leaving.length = 1 := by simpa using counted
  obtain ⟨only, alone⟩ := List.length_eq_one_iff.mp length
  obtain ⟨last, found, ends⟩ := served.latest busy
  rw [alone, List.mem_singleton] at member found
  subst member
  exact ⟨alone, found ▸ ends⟩

theorem arrival (served : Served config server leaving) (begun : 0 ≤ config.stopTime)
    (uid : Nat) (entry : Entry) (serviceTime : ℚ≥0) :
    Served config (arrivalHandler server uid entry serviceTime).1
      (leaving ++ [(arrivalHandler server uid entry serviceTime).2]) where
  counted := by
    have counted := served.counted
    simp only [List.length_append, List.length_singleton, Nat.cast_add, Nat.cast_one,
      arrivalHandler_numberInQueue, arrivalHandler_busy, ↓reduceIte, counted]
  nonneg := by
    have nonneg := served.nonneg
    rw [arrivalHandler_numberInQueue]
    split <;> omega
  waiting := fun _ => arrivalHandler_busy server uid entry serviceTime
  latest := fun _ => ⟨_, List.mem_append_right _ (List.mem_singleton.mpr rfl),
    arrivalHandler_arrival server uid entry serviceTime⟩
  bounded := by
    intro _ other member
    rcases List.mem_append.mp member with earlier | new
    · have busy := served.busy_of_mem earlier
      have bound := served.bounded busy other earlier
      have nonneg := serviceTime.coe_nonneg
      rw [arrivalHandler_timeServiceEnds, if_pos busy]
      linarith
    · rw [List.mem_singleton.mp new]
      exact (arrivalHandler_arrival server uid entry serviceTime).le
  begun := fun _ => begun

/-- Among the departures that remain there is still one at the end of the service: if the
earliest one was there, all of them are. -/
theorem latest_erase (served : Served config server leaving) (member : entry ∈ leaving)
    (earliest : ∀ other ∈ leaving, entry.arrival ≤ other.arrival)
    (more : 0 < server.numberInQueue) :
    ∃ last ∈ leaving.erase entry, last.arrival = server.timeServiceEnds := by
  have busy := served.busy_of_mem member
  obtain ⟨last, found, ends⟩ := served.latest busy
  by_cases same : last = entry
  · have counted := served.counted
    simp only [busy, ↓reduceIte] at counted
    have shorter := List.length_erase_of_mem member
    obtain ⟨other, remains⟩ : ∃ other, other ∈ leaving.erase entry :=
      List.exists_mem_of_length_pos (by omega)
    have inside := List.mem_of_mem_erase remains
    have lower := earliest other inside
    have upper := served.bounded busy other inside
    exact ⟨other, remains, le_antisymm upper (by rw [← ends, same]; exact lower)⟩
  · exact ⟨last, (List.mem_erase_of_ne same).mpr found, ends⟩

theorem departure (served : Served config server leaving) (member : entry ∈ leaving)
    (earliest : ∀ other ∈ leaving, entry.arrival ≤ other.arrival)
    (graph : Graph) (uid : Nat) (handled : Entry) (selected : Nat) :
    Served config (departureHandler graph server uid handled selected).1
      (leaving.erase entry) := by
  have busy := served.busy_of_mem member
  have counted := served.counted
  have shorter := List.length_erase_of_mem member
  have positive : 0 < leaving.length := List.length_pos_of_mem member
  simp only [busy, ↓reduceIte] at counted
  rcases served.nonneg.eq_or_lt with empty | waiting
  · rw [departureHandler_last graph server uid handled selected empty.symm]
    have none : leaving.erase entry = [] := List.length_eq_zero_iff.mp (by omega)
    rw [none]
    constructor <;> simp [← empty]
  · rw [departureHandler_next graph server uid handled selected waiting]
    constructor
    · simp only [busy, ↓reduceIte]
      omega
    · simp only
      omega
    · exact fun _ => busy
    · exact fun _ => served.latest_erase member earliest waiting
    · exact fun _ other inside => served.bounded busy other (List.mem_of_mem_erase inside)
    · exact fun _ => served.begun busy

end Served

end RlAqs
