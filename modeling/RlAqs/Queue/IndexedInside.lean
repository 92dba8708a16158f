import RlAqs.Queue.IndexedCore
import RlAqs.Queue.SessionTotal

/-!
What the parallel arrays of the ladder say of each other, and that every look-up
of a bucket finds the dequeue bucket of its rung inside the array.
-/

namespace RlAqs

namespace Rung

def Inside (rung : Rung) : Prop := rung.currentBucket < rung.buckets

theorem Packed.inside {rung : Rung} (packed : rung.Packed)
    (bound : rung.currentBucket < rung.lists.length) : rung.Inside := by
  rw [Inside, ← packed.allocated]
  exact bound

theorem Packed.passed {rung : Rung} (packed : rung.Packed) :
    ∀ bucket ∈ rung.lists.take rung.currentBucket, bucket = [] := by
  intro bucket member
  obtain ⟨index, bound, rfl⟩ := List.getElem_of_mem member
  rw [List.length_take] at bound
  have empty := packed.elsewhere index (by omega)
  rw [List.getElem_take]
  simpa [show index < rung.lists.length by omega] using empty

end Rung

namespace Ladder

end Ladder

namespace LadderQueue

variable {queue : LadderQueue} (valid : queue.Valid)

include valid

end LadderQueue

end RlAqs
