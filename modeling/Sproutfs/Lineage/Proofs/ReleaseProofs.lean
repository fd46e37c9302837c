import Sproutfs.Lineage.Proofs.DanglingProofs

/-!
# Releases of kept checkpoints

The sweep behind a release spares what the selected index names. A handle whose selection landed while its
reply was lost goes on building on the index before it, which may name more, and the sweep takes that from
under it.
-/

namespace Sproutfs.Lineage

open Machine Control

variable {s : System}

theorem Inv.aligned (hi : Inv s) {h : Nat} {v : VM} {r : Record} (hv : s.vms h = some v)
    (hr : s.held v = some r) (hbase : v.base.ref = ⟨v.id, r.selected⟩) : s.Aligned v.id := by
  intro h' v' r' hv' hid hr'
  cases hi.held_unique hv' hv hid hr' hr
  cases hv.symm.trans hv'
  cases hr.symm.trans hr'
  exact hbase

end Sproutfs.Lineage
