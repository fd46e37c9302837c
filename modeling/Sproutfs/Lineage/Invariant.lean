import Sproutfs.Lineage.System

/-!
# What holds of a lineage

The checkpoints of one VM that another VM's index names are all named by a pinned checkpoint of the
first: a fork inherits a pinned checkpoint, and every later index of the fork names a part of what
its parent named. So a sweep that spares its own VM's pins, and deletes nothing of another VM, takes
nothing from any descendant. For the VM's own indexes a sweep must spare what the record selects,
keeps and pins, and what the handle that holds the record builds on.
-/

namespace Sproutfs.Lineage

open Control

namespace System

variable (s : System)

/-- An index that was put, and not as the root of a create still under way. -/
def Settled (i : Index) : Prop :=
  i ∈ s.indexes ∧ ∀ n c, s.creating n = some c → c.root ≠ some i

/-- Nothing the index names has lost an object, and no decided sweep takes any of it. -/
def Whole (i : Index) : Prop :=
  ∀ r ∈ i.named, ¬ s.Gone r ∧ ∀ sw ∈ s.sweeps, sw.kills r = false

/-- The checkpoint is published and whole. -/
def Stands (ref : Ref) : Prop := ∃ i, s.Settled i ∧ i.ref = ref ∧ s.Whole i

/-- A pinned checkpoint of its own VM names the checkpoint. -/
def Pinned (r : Ref) : Prop :=
  ∃ p ∈ s.pins, p.vm = r.vm ∧ ∃ j ∈ s.indexes, j.ref = p ∧ r ∈ j.named

/-- No sweep of the whole VM is under way. -/
def Undeleted (id : List Char) : Prop := ∀ life spared, Sweep.deleteVM id life spared ∉ s.sweeps

end System

/-! ## Handles -/

/-- What a publication was captured from. -/
structure Publication.Tracks (s : System) (v : VM) (p : Publication) : Prop where
  parent : s.Settled p.parent
  next : p.sequence < v.next
  below : ∀ r ∈ p.parent.named, r.vm = v.id → r.sequence < p.sequence
  own : v.root = false → p.parent.ref.vm = v.id
  fork : v.root = true → p.parent.ref ∈ s.pins
  point : ∀ k, p.point = some k → v.root = false ∧
    ∃ pt, s.points[k]? = some pt ∧ pt.index = p.parent
  committed : ∀ i, p.committed = some i → s.Settled i ∧ i.ref = ⟨v.id, p.sequence⟩ ∧
    ∀ r ∈ i.named, r = i.ref ∨ r ∈ p.parent.named

/-- What the checkpoint of a fork point was captured from. -/
structure Waiting.Tracks (s : System) (v : VM) (w : Waiting) : Prop where
  parent : s.Settled w.parent
  next : w.sequence < v.next
  below : ∀ r ∈ w.parent.named, r.vm = v.id → r.sequence < w.sequence
  own : w.parent.ref.vm = v.id
  root : v.root = false
  point : ∃ pt, s.points[w.point]? = some pt ∧ pt.index = w.parent
  before : ∀ p, v.publishing = some p → w.sequence < p.sequence

/-- What a handle builds on, whoever holds the record. -/
structure VM.Tracks (s : System) (v : VM) : Prop where
  nonce : v.nonce ∈ s.nonces
  lived : 0 < s.lives v.id
  base : s.Settled v.base
  below : ∀ r ∈ v.base.named, r.vm = v.id → r.sequence < v.next
  own : v.root = false → v.base.ref.vm = v.id
  fork : v.root = true → ∃ k pt, v.point = some k ∧ s.points[k]? = some pt ∧
    pt.index = v.base ∧ v.base.ref.vm ≠ v.id ∧ ∀ r ∈ v.base.named, r.vm ≠ v.id
  owned : ∀ o, v.owned = some o → s.Settled o ∧ o.ref.vm = v.id
  publishing : ∀ p, v.publishing = some p → p.Tracks s v
  waiting : ∀ w, v.waiting = some w → w.Tracks s v
  landing : ∀ k, v.landing = some k → v.root = false ∧ ∃ pt, s.points[k]? = some pt ∧
    v.base.ref.vm = pt.index.ref.vm ∧ ∀ r ∈ v.base.named, r = v.base.ref ∨ r ∈ pt.index.named

/-- What the handle that holds the record may build on is whole. A publication whose sequence the
record has passed cannot be selected any more. -/
structure VM.Sound (s : System) (v : VM) (r : Record) : Prop where
  base : s.Whole v.base
  publishing : ∀ p, v.publishing = some p → p.sequence < r.selected ∨
    ((v.root = false → p.parent = v.base) ∧ ∀ i, p.committed = some i → s.Whole i)
  waiting : ∀ w, v.waiting = some w → w.sequence < r.selected ∨ w.parent = v.base

/-! ## Records, points and sweeps -/

structure Recorded (s : System) (id : List Char) (r : Record) : Prop where
  vm : r.vm = id
  lived : 0 < s.lives id
  epoch : epochOf r.selected ≤ r.epoch
  nonce : r.nonce ∈ s.nonces
  pinned : ∀ q, q ∈ r.pinned ↔ (⟨id, q⟩ : Ref) ∈ s.pins
  kept : ∀ k ∈ r.kept, k.sequence ≤ r.selected ∧ s.Stands ⟨id, k.sequence⟩
  selected : r.created = true → s.Stands ⟨id, r.selected⟩
  undeleted : s.Undeleted id

/-- Both indexes a fork point's children may build on are pinned, and the later one names nothing of
another VM that the first does not. -/
structure ForkPoint.Tracks (s : System) (pt : ForkPoint) : Prop where
  index : s.Settled pt.index
  pinned : pt.index.ref ∈ s.pins
  published : ∀ i, pt.published = some i → s.Settled i ∧ i.ref ∈ s.pins ∧
    i.ref.vm = pt.index.ref.vm ∧ ∀ r ∈ i.named, r = i.ref ∨ r ∈ pt.index.named

/-- What one index names. -/
structure Index.Tracks (s : System) (i : Index) : Prop where
  published : ∀ r ∈ i.named, ∃ j ∈ s.indexes, j.ref = r
  foreign : ∀ r ∈ i.named, r.vm ≠ i.ref.vm → s.Pinned r
  ordered : ∀ r ∈ i.named, r.vm = i.ref.vm → r.sequence ≤ i.ref.sequence

structure Creating.Tracks (s : System) (n : Nat) (c : Creating) : Prop where
  root : ∀ i, c.root = some i → i ∈ s.indexes ∧ i.ref.vm = c.id ∧ i.named = [i.ref] ∧
    ∀ n' c', s.creating n' = some c' → c'.root = some i → n' = n

structure Inv (s : System) : Prop where
  refs : ∀ i ∈ s.indexes, ∀ j ∈ s.indexes, i.ref = j.ref → i = j
  indexes : ∀ i ∈ s.indexes, i.Tracks s
  pins : ∀ p ∈ s.pins, s.Stands p
  points : ∀ pt ∈ s.points, pt.Tracks s
  records : ∀ id r, s.records id = some r → Recorded s id r
  vms : ∀ h v, s.vms h = some v → v.Tracks s
  alone : ∀ h h' v v', s.vms h = some v → s.vms h' = some v' → v.nonce = v'.nonce → h = h'
  sound : ∀ h v r, s.vms h = some v → s.held v = some r → v.Sound s r
  creating : ∀ n c, s.creating n = some c → c.Tracks s n
  sweeps : ∀ sw ∈ s.sweeps, ∀ r, sw.kills r = true → 0 < s.lives r.vm ∧
    ((∃ j ∈ s.indexes, j.ref = r) ∨ ∃ life spared, sw = .deleteVM r.vm life spared)
  gone : ∀ r, s.Gone r → 0 < s.lives r.vm ∧ ∃ j ∈ s.indexes, j.ref = r
  lived : ∀ p ∈ s.pins, 0 < s.lives p.vm

/-- An index something still reads through: a pinned one, one a record selects or keeps, or one that
the handle holding the record builds on or may yet select. -/
inductive System.Relied (s : System) (i : Index) : Prop where
  | pinned (hp : i.ref ∈ s.pins)
  | selected {id : List Char} {r : Record} (hr : s.records id = some r) (hc : r.created = true)
      (href : i.ref = ⟨id, r.selected⟩)
  | kept {id : List Char} {r : Record} {k : Kept} (hr : s.records id = some r) (hk : k ∈ r.kept)
      (href : i.ref = ⟨id, k.sequence⟩)
  | base {h : Nat} {v : VM} {r : Record} (hv : s.vms h = some v) (hr : s.held v = some r)
      (hb : i = v.base)
  | committed {h : Nat} {v : VM} {r : Record} {p : Publication} (hv : s.vms h = some v)
      (hr : s.held v = some r) (hp : v.publishing = some p) (hnot : ¬ p.sequence < r.selected)
      (hc : p.committed = some i)

/-! ## What an action must meet -/

namespace System

/-- Nothing pinned and no deletion under way is left of an earlier life of the identity. -/
def Clean (s : System) (id : List Char) : Prop := (∀ p ∈ s.pins, p.vm ≠ id) ∧ s.Undeleted id

/-- The handle that holds the record builds on the checkpoint the record selects. -/
def Aligned (s : System) (id : List Char) : Prop :=
  ∀ h v r, s.vms h = some v → v.id = id → s.held v = some r → v.base.ref = ⟨id, r.selected⟩

/-- A record is created under a clean identity, with a root that is whole, and a checkpoint is
released where the handle is aligned with the record. -/
def Guarded (s : System) : Action → Prop
  | .createRecord n _ _ => ∀ c root, s.creating n = some c → c.root = some root →
      s.Clean c.id ∧ s.Whole root
  | .fork _ id _ _ _ => s.Clean id
  | .release id _ => s.Aligned id
  | _ => True

end System

end Sproutfs.Lineage
