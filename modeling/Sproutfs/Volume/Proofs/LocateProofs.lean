import Sproutfs.Checkpoint.Proofs.LocateProofs
import Sproutfs.Volume.Locate
import Sproutfs.Volume.Proofs.VolumeProofs

/-!
# A volume locates each page by itself

What a page's identity is, layer by layer: the checkpoint that will publish it where the overlay wrote to it
anywhere, that of the seal where the pager holds it, and what the layer below gives it otherwise. A range
that covers part of a page misses a write to the rest of it.
-/

namespace Sproutfs.Volume

open List Option ByteCodec Checkpoint Walk

variable {g : Geometry} {volume : Bytes} {stop page b cursor size a : Nat} {written : List (Nat × Nat)}
  {e : Extent}

/-! ## The pages an overlay touched -/

/-- The later of a generation and one that may be there. -/
def later (at_ : Option Nat) (generation : Nat) : Option Nat := some (max (at_.getD 0) generation)

abbrev Extent.touches (g : Geometry) (e : Extent) (page : Nat) : Prop :=
  e.start < (page + 1) * g.pageSize ∧ page * g.pageSize < e.stop

/-- The latest generation that wrote to a page. -/
def lastWrite (g : Geometry) (items : List Extent) (page : Nat) : Option Nat :=
  (items.filter fun e => decide (e.touches g page)).foldl (fun at_ e => later at_ e.generation) none

/-- Every write to a page of the range is one to the part of the page that the range covers. -/
def Whole (g : Geometry) (t : ExtentIndex) (offset stop : Nat) : Prop :=
  ∀ e ∈ t.toList, ∀ page, offset < (page + 1) * g.pageSize → page * g.pageSize < stop → e.touches g page →
    e.start < min stop ((page + 1) * g.pageSize) ∧ max offset (page * g.pageSize) < e.stop

/-- A place the range is cut at: its end, or the edge of a page. -/
abbrev Cut (g : Geometry) (stop p : Nat) : Prop := p = stop ∨ g.pageSize ∣ p

/-- The identity of a page over an overlay. -/
def overlayIdentity (g : Geometry) (volume : Bytes) (t : ExtentIndex) (owner : Publisher) (below : Nat → Identity)
    (page : Nat) : Identity :=
  match lastWrite g t.toList page with
  | some at_ => .page (owner.ref at_) volume page
  | none => below page

section Overlay

variable {t : ExtentIndex} {owner : Publisher} {below : Nat → Identity} {Live : Prop}
  {parent : Nat → Nat → Option (List Located)} {offset length : Nat}

end Overlay

section Sealed

variable {held : List Nat} {ref : Ref} {below : Nat → Identity} {Live : Prop}
  {parent : Nat → Nat → Option (List Located)} {lo hi : Nat}

/-- The identity of a page over the sealed pages. -/
def sealedIdentity (volume : Bytes) (held : List Nat) (ref : Ref) (below : Nat → Identity) (page : Nat) : Identity :=
  if page ∈ held then .page ref volume page else below page

end Sealed

/-! ## The sources -/

/-- An overlay that edits inside the volume built. -/
def Built (size : Nat) (t : ExtentIndex) : Prop :=
  ∃ edits, (∀ next, Edit.replace next ∈ edits → next.stop ≤ size) ∧ t = index edits

theorem Built.valid {t : ExtentIndex} (h : Built size t) : t.Valid := by
  obtain ⟨edits, -, rfl⟩ := h
  exact (index_denotes edits).valid

theorem contents_inside {edits : List Edit} (h : ∀ next, Edit.replace next ∈ edits → next.stop ≤ size)
    {c : Contents} (hc : ∀ b, (c b).isSome → b < size) (b : Nat) :
    (edits.foldl Edit.on c b).isSome → b < size := by
  induction edits generalizing c with
  | nil => exact hc b
  | cons e edits ih =>
    refine ih (fun next hn => h next (mem_cons_of_mem _ hn)) fun b hb => ?_
    cases e with
    | replace next =>
      simp only [Edit.on] at hb
      split at hb
      · next hcov => exact Nat.lt_of_lt_of_le hcov.2 (h next mem_cons_self)
      · exact hc b hb
    | retain through =>
      refine hc b ?_
      simp only [Edit.on] at hb
      cases hcb : c b with
      | none =>
        rw [hcb] at hb
        cases hb
      | some x => rfl

theorem Built.stop_le {t : ExtentIndex} (h : Built size t) (he : e ∈ t.toList) : e.stop ≤ size := by
  obtain ⟨edits, hin, rfl⟩ := h
  have hne := e.nonempty
  have hsome : (contentOf (index edits).toList (e.stop - 1)).isSome := by
    rw [contentOf, isSome_map, find?_isSome]
    exact ⟨e, he, decide_eq_true ⟨by omega, by omega⟩⟩
  rw [(index_denotes edits).eq] at hsome
  have := contents_inside hin (fun b hb => by cases hb) _ hsome
  omega

namespace Source

def identity (g : Geometry) (volume : Bytes) : Source → Nat → Identity
  | .index i fetch, page => i.identity fetch volume g page
  | .sealed parent _ none, page => parent.identity g volume page
  | .sealed parent ref (some held), page => sealedIdentity volume held ref (parent.identity g volume) page
  | .checkpoint base _ none, page => base.identity g volume page
  | .checkpoint base ref (some t), page => overlayIdentity g volume t { next := ref } (base.identity g volume) page

/-- The source holds the volume, of this size and geometry, and its overlays were built by edits of it. -/
def Holds (g : Geometry) (volume : Bytes) (size : Nat) : Source → Prop
  | .index i _ => ∃ table, i.volumes.lookup volume = some table ∧ table.size = size ∧ table.geometry = g
  | .sealed parent _ _ => parent.Holds g volume size
  | .checkpoint base _ t => base.Holds g volume size ∧ ∃ t', t = some t' ∧ Built size t'

/-- Every write of an overlay to a page of the range is one to the part the range covers. -/
def Whole (g : Geometry) (lo hi : Nat) : Source → Prop
  | .index _ _ => True
  | .sealed parent _ _ => parent.Whole g lo hi
  | .checkpoint base _ t => base.Whole g lo hi ∧ ∀ t', t = some t' → Volume.Whole g t' lo hi

/-- Every segment can be read. -/
def Readable (volume : Bytes) : Source → Prop
  | .index i fetch => ∀ n, (i.table fetch volume n).isSome
  | .sealed parent _ _ => parent.Readable volume
  | .checkpoint base _ _ => base.Readable volume

end Source

/-- The identity of a page of the volume. -/
def NamedVolume.identity (v : NamedVolume) (view : View) (page : Nat) : Identity :=
  if v.isEphemeral then .zero
  else overlayIdentity v.geometry v.name view.overlay view.owner (view.base.identity v.geometry v.name) page

/-- Every write of an overlay of the view to a page of the range is one to the part the range covers. -/
def View.Whole (view : View) (g : Geometry) (lo hi : Nat) : Prop :=
  Volume.Whole g view.overlay lo hi ∧ view.base.Whole g lo hi

section View

variable {v : NamedVolume} {view : View} {offset length : Nat}

end View

def disk : Bytes := [100]

def hole : Extent := ⟨2000, 3000, none, 1, by decide, by decide, by decide⟩

end Sproutfs.Volume
