import Sproutfs.Control.Client

/-!
# What reclamation takes

A checkpoint is a reference, an index object that names every checkpoint its pages, its state and its
segments are in, and the parts it wrote. Reclamation works on names alone
(`checkpoint/reclaim.go`), so an index is its names here.
-/

namespace Sproutfs.Lineage

open Control

structure Ref where
  vm : List Char
  sequence : Nat
  deriving DecidableEq

def Ref.isZero (r : Ref) : Bool := r.vm = [] && r.sequence = 0

/-- The root of a checkpoint's index: what `named` reports, which always has the checkpoint itself.
`life` is the creation of the VM's record it was put under, which no code reads. -/
structure Index where
  ref : Ref
  named : List Ref
  life : Nat
  own : ref ∈ named
  deriving DecidableEq

/-- Every index object put so far, under its reference. An index object is put create-if-absent and
never changes. -/
abbrev Catalogue := List Index

def Catalogue.find (c : Catalogue) (ref : Ref) : Option Index := List.find? (·.ref = ref) c

/-- The checkpoints a pinned or kept one keeps alive: itself and every checkpoint its index names. -/
def protectedBy (c : Catalogue) (ref : Ref) : Option (List Ref) :=
  (c.find ref).map fun i => i.named ++ [ref]

/-- A protected checkpoint whose index cannot be read protects everything. -/
def spareProtected (c : Catalogue) (vm : List Char) : List Nat → List Ref → Option (List Ref)
  | [], dead => some dead
  | q :: rest, dead =>
    (protectedBy c ⟨vm, q⟩).bind fun spared =>
      spareProtected c vm rest (dead.filter (· ∉ spared))

/-- The checkpoints `Reclaim` deletes. -/
def reclaim (c : Catalogue) (previous current : Index) (sequences : List Nat) :
    Option (List Ref) :=
  if previous.ref.vm ≠ current.ref.vm ∨ previous.ref = current.ref ∨ previous.ref.isZero then none
  else
    (spareProtected c previous.ref.vm sequences
      ((previous.named.insert previous.ref).filter (· ∉ current.named))).map
        (·.filter (·.vm = previous.ref.vm))

/-- The sequences of a VM its pins keep when the whole VM is swept. -/
def sparedCheckpoints (c : Catalogue) (vm : List Char) : List Nat → Option (List Nat)
  | [] => some []
  | q :: rest =>
    (protectedBy c ⟨vm, q⟩).bind fun spared =>
      (sparedCheckpoints c vm rest).map
        (((spared.filter (·.vm = vm)).map (·.sequence)) ++ ·)

/-! ## Small facts -/

variable {c : Catalogue}

theorem Catalogue.find_mem {ref : Ref} {i : Index} (h : c.find ref = some i) : i ∈ c ∧ i.ref = ref :=
  ⟨List.mem_of_find?_eq_some h, by simpa using List.find?_some h⟩

theorem Catalogue.find_none {ref : Ref} (h : c.find ref = none) : ∀ i ∈ c, i.ref ≠ ref := by
  intro i hi heq
  have := List.find?_eq_none.mp h i hi
  simp [heq] at this

theorem mem_protectedBy {ref : Ref} {spared : List Ref} (h : protectedBy c ref = some spared) :
    ∃ i ∈ c, i.ref = ref ∧ ∀ r, r ∈ spared ↔ r ∈ i.named := by
  obtain ⟨i, hi, rfl⟩ := Option.map_eq_some_iff.mp h
  obtain ⟨hmem, rfl⟩ := Catalogue.find_mem hi
  refine ⟨i, hmem, rfl, fun r => ?_⟩
  simp only [List.mem_append, List.mem_singleton]
  constructor
  · rintro (hr | rfl)
    · exact hr
    · exact i.own
  · exact .inl

theorem mem_spareProtected {vm : List Char} {sequences : List Nat} {dead dead' : List Ref}
    (h : spareProtected c vm sequences dead = some dead') :
    ∀ r ∈ dead', r ∈ dead ∧
      ∀ q ∈ sequences, ∃ i ∈ c, i.ref = ⟨vm, q⟩ ∧ r ∉ i.named := by
  induction sequences generalizing dead with
  | nil =>
    cases h
    exact fun r hr => ⟨hr, fun q hq => absurd hq List.not_mem_nil⟩
  | cons q₀ rest ih =>
    obtain ⟨spared, hspared, hrest⟩ := Option.bind_eq_some_iff.mp h
    obtain ⟨i, hi, href, hiff⟩ := mem_protectedBy hspared
    intro r hr
    obtain ⟨hdead, hall⟩ := ih hrest r hr
    obtain ⟨hmem, hout⟩ : r ∈ dead ∧ r ∉ spared := by simpa using hdead
    refine ⟨hmem, fun q hq => ?_⟩
    rcases List.mem_cons.mp hq with rfl | hq
    · exact ⟨i, hi, href, fun hin => hout ((hiff r).mpr hin)⟩
    · exact hall q hq

/-- What a sweep may delete: own checkpoints that the previous index named, that the current one does
not, and that nothing protected names. -/
theorem mem_reclaim {previous current : Index} {sequences : List Nat} {dead : List Ref}
    (h : reclaim c previous current sequences = some dead) :
    ∀ r ∈ dead, r.vm = previous.ref.vm ∧ r ∈ previous.named ∧ r ∉ current.named ∧
      ∀ q ∈ sequences, ∃ i ∈ c, i.ref = ⟨previous.ref.vm, q⟩ ∧ r ∉ i.named := by
  simp only [reclaim] at h
  split at h
  case isTrue => cases h
  case isFalse =>
    obtain ⟨left, hleft, rfl⟩ := Option.map_eq_some_iff.mp h
    intro r hr
    obtain ⟨hmem, hvm⟩ : r ∈ left ∧ r.vm = previous.ref.vm := by simpa using hr
    obtain ⟨hin, hall⟩ := mem_spareProtected hleft r hmem
    obtain ⟨hprev, hcur⟩ : (r = previous.ref ∨ r ∈ previous.named) ∧ r ∉ current.named := by
      simpa using hin
    refine ⟨hvm, ?_, hcur, hall⟩
    rcases hprev with rfl | hprev
    · exact previous.own
    · exact hprev

theorem mem_sparedCheckpoints {vm : List Char} {pinned spared : List Nat}
    (h : sparedCheckpoints c vm pinned = some spared) :
    ∀ q ∈ pinned, ∃ i ∈ c, i.ref = ⟨vm, q⟩ ∧ ∀ r ∈ i.named, r.vm = vm → r.sequence ∈ spared := by
  induction pinned generalizing spared with
  | nil => exact fun q hq => absurd hq List.not_mem_nil
  | cons q₀ rest ih =>
    obtain ⟨kept, hkept, hrest⟩ := Option.bind_eq_some_iff.mp h
    obtain ⟨others, hothers, rfl⟩ := Option.map_eq_some_iff.mp hrest
    obtain ⟨i, hi, href, hiff⟩ := mem_protectedBy hkept
    intro q hq
    rcases List.mem_cons.mp hq with rfl | hq
    · refine ⟨i, hi, href, fun r hr hvm => List.mem_append_left _ ?_⟩
      exact List.mem_map.mpr ⟨r, by simp [(hiff r).mpr hr, hvm], rfl⟩
    · obtain ⟨j, hj, hjref, hall⟩ := ih hothers q hq
      exact ⟨j, hj, hjref, fun r hr hvm => List.mem_append_right _ (hall r hr hvm)⟩

end Sproutfs.Lineage
