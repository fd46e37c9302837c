import Mathlib.Logic.Function.Basic
import Sproutfs.Lib.Bytes

/-!
# A disk whose unsynced writes may tear

A write is volatile until a sync succeeds. A loss of power keeps, of the bytes written since, any
that it likes: each byte of the disk is then what was durable, or some unsynced write to it.
-/

namespace TornDisk

open ByteCodec

/-- One byte of a write: where it goes and what it is. -/
abbrev Write := Nat × UInt8

/-- A disk: the bytes a loss of power cannot take, and the writes since the last sync, oldest
first. -/
structure Disk where
  durable : Nat → UInt8
  pending : List Write

/-- The bytes `f` after the writes `ws`, in order. -/
def apply (f : Nat → UInt8) : List Write → Nat → UInt8
  | [] => f
  | (o, b) :: ws => apply (Function.update f o b) ws

/-- The writes of the bytes `bs` at `off`. -/
def writesAt (off : Nat) : Bytes → List Write
  | [] => []
  | b :: bs => (off, b) :: writesAt (off + 1) bs

namespace Disk

/-- What a read of the disk sees: every write made, synced or not. -/
def view (d : Disk) : Nat → UInt8 := apply d.durable d.pending

/-- The `n` bytes a read at `off` returns. -/
def read (d : Disk) (off n : Nat) : Bytes := (List.range n).map fun i => d.view (off + i)

def write (d : Disk) (ws : List Write) : Disk := { d with pending := d.pending ++ ws }

def sync (d : Disk) : Disk := ⟨d.view, []⟩

/-- `d'` is a disk that a loss of power may leave of `d`. -/
def Crash (d d' : Disk) : Prop :=
  d'.pending = [] ∧ ∀ o, d'.durable o = d.durable o ∨ (o, d'.durable o) ∈ d.pending

/-- Nothing unsynced lies on the `n` bytes at `off`. -/
def Quiet (d : Disk) (off n : Nat) : Prop :=
  ∀ w ∈ d.pending, w.1 < off ∨ off + n ≤ w.1

/-- The bytes `bs` at `off` are durable, and nothing unsynced lies on them. -/
structure Stable (d : Disk) (off : Nat) (bs : Bytes) : Prop where
  durable : ∀ i (h : i < bs.length), d.durable (off + i) = bs[i]
  quiet : d.Quiet off bs.length

end Disk

/-! ## Writes -/

theorem apply_append (f : Nat → UInt8) (ws vs : List Write) :
    apply f (ws ++ vs) = apply (apply f ws) vs := by
  induction ws generalizing f with
  | nil => rfl
  | cons w ws ih => exact ih _

variable {o off n : Nat} {bs : Bytes} {d : Disk} {ws : List Write}

theorem apply_of_notMem (f : Nat → UInt8) (h : ∀ w ∈ ws, w.1 ≠ o) : apply f ws o = f o := by
  induction ws generalizing f with
  | nil => rfl
  | cons w ws ih =>
    obtain ⟨p, b⟩ := w
    have hp : o ≠ p := (h _ List.mem_cons_self).symm
    rw [apply, ih _ fun v hv => h v (List.mem_cons_of_mem _ hv), Function.update_of_ne hp]

theorem apply_congr {f g : Nat → UInt8} (ws : List Write) (h : f o = g o) :
    apply f ws o = apply g ws o := by
  induction ws generalizing f g with
  | nil => exact h
  | cons w ws ih =>
    refine ih ?_
    by_cases ho : o = w.1
    · rw [ho, Function.update_self, Function.update_self]
    · rw [Function.update_of_ne ho, Function.update_of_ne ho, h]

theorem apply_of_unique {b : UInt8} (f : Nat → UInt8) (hmem : (o, b) ∈ ws)
    (huniq : ∀ c, (o, c) ∈ ws → c = b) : apply f ws o = b := by
  induction ws generalizing f with
  | nil => simp at hmem
  | cons w ws ih =>
    obtain ⟨p, c⟩ := w
    rw [apply]
    by_cases hrest : (o, b) ∈ ws
    · exact ih _ hrest fun c hc => huniq c (List.mem_cons_of_mem _ hc)
    · -- The write at the head is the only one to this byte.
      have hhead : (o, b) = (p, c) := (List.mem_cons.mp hmem).resolve_right hrest
      obtain ⟨rfl, rfl⟩ := Prod.mk.injEq .. ▸ hhead
      rw [apply_of_notMem, Function.update_self]
      rintro ⟨q, e⟩ hq rfl
      exact hrest (huniq e (List.mem_cons_of_mem _ hq) ▸ hq)

theorem apply_eq_or_mem (f : Nat → UInt8) (ws : List Write) (o : Nat) :
    apply f ws o = f o ∨ (o, apply f ws o) ∈ ws := by
  induction ws generalizing f with
  | nil => exact .inl rfl
  | cons w ws ih =>
    obtain ⟨p, b⟩ := w
    rcases ih (Function.update f p b) with h | h
    · by_cases hp : o = p
      · subst hp
        rw [Function.update_self] at h
        exact .inr (by rw [apply, h]; exact List.mem_cons_self)
      · rw [Function.update_of_ne hp] at h
        exact .inl h
    · exact .inr (List.mem_cons_of_mem _ h)

theorem mem_writesAt {b : UInt8} :
    (o, b) ∈ writesAt off bs ↔ ∃ i, ∃ h : i < bs.length, o = off + i ∧ b = bs[i] := by
  induction bs generalizing off with
  | nil => simp [writesAt]
  | cons c bs ih =>
    rw [writesAt, List.mem_cons, ih]
    constructor
    · rintro (h | ⟨i, hi, rfl, rfl⟩)
      · exact ⟨0, by simp, by simpa using h⟩
      · exact ⟨i + 1, by simpa using hi, by omega, by simp⟩
    · rintro ⟨i, hi, rfl, rfl⟩
      cases i with
      | zero => simp
      | succ i => exact .inr ⟨i, by simpa using hi, by omega, by simp⟩

/-! ## Reads -/

namespace Disk

@[simp] theorem length_read (d : Disk) (off n : Nat) : (d.read off n).length = n := by
  simp [read]

@[simp] theorem getElem_read (d : Disk) (off n i : Nat) (h : i < (d.read off n).length) :
    (d.read off n)[i] = d.view (off + i) := by
  simp [read]

theorem read_eq_iff : d.read off bs.length = bs ↔ ∀ i (h : i < bs.length), d.view (off + i) = bs[i] := by
  constructor
  · intro h i hi
    have := List.getElem_of_eq h (i := i) (by simpa using hi)
    simpa using this
  · intro h
    exact List.ext_getElem (by simp) fun i _ hi => by simpa using h i hi

theorem slice_read {m k : Nat} (h : m + k ≤ n) : slice (d.read off n) m k = d.read (off + m) k := by
  apply List.ext_getElem
  · rw [length_slice, length_read, length_read]
    omega
  · intro i _ _
    simp [slice, Nat.add_assoc]

theorem read_add (d : Disk) (off n m : Nat) :
    d.read off (n + m) = d.read off n ++ d.read (off + n) m := by
  simp only [read, List.range_add, List.map_append, List.map_map]
  congr 1
  exact List.map_congr_left fun i _ => by simp [Nat.add_assoc]

@[simp] theorem view_sync (d : Disk) : d.sync.view = d.view := rfl

@[simp] theorem read_sync (d : Disk) (off n : Nat) : d.sync.read off n = d.read off n := rfl

@[simp] theorem pending_sync (d : Disk) : d.sync.pending = [] := rfl

theorem view_write (d : Disk) (ws : List Write) : (d.write ws).view = apply d.view ws :=
  apply_append _ _ _

theorem read_write_of_disjoint (h : ∀ w ∈ ws, w.1 < off ∨ off + n ≤ w.1) :
    (d.write ws).read off n = d.read off n := by
  apply List.ext_getElem (by simp)
  intro i hi _
  rw [length_read] at hi
  rw [getElem_read, getElem_read, view_write, apply_of_notMem]
  intro w hw
  have := h w hw
  omega

theorem read_write_writesAt (d : Disk) (off : Nat) (hn : bs.length = n) :
    (d.write (writesAt off bs)).read off n = bs := by
  rw [← hn, read_eq_iff]
  intro i hi
  rw [view_write]
  refine apply_of_unique _ (mem_writesAt.mpr ⟨i, hi, rfl, rfl⟩) fun c hc => ?_
  obtain ⟨k, hk, he, rfl⟩ := mem_writesAt.mp hc
  obtain rfl : i = k := by omega
  rfl

/-! ## Stable bytes -/

theorem Stable.read_eq (h : d.Stable off bs) : d.read off bs.length = bs := by
  rw [read_eq_iff]
  intro i hi
  rw [view, apply_of_notMem _ fun w hw => ?_, h.durable i hi]
  have := h.quiet w hw
  omega

theorem Stable.write (h : d.Stable off bs) (hws : ∀ w ∈ ws, w.1 < off ∨ off + bs.length ≤ w.1) :
    (d.write ws).Stable off bs := by
  refine ⟨h.durable, fun w hw => ?_⟩
  rcases List.mem_append.mp hw with hw | hw
  · exact h.quiet w hw
  · exact hws w hw

theorem stable_of_quiet (hq : d.Quiet off bs.length) (h : d.read off bs.length = bs) : d.Stable off bs := by
  refine ⟨fun i hi => ?_, hq⟩
  rw [← read_eq_iff.mp h i hi, view, apply_of_notMem]
  intro w hw
  have := hq w hw
  omega

theorem stable_sync (h : d.read off bs.length = bs) : d.sync.Stable off bs :=
  ⟨read_eq_iff.mp h, fun w hw => by simp at hw⟩

theorem Stable.sync (h : d.Stable off bs) : d.sync.Stable off bs :=
  stable_sync h.read_eq

theorem Stable.crash {d' : Disk} (h : d.Stable off bs) (hc : d.Crash d') : d'.Stable off bs := by
  refine ⟨fun i hi => ?_, fun w hw => by simp [hc.1] at hw⟩
  rcases hc.2 (off + i) with he | he
  · rw [he, h.durable i hi]
  · have := h.quiet _ he
    omega

end Disk

end TornDisk
