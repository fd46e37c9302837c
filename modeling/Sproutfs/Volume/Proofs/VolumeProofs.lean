import Mathlib.Tactic.IntervalCases
import Sproutfs.Volume.Proofs.OverlayReadProofs
import Sproutfs.Volume.Volume

/-!
# A volume reads what was written to it

What an overlay is for is a partial function from positions to bytes, each with the generation that wrote
it. The index that the code keeps denotes this function after any edits, in every version of it, and the
volume's reads and writes are reads and edits of the function.
-/

namespace Sproutfs.Volume

open List ByteCodec

/-- What an overlay holds: the bytes written since the checkpoint, with their generations. -/
abbrev Contents := Nat → Option (UInt8 × Nat)

inductive Edit where
  | replace (next : Extent)
  | retain (through : Nat)

def Edit.apply (t : ExtentIndex) : Edit → ExtentIndex
  | .replace next => t.replace next
  | .retain through => t.retain through

def Edit.on (c : Contents) : Edit → Contents
  | .replace next => fun b => if next.covers b then some (next.byte b, next.generation) else c b
  | .retain through => fun b => (c b).filter fun x => decide (through < x.2)

def contents (edits : List Edit) : Contents := edits.foldl Edit.on fun _ => none

def index (edits : List Edit) : ExtentIndex := edits.foldl Edit.apply .nil

/-- Every version of the index, the oldest first. -/
def versions (edits : List Edit) : List ExtentIndex := edits.scanl Edit.apply .nil

variable {t : ExtentIndex} {c : Contents} {edits more : List Edit} {v : Volume} {s s' : Handle}
  {dst r : Bytes} {base : Inherited} {k offset : Nat} {wanted : Option (List Bool)} {cancelled late : Bool}

structure Denotes (t : ExtentIndex) (c : Contents) : Prop where
  valid : t.Valid
  eq : ∀ b, contentOf t.toList b = c b

theorem Denotes.apply (h : Denotes t c) (e : Edit) : Denotes (e.apply t) (e.on c) := by
  cases e with
  | replace next =>
    refine ⟨h.valid.replace next, fun b => ?_⟩
    rw [Edit.apply, h.valid.contentOf_replace, h.eq]
    rfl
  | retain through =>
    refine ⟨h.valid.retain through, fun b => ?_⟩
    rw [Edit.apply, h.valid.contentOf_retain, h.eq]
    rfl

theorem Denotes.foldl (h : Denotes t c) (edits : List Edit) :
    Denotes (edits.foldl Edit.apply t) (edits.foldl Edit.on c) := by
  induction edits generalizing t c with
  | nil => exact h
  | cons e edits ih => exact ih (h.apply e)

theorem index_denotes (edits : List Edit) : Denotes (index edits) (contents edits) :=
  Denotes.foldl ⟨.nil, fun _ => rfl⟩ edits

theorem getElem?_scanl (edits : List Edit) (t : ExtentIndex) (hk : k ≤ edits.length) :
    (edits.scanl Edit.apply t)[k]? = some ((edits.take k).foldl Edit.apply t) := by
  induction edits generalizing t k with
  | nil =>
    rw [Nat.le_zero.mp hk]
    rfl
  | cons e edits ih =>
    rw [scanl_cons]
    cases k with
    | zero => rfl
    | succ k => exact ih (e.apply t) (Nat.le_of_succ_le_succ hk)

theorem getElem?_versions (edits : List Edit) (hk : k ≤ edits.length) :
    (versions edits)[k]? = some (index (edits.take k)) :=
  getElem?_scanl edits .nil hk

/-! ## Batches -/

/-- Write a payload at a position, under a generation. -/
def put (generation : Nat) (c : Contents) (w : Nat × Bytes) : Contents := fun b =>
  if w.1 ≤ b ∧ b < w.1 + w.2.length then some (w.2.getD (b - w.1) 0, generation) else c b

theorem foldl_changes (s : Handle) (cs : List Change) :
    (s.apply cs).overlay = (cs.map fun c => Edit.replace (c.extent (s.applied + 1))).foldl Edit.apply s.overlay := by
  rw [foldl_map]
  rfl

theorem changes_contents {xs : List (Nat × Bytes)} {cs : List Change} {total : Nat}
    (h : v.changes xs = .ok (cs, total)) (generation : Nat) (c : Contents) :
    (cs.map fun ch => Edit.replace (ch.extent generation)).foldl Edit.on c = xs.foldl (put generation) c := by
  induction xs generalizing cs total c with
  | nil =>
    cases h
    rfl
  | cons x xs ih =>
    obtain ⟨offset, data⟩ := x
    rw [Volume.changes] at h
    split at h
    · rw [foldl_cons]
      split at h
      · next he =>
        -- An empty payload writes nothing.
        have hput : put generation c (offset, data) = c := by
          funext b
          exact if_neg (by simp only; omega)
        rw [hput]
        exact ih h c
      · cases hrest : v.changes xs with
        | error e =>
          rw [hrest] at h
          cases h
        | ok p =>
          rw [hrest] at h
          obtain ⟨rfl, rfl⟩ := h
          rw [map_cons, foldl_cons]
          exact ih hrest _
    · cases h

/-- A batch that was taken has written its payloads, in order, under the next generation. -/
theorem writeBatch_denotes {xs : List (Nat × Bytes)} (h : Denotes s.overlay c)
    (hw : v.writeBatch s cancelled xs = .ok s') :
    Denotes s'.overlay (xs.foldl (put (s.applied + 1)) c) := by
  revert hw
  fun_cases Volume.writeBatch v s cancelled xs <;> rintro ⟨⟩
  · next hcs _ hempty =>
    have heq := changes_contents hcs (s.applied + 1) c
    rw [List.isEmpty_iff.mp hempty] at heq
    rw [← heq]
    exact h
  · next hcs _ _ _ _ =>
    rw [foldl_changes, ← changes_contents hcs (s.applied + 1) c]
    exact h.foldl _

/-! ## Reads -/

section

variable (hp : v.isEphemeral = false)

include hp

theorem read_ok (h : v.read s base cancelled late offset dst = .ok r) :
    readOverlay base late s.overlay offset dst = some r := by
  revert h
  fun_cases Volume.read v s base cancelled late offset dst <;> rintro ⟨⟩
  · next he => cases hp.symm.trans he
  · assumption

theorem read_succeeds (hr : v.validRange offset dst.length) (ht : s.terminal = false)
    (hb : ∀ o n, base.reads o n = true) : ∃ r, v.read s base false false offset dst = .ok r := by
  obtain ⟨r, hsome⟩ := Option.isSome_iff_exists.mp (readOverlay_isSome hb s.overlay offset dst)
  refine ⟨r, ?_⟩
  rw [Volume.read, if_pos hr, ht, hp, hsome]
  rfl

theorem loadPages_ok (h : v.loadPages s base cancelled late offset dst wanted = .ok r) :
    (dst = [] ∧ r = dst) ∨ readOverlayPages base late s.overlay v.pageSize offset dst wanted = some r := by
  revert h
  fun_cases Volume.loadPages v s base cancelled late offset dst wanted <;> rintro ⟨⟩
  · next hz _ => exact .inl ⟨length_eq_zero_iff.mp hz, rfl⟩
  · next he => cases hp.symm.trans he
  · next hr => exact .inr hr

theorem loadPages_succeeds (hr : v.validRange offset dst.length) (ht : s.terminal = false)
    (hm : ∀ mask, wanted = some mask → mask.length = (offset + dst.length - 1) / v.pageSize - offset / v.pageSize + 1)
    (hb : ∀ o n m, base.readsPages o n m = true) :
    ∃ r, v.loadPages s base false false offset dst wanted = .ok r := by
  obtain ⟨r, hsome⟩ := Option.isSome_iff_exists.mp
    (readOverlayPages_isSome hb s.overlay v.pageSize offset dst wanted)
  by_cases hz : dst.length = 0
  · refine ⟨dst, ?_⟩
    rw [Volume.loadPages, if_pos hr, if_pos hz]
    rfl
  · refine ⟨r, ?_⟩
    have hmask : ¬ (wanted.any fun mask => decide (mask.length ≠
        (offset + dst.length - 1) / v.pageSize - offset / v.pageSize + 1)) := by
      intro hany
      obtain ⟨mask, hw, hne⟩ := (Option.any_eq_true _ _).mp hany
      exact of_decide_eq_true hne (hm mask hw)
    rw [Volume.loadPages, if_pos hr, if_neg hz, if_neg hmask, ht, hp, hsome]
    rfl

end

/-- The extent index is the writes it was given. After any edits it is balanced and in order, it holds at
every position what the edits in order leave there, a walk of a range gives the extents that overlap it,
and every version before still holds what it held. A read of a volume with this overlay gives each byte
what the edits left, over any source below; a read of pages gives it to the wanted pages, and leaves every
other byte of the buffer as it was. Both succeed where the source answers, and a batch that is taken edits
the contents as its payloads in order do. -/
theorem extent_index_denotes_the_edits (edits : List Edit) :
    (index edits).Balanced ∧ Ordered (index edits).toList ∧
      (∀ b, contentOf (index edits).toList b = contents edits b) ∧
      (∀ start stop, start < stop → (index edits).between start stop =
        (index edits).toList.filter fun e => decide (e.start < stop ∧ start < e.stop)) ∧
      (∀ k ≤ edits.length, ∃ t, (versions edits)[k]? = some t ∧
        ∀ b, contentOf t.toList b = contents (edits.take k) b) ∧
      ∀ (v : Volume) (s : Handle) (base : Inherited), v.isEphemeral = false → s.overlay = index edits →
        (∀ cancelled late offset dst r, v.read s base cancelled late offset dst = .ok r →
          r = (List.range' offset dst.length).map (overlaid base (contents edits))) ∧
        (∀ cancelled late offset dst wanted r, v.loadPages s base cancelled late offset dst wanted = .ok r →
          r.length = dst.length ∧ ∀ i < dst.length, r[i]? =
            if wants wanted ((offset + i) / v.pageSize - offset / v.pageSize) then
              some (overlaid base (contents edits) (offset + i)) else dst[i]?) ∧
        (∀ offset dst, v.validRange offset dst.length → s.terminal = false →
          (∀ o n, base.reads o n = true) → ∃ r, v.read s base false false offset dst = .ok r) ∧
        (∀ offset dst wanted, v.validRange offset dst.length → s.terminal = false →
          (∀ mask, wanted = some mask →
            mask.length = (offset + dst.length - 1) / v.pageSize - offset / v.pageSize + 1) →
          (∀ o n m, base.readsPages o n m = true) →
          ∃ r, v.loadPages s base false false offset dst wanted = .ok r) ∧
        ∀ cancelled xs s', v.writeBatch s cancelled xs = .ok s' →
          s'.overlay.Balanced ∧ Ordered s'.overlay.toList ∧ ∀ b, contentOf s'.overlay.toList b =
            xs.foldl (put (s.applied + 1)) (contents edits) b := by
  have hd := index_denotes edits
  have hcontent : contentOf (index edits).toList = contents edits := funext hd.eq
  refine ⟨hd.valid.balanced, hd.valid.ordered, hd.eq, fun start stop hlt => ?_, fun k hk => ?_,
    fun v s base hp hs => ⟨?_, ?_, ?_, ?_, ?_⟩⟩
  · rw [hd.valid.between, if_pos hlt]
  · exact ⟨_, getElem?_versions edits hk, (index_denotes (edits.take k)).eq⟩
  · intro cancelled late offset dst r h
    have hr := read_ok hp h
    rw [hs] at hr
    rw [readOverlay_eq hd.valid hr, hcontent]
  · intro cancelled late offset dst wanted r h
    rcases loadPages_ok hp h with ⟨rfl, rfl⟩ | hr
    · exact ⟨rfl, nofun⟩
    · rw [hs] at hr
      rw [← hcontent]
      exact readOverlayPages_spec v.paged hd.valid hr
  · exact fun offset dst hr ht hb => read_succeeds hp hr ht hb
  · exact fun offset dst wanted hr ht hm hb => loadPages_succeeds hp hr ht hm hb
  · intro cancelled xs s' hw
    have hbatch := writeBatch_denotes (hs ▸ hd) hw
    exact ⟨hbatch.valid.balanced, hbatch.valid.ordered, hbatch.eq⟩

/-- Four bytes are written and the second of them is zeroed; a load of the second page of two bytes alone
fills it, and leaves the first page of the buffer. -/
theorem extent_index_denotes_the_edits_sample :
    let edits : List Edit := [.replace ⟨0, 4, some [1, 2, 3, 4], 1, by decide, by decide, by decide⟩,
      .replace ⟨1, 2, none, 2, by decide, by decide, by decide⟩]
    let v : Volume := { size := 8, pageSize := 2, maxWriteBytes := 8, paged := by decide, bounded := by decide }
    let base : Inherited := { bytes := fun _ => 9, reads := fun _ _ => true, readsPages := fun _ _ _ => true }
    ∃ r, v.loadPages { overlay := index edits } base false false 0 [7, 7, 7, 7] (some [false, true]) = .ok r ∧
      r = [7, 7, 3, 4] := by
  intro edits v base
  obtain ⟨_, hload, _, hsucceeds, _⟩ :=
    (extent_index_denotes_the_edits edits).2.2.2.2.2 v { overlay := index edits } base rfl rfl
  obtain ⟨r, hr⟩ := hsucceeds 0 [7, 7, 7, 7] (some [false, true]) (by decide) rfl
    (fun mask hm => by cases hm; decide) (fun _ _ _ => rfl)
  obtain ⟨hlen, hat⟩ := hload false false 0 [7, 7, 7, 7] (some [false, true]) r hr
  refine ⟨r, hr, ext_getElem? fun i => ?_⟩
  by_cases hi : i < 4
  · rw [hat i hi]
    interval_cases i <;> simp [wants, v, edits, base, overlaid, contents, Edit.on, Extent.byte, Extent.covers]
  · rw [getElem?_eq_none (by simpa [hlen] using hi), getElem?_eq_none (by simpa using hi)]

end Sproutfs.Volume
