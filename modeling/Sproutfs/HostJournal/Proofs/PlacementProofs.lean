import Sproutfs.HostJournal.Cover
import Sproutfs.Journal.Proofs.HistoryProofs

/-!
# The journal's writer gives positions that grow

What the host assumes of the positions it is told (`Fits`) holds of every batch the journal lays out:
they grow through the batch, begin at `next` or above, and end below the `next` of the batch after.
-/

namespace Sproutfs.JournalDisk

open List

variable {j : Journal} {l : Layout} (captured : List (Option (List Entry)))

theorem padBlock_spec :
    l.position ≤ (j.padBlock l).position ∧ (j.padBlock l).entries = l.entries := by
  unfold Journal.padBlock
  simp only
  split
  · exact ⟨Nat.le_add_right _ _, rfl⟩
  · exact ⟨Nat.le_refl _, rfl⟩

theorem padRingEnd_entries (size : Nat) : (j.padRingEnd l size).entries = l.entries := by
  unfold Journal.padRingEnd
  simp only
  split <;> rfl

theorem placeEntries_count (es : List Entry) (l : Layout) :
    (j.placeEntries l es).1.entries.length = l.entries.length + (j.placeEntries l es).2.length := by
  induction es generalizing l with
  | nil => rfl
  | cons e es ih =>
    have hone : (j.placeEntry l e).entries.length = l.entries.length + 1 := by
      simp [Journal.placeEntry, padRingEnd_entries]
    have hrest := ih (j.placeEntry l e)
    simp only [Journal.placeEntries, length_cons]
    omega

theorem placeCommits_count (l : Layout) :
    (j.placeCommits l captured).1.entries.length =
      l.entries.length + (toldPositions (j.placeCommits l captured).2).flatten.length := by
  induction captured generalizing l with
  | nil => rfl
  | cons c rest ih =>
    cases c with
    | none => exact ih l
    | some es =>
      by_cases hf : j.fenced es
      · rw [placeCommits_fenced hf]
        exact ih l
      · have hes := placeEntries_count (j := j) es l
        have hrest := ih (j.placeEntries l es).1
        rw [placeCommits_taken hf]
        simp only [toldPositions, map_cons, Option.getD_some, flatten_cons, length_append] at hrest ⊢
        omega

theorem place_of_placeCommits :
    let r := (j.placeCommits (j.padOver (j.next - j.written) { position := j.written }) captured).1
    (j.place captured).entries = r.entries ∧
      ((j.place captured).image ≠ [] → r.position ≤ (j.place captured).stop) := by
  unfold Journal.place
  simp only
  split
  · next hempty => exact ⟨hempty.1.symm, absurd rfl⟩
  · exact ⟨padBlock_spec.2, fun _ => padBlock_spec.1⟩

variable {captured} in
/-- A batch laid out on the ring gives its commits positions as the host expects them. -/
theorem place_fits (hj : j.Spaced) {room largest : Nat}
    (hp : Placed j room largest captured (j.place captured)) :
    HostJournal.Fits j.next (toldPositions (j.place captured).positions)
      (j.afterPlace (j.place captured)).next := by
  obtain ⟨-, hnext, hnone⟩ := padded_good hj
  obtain ⟨hentries, hstop⟩ := place_of_placeCommits (j := j) captured
  set padded := j.padOver (j.next - j.written) { position := j.written }
  have hgrow := placeCommits_grow (j := j) captured padded
  have hcount := placeCommits_count (j := j) captured padded
  rw [hnext, ← place_positions] at hgrow
  rw [hnone, ← place_positions, ← hentries] at hcount
  by_cases himage : (j.place captured).image = []
  · -- A batch that writes nothing gives no position.
    rw [hp.entries, himage, filterMap_nil, length_nil, Nat.zero_add] at hcount
    have hnil := length_eq_zero_iff.mp hcount.symm
    simp [HostJournal.Fits, Journal.afterPlace, hnil, himage]
  · have hstop := hstop himage
    have hle := hgrow.le
    have hafter : (j.afterPlace (j.place captured)).next = (j.place captured).stop := if_neg himage
    rw [hafter]
    refine ⟨by omega, hgrow.sorted, fun p hp => ?_⟩
    have := hgrow.within p hp
    omega

theorem place_fits_padded :
    let j := { sampleJournal 7 with next := 20480 }
    let p := j.place [some [sampleEntry]]
    HostJournal.Fits 20480 (toldPositions p.positions) (j.afterPlace p).next := by
  intro j p
  have hj : j.Spaced := ⟨⟨by decide, by decide⟩, ⟨by decide, by decide⟩, .inr (by decide)⟩
  have hp : Placed j 72 72 [some [sampleEntry]] p :=
    place_spec hj (by decide) (by decide) (by decide) (by decide)
  exact place_fits hj hp

end Sproutfs.JournalDisk
