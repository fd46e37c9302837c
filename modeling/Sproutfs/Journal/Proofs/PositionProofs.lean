import Sproutfs.Journal.Proofs.PlaceProofs

/-!
# Positions grow through a batch

The positions a batch gives its entries grow in the order of its commits, so what it answers them
with is in that order too.
-/

namespace Sproutfs.JournalDisk

open List

variable {j : Journal} {l : Layout}

/-- Positions given between two ends of a layout, growing. -/
structure Grow (a : Nat) (positions : List Nat) (b : Nat) : Prop where
  le : a ≤ b
  sorted : positions.Pairwise (· < ·)
  within : ∀ p ∈ positions, a ≤ p ∧ p < b

theorem Grow.append {a b c : Nat} {ps qs : List Nat} (h : Grow a ps b) (h' : Grow b qs c) :
    Grow a (ps ++ qs) c := by
  have hle := h.le
  have hle' := h'.le
  refine ⟨hle.trans hle', ?_, ?_⟩
  · refine pairwise_append.mpr ⟨h.sorted, h'.sorted, fun p hp q hq => ?_⟩
    have := h.within p hp
    have := h'.within q hq
    omega
  · intro p hp
    rcases mem_append.mp hp with hp | hp
    · have := h.within p hp
      omega
    · have := h'.within p hp
      omega

theorem padRingEnd_position_ge (size : Nat) : l.position ≤ (j.padRingEnd l size).position := by
  unfold Journal.padRingEnd
  simp only
  split
  · exact Nat.le_add_right _ _
  · exact Nat.le_refl _

theorem placeEntry_grow (e : Entry) :
    Grow l.position [(j.padRingEnd l e.size).position] (j.placeEntry l e).position := by
  have hpos : (j.placeEntry l e).position = (j.padRingEnd l e.size).position + e.size := rfl
  have hge := padRingEnd_position_ge (j := j) (l := l) e.size
  have hsize := e.size_ge
  rw [minEntryBytes_eq] at hsize
  refine ⟨by omega, pairwise_singleton _ _, fun p hp => ?_⟩
  rw [mem_singleton] at hp
  omega

theorem placeEntries_grow (es : List Entry) (l : Layout) :
    Grow l.position (j.placeEntries l es).2 (j.placeEntries l es).1.position := by
  induction es generalizing l with
  | nil => exact ⟨Nat.le_refl _, .nil, by simp [Journal.placeEntries]⟩
  | cons e es ih => exact (placeEntry_grow e).append (ih (j.placeEntry l e))

/-- The positions each commit is told: none where it is refused. -/
def toldPositions (positions : List (Option (List Nat))) : List (List Nat) :=
  positions.map (·.getD [])

theorem placeCommits_grow (captured : List (Option (List Entry))) (l : Layout) :
    Grow l.position (toldPositions (j.placeCommits l captured).2).flatten
      (j.placeCommits l captured).1.position := by
  induction captured generalizing l with
  | nil => exact ⟨Nat.le_refl _, .nil, by simp [Journal.placeCommits, toldPositions]⟩
  | cons c rest ih =>
    cases c with
    | none => exact ih l
    | some es =>
      by_cases hf : j.fenced es
      · rw [placeCommits_fenced hf]
        exact ih l
      · rw [placeCommits_taken hf]
        exact (placeEntries_grow es l).append (ih _)

theorem place_positions (captured : List (Option (List Entry))) :
    (j.place captured).positions =
      (j.placeCommits (j.padOver (j.next - j.written) { position := j.written }) captured).2 := by
  unfold Journal.place
  simp only
  split <;> rfl

theorem commitAnswers_positions (c : Commit) (captured : Option (List Entry))
    (positions : Option (List Nat)) :
    ((commitAnswers c captured positions).map Answer.position).Sublist (positions.getD []) := by
  rcases captured with _ | es
  · exact nil_sublist _
  rcases positions with _ | ps
  · exact nil_sublist _
  simp only [commitAnswers, map_map, Option.getD_some]
  have hfst : (Answer.position ∘ fun pe : Nat × Entry => ⟨c.id, pe.1, pe.2⟩) = Prod.fst := rfl
  rw [hfst]
  induction ps generalizing es with
  | nil => exact nil_sublist _
  | cons p ps ih =>
    rcases es with _ | ⟨e, es⟩
    · exact nil_sublist _
    · exact (ih es).cons_cons p

theorem answers_positions (b : Batch) (p : Placement) :
    ((answers b p).map Answer.position).Sublist (toldPositions p.positions).flatten := by
  unfold answers toldPositions
  generalize p.positions = positions
  induction b generalizing positions with
  | nil => exact nil_sublist _
  | cons x b ih =>
    rcases positions with _ | ⟨ps, positions⟩
    · exact nil_sublist _
    · simp only [zip_cons_cons, flatMap_cons, map_append, map_cons,
        flatten_cons]
      exact (commitAnswers_positions x.1 x.2 ps).append (ih positions)

theorem answers_sorted (batch : List Commit) (captured : List (Option (List Entry))) :
    (answers (batch.zip captured) (j.place captured)).Pairwise fun x y =>
      x.position < y.position := by
  have hgrow := placeCommits_grow (j := j) captured
    (j.padOver (j.next - j.written) { position := j.written })
  rw [← place_positions] at hgrow
  have hsub := answers_positions (batch.zip captured) (j.place captured)
  exact pairwise_map.mp (hgrow.sorted.sublist hsub)

end Sproutfs.JournalDisk
