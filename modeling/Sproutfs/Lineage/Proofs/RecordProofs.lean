import Sproutfs.Control.Proofs.CallProofs
import Sproutfs.Lineage.System

/-!
# The writes of a control record, one by one

What each single write of a record makes of the record it replaces.
-/

namespace Sproutfs.Lineage

open Control

variable {r r' : Record} {sequence : Nat}

theorem createdRecord_eq {id : List Char} {published : Bool} {nonce : Nonce}
    (h : createdRecord id sequence published nonce = some r) :
    r = { vm := id, epoch := epochOf sequence, nonce := nonce, selected := sequence,
          created := published } := by
  revert h
  unfold createdRecord
  fun_cases Control.create id sequence published nonce
  · nofun
  · exact fun h => (Option.some.inj h).symm

theorem openedRecord_eq {o : Opening} (h : openedRecord o r = some r') : r' = o.next r := by
  revert h
  unfold openedRecord
  generalize hv : (.ok ⟨0, r, 0⟩ : Except Error RecordVersion) = v
  fun_cases Control.openRead o v <;> rintro ⟨⟩
  cases hv
  rfl

theorem pinnedRecord_cases {wanted : Nat} (h : pinnedRecord sequence r = some (wanted, r')) :
    (r' = r ∧ wanted ∈ r.pinned) ∨ (r' = pinNext wanted r ∧
      ((wanted = r.selected ∧ r.created = true) ∨ ∃ k ∈ r.kept, k.sequence = wanted)) := by
  revert h
  unfold pinnedRecord
  generalize hv : (.ok ⟨0, r, 0⟩ : Except Error RecordVersion) = v
  fun_cases Control.pinRead sequence v <;> intro h <;> cases hv <;> try cases h
  · next hpin =>
    obtain ⟨rfl, rfl⟩ := Prod.mk.inj (Option.some.inj h)
    exact .inl ⟨rfl, by simpa [Record.isPinned] using hpin⟩
  · next w _ hnot _ =>
    obtain ⟨rfl, rfl⟩ := Prod.mk.inj (Option.some.inj h)
    refine .inr ⟨rfl, ?_⟩
    by_cases hk : r.isKept w
    · exact .inr (by simpa [Record.isKept] using hk)
    · exact .inl (by simpa [hk] using hnot)

theorem releasedRecord_eq (h : releasedRecord sequence r = some r') :
    r' = releaseNext sequence r ∧ (∃ k ∈ r.kept, k.sequence = sequence) ∧ sequence ∉ r.pinned := by
  revert h
  unfold releasedRecord
  generalize hv : (.ok ⟨0, r, 0⟩ : Except Error RecordVersion) = v
  fun_cases Control.releaseRead sequence v <;> rintro ⟨⟩
  next hk hp =>
    cases hv
    refine ⟨rfl, ?_, ?_⟩
    · simpa [Record.isKept] using hk
    · simpa [Record.isPinned] using hp

/-- What a selection makes of the record. -/
structure Selected (epoch sequence : Nat) (kept : Option Kept) (r r' : Record) : Prop where
  vm : r'.vm = r.vm
  epoch_eq : r'.epoch = r.epoch
  nonce : r'.nonce = r.nonce
  selected : r'.selected = sequence
  le : r.selected ≤ sequence
  own : sequence = r.selected ∨ epochOf sequence = epoch
  created : r'.created = true
  pinned : r'.pinned = r.pinned
  kept_of : ∀ k ∈ r'.kept, k ∈ r.kept ∨ kept = some k

theorem mem_withKept {k x : Kept} {l : List Kept} (h : r.withKept k = .ok l) (hx : x ∈ l) :
    x ∈ r.kept ∨ x = k := by
  unfold Record.withKept at h
  split at h
  · cases h
    exact .inl hx
  split at h <;> cases h
  rcases List.mem_append.mp hx with hx | hx
  · exact .inl (List.takeWhile_subset _ hx)
  · rcases List.mem_cons.mp hx with hx | hx
    · exact .inr hx
    · exact .inl (List.dropWhile_subset _ hx)

theorem selecting_spec {epoch : Nat} {kept : Option Kept} {journals : List Journal}
    (h : selecting epoch sequence kept journals r = .ok r') : Selected epoch sequence kept r r' := by
  simp only [selecting] at h
  split at h
  · cases h
  split at h
  · cases h
  have hle : r.selected ≤ sequence := Nat.le_of_not_lt ‹_›
  have hown := (selecting_selected ‹_› ‹_›).imp_right (·.2)
  cases kept with
  | none =>
    rw [withJournals_ok h]
    exact ⟨rfl, rfl, rfl, rfl, hle, hown, rfl, rfl, fun k hk => .inl hk⟩
  | some k =>
    dsimp only at h
    cases hk : r.withKept k with
    | error e => rw [hk] at h; cases h
    | ok l =>
      rw [hk] at h
      rw [withJournals_ok h]
      exact ⟨rfl, rfl, rfl, rfl, hle, hown, rfl, rfl,
        fun x hx => (mem_withKept hk hx).imp_right fun hx => by rw [hx]⟩

theorem pinning_eq (h : pinning sequence r = .ok r') : r' = pinNext sequence r := by
  simp only [pinning] at h
  split at h
  · cases h
  cases ha : r.admits sequence with
  | error e => rw [ha] at h; cases h
  | ok u =>
    rw [ha] at h
    exact (Except.ok.inj h).symm

theorem mem_protectedSequences {q : Nat} :
    q ∈ r.protectedSequences ↔ q ∈ r.pinned ∨ ∃ k ∈ r.kept, k.sequence = q := by
  simp [Record.protectedSequences, Record.keptSequences]

end Sproutfs.Lineage
