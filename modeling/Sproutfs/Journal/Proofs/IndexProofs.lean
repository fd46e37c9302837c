import Mathlib.Data.List.TakeWhile
import Sproutfs.Journal.Proofs.AnchorProofs

/-!
# The index and the tail

The index from the tail on is that of the records on the ring from there on. The tail moves on over
dead entries only, and it is always a place where a record begins, or the end of what is written.
-/

namespace Sproutfs.JournalDisk

open List ByteCodec TornDisk Tiling

variable {j : Journal} {g : UInt64}

@[simp] theorem withLiveTail_live : j.withLiveTail.live = j.live.dropWhile (·.dead) := rfl

theorem mem_withLiveTail {e : Indexed} (he : e ∈ j.live) (hd : e.dead = false) :
    e ∈ j.withLiveTail.live := by
  rw [← takeWhile_append_dropWhile (p := fun e : Indexed => e.dead) (l := j.live)] at he
  rcases mem_append.mp he with he | he
  · have := mem_takeWhile_imp he
    rw [hd] at this
    cases this
  · exact he

/-- Dropping the dead entries at the front moves the tail on to where a record begins. -/
theorem withLiveTail_spec {l : List Stored} {t : Nat}
    (hl : Tiles Stored.position Stored.stop l t j.written)
    (hlive : j.live.map Indexed.undead = l.filterMap Stored.index) :
    ∃ l₁ l₂, l = l₁ ++ l₂ ∧ Tiles Stored.position Stored.stop l₁ t j.withLiveTail.tail ∧
      Tiles Stored.position Stored.stop l₂ j.withLiveTail.tail j.written ∧
      j.withLiveTail.live.map Indexed.undead = l₂.filterMap Stored.index := by
  cases hdrop : j.live.dropWhile (·.dead) with
  | nil =>
    have htail : j.withLiveTail.tail = j.written := by simp [Journal.withLiveTail, hdrop]
    refine ⟨l, [], by simp, by rw [htail]; exact hl, htail, ?_⟩
    rw [withLiveTail_live, hdrop]
    rfl
  | cons e live =>
    have htail : j.withLiveTail.tail = e.position := by simp [Journal.withLiveTail, hdrop]
    -- The record of the first live entry.
    have hsplit : l.filterMap Stored.index =
        (j.live.takeWhile (·.dead)).map Indexed.undead ++
          (e.undead :: live.map Indexed.undead) := by
      rw [← hlive, ← map_cons, ← hdrop, ← map_append, takeWhile_append_dropWhile]
    obtain ⟨k₁, k₂, rfl, -, hk₂⟩ := filterMap_eq_append_iff.mp hsplit
    obtain ⟨m₁, s, m₂, rfl, hnone, hs, hm₂⟩ := filterMap_eq_cons_iff.mp hk₂
    have hposition : s.position = e.position := by
      obtain ⟨position, generation, item⟩ := s
      cases item with
      | pad n => cases hs
      | blocks x =>
        have := congrArg (Option.map Indexed.position) hs
        simpa [Stored.index, Indexed.undead] using this
    rw [← append_assoc] at hl
    obtain ⟨t', h₁, h₂⟩ := tiles_append.mp hl
    have ht' : j.withLiveTail.tail = t' := by
      rw [htail, ← hposition]
      exact h₂.1
    refine ⟨k₁ ++ m₁, s :: m₂, by simp, by rw [ht']; exact h₁, by rw [ht']; exact h₂, ?_⟩
    rw [withLiveTail_live, hdrop, map_cons, filterMap_cons, hs, hm₂]

theorem trimmed_undead (vm : Bytes) (covered : UInt64 → Option Nat) (e : Indexed) :
    (Journal.trimmed vm covered e).undead = e.undead := by
  unfold Journal.trimmed
  split <;> rfl

theorem trimmed_index {vm : Bytes} {covered : UInt64 → Option Nat} {a : Answer}
    (h : a.covered vm covered = false) : Journal.trimmed vm covered a.index = a.index := by
  unfold Journal.trimmed
  rw [if_neg]
  intro hc
  have : a.covered vm covered = true := by simpa [Answer.covered, Answer.index] using hc
  rw [h] at this
  cases this

theorem map_undead_filterMap (l : List Stored) :
    (l.filterMap Stored.index).map Indexed.undead = l.filterMap Stored.index := by
  rw [map_filterMap]
  congr 1
  funext s
  obtain ⟨position, generation, item⟩ := s
  cases item <;> rfl

theorem index_mem {a : Answer} {l : List Stored} (h : a.record g ∈ l) :
    a.index ∈ l.filterMap Stored.index :=
  mem_filterMap.mpr ⟨_, h, rfl⟩

namespace Journal.Indexes

variable {l : List Stored} {a b : Nat} {owed : List Answer}

theorem trim (h : j.Indexes l a b owed) (vm : Bytes) (covered : UInt64 → Option Nat) :
    (j.trim vm covered).Indexes l a b (owed.filter fun x => !x.covered vm covered) ∧
      j.tail ≤ (j.trim vm covered).tail := by
  obtain ⟨l₁, l₂, rfl, h₁, h₂, hlive⟩ := h.tail
  have hlive' : (j.live.map (Journal.trimmed vm covered)).map Indexed.undead =
      l₂.filterMap Stored.index := by
    rw [map_map, ← hlive]
    exact map_congr_left fun e _ => trimmed_undead vm covered e
  obtain ⟨k, m, rfl, hk, hm, heq⟩ := withLiveTail_spec
    (j := { j with live := j.live.map (Journal.trimmed vm covered) }) (h.written ▸ h₂) hlive'
  refine ⟨⟨h.written, ⟨l₁ ++ k, m, by simp, tiles_append.mpr ⟨_, h₁, hk⟩, ?_, heq⟩, ?_⟩,
    hk.le Stored.position_le_stop⟩
  · rw [← h.written]
    exact hm
  · intro x hx
    obtain ⟨hx, hcov⟩ := mem_filter.mp hx
    have hin : x.index ∈ j.live.map (Journal.trimmed vm covered) :=
      mem_map.mpr ⟨_, h.owed x hx, trimmed_index (by simpa using hcov)⟩
    exact mem_withLiveTail
      (j := { j with live := j.live.map (Journal.trimmed vm covered) }) hin rfl

theorem complete (h : j.Indexes l a b owed) {p : Placement} {more : List Answer}
    (hentries : p.entries = p.image.filterMap Stored.index)
    (hring : p.image ≠ [] → Tiles Stored.position Stored.stop p.image b p.stop)
    (hmore : ∀ x ∈ more, x.record g ∈ p.image) :
    (j.complete p true).Indexes (l ++ p.image) a (if p.image = [] then b else p.stop)
      (owed ++ more) := by
  obtain ⟨l₁, l₂, rfl, h₁, h₂, hlive⟩ := h.tail
  have htiles : Tiles Stored.position Stored.stop (l₂ ++ p.image) j.tail
      (if p.image = [] then b else p.stop) := by
    refine tiles_append.mpr ⟨b, h₂, ?_⟩
    split
    · next hnil => rw [hnil]; rfl
    · next hne => exact hring hne
  have hlive' : (j.live ++ p.entries).map Indexed.undead = (l₂ ++ p.image).filterMap Stored.index := by
    rw [map_append, hlive, hentries, map_undead_filterMap, filterMap_append]
  have hwritten : (if p.image = [] then j.written else p.stop) =
      if p.image = [] then b else p.stop := by rw [h.written]
  obtain ⟨k, m, hkm, hk, hm, heq⟩ := withLiveTail_spec
    (j := { j with completed := j.completed + 1
                   written := if p.image = [] then j.written else p.stop
                   live := j.live ++ p.entries }) (by rw [hwritten]; exact htiles) hlive'
  refine ⟨hwritten, ⟨l₁ ++ k, m, ?_, tiles_append.mpr ⟨_, h₁, hk⟩, ?_, heq⟩, ?_⟩
  · rw [append_assoc, hkm, append_assoc]
  · rw [← hwritten]
    exact hm
  · intro x hx
    have hin : x.index ∈ j.live ++ p.entries := by
      rcases mem_append.mp hx with hx | hx
      · exact mem_append_left _ (h.owed x hx)
      · rw [hentries]
        exact mem_append_right _ (index_mem (hmore x hx))
    exact mem_withLiveTail
      (j := { j with completed := j.completed + 1
                     written := if p.image = [] then j.written else p.stop
                     live := j.live ++ p.entries }) hin rfl

theorem drop {l₁ l₂ : List Stored} {t : Nat} (h : j.Indexes (l₁ ++ l₂) a b owed)
    (hpos : ∀ s ∈ l₁, s.position < s.stop) (h₁ : Tiles Stored.position Stored.stop l₁ a t)
    (h₂ : Tiles Stored.position Stored.stop l₂ t b) (hle : t ≤ j.tail) :
    j.Indexes l₂ t b owed := by
  obtain ⟨m₁, m₂, heq, g₁, g₂, hlive⟩ := h.tail
  obtain ⟨k, rfl, hk⟩ := Tiles.cut Stored.position_le_stop hpos h₁ h₂ g₁ heq hle
  exact ⟨h.written, ⟨k, m₂, rfl, hk, g₂, hlive⟩, h.owed⟩

theorem cut {n : Nat} (h : j.Indexes l a b owed) (hring : OnRing n g l a b)
    (howed : ∀ x ∈ owed, x.record g ∈ l) : Cut g l a j.tail b owed := by
  obtain ⟨l₁, l₂, rfl, h₁, h₂, hlive⟩ := h.tail
  refine ⟨l₁, l₂, rfl, h₁, h₂, fun x hx => ?_⟩
  rcases mem_append.mp (howed x hx) with hin | hin
  · -- A live entry is indexed from the tail on, and its record ends after it begins.
    have hlive' : x.index.undead ∈ l₂.filterMap Stored.index := by
      rw [← hlive]
      exact mem_map_of_mem (h.owed x hx)
    obtain ⟨s, hs, hsx⟩ := mem_filterMap.mp hlive'
    have hposition : s.position = x.position := by
      obtain ⟨position, generation, item⟩ := s
      cases item with
      | pad n => cases hsx
      | blocks e =>
        have := congrArg (Option.map Indexed.position) hsx
        simpa [Stored.index, Indexed.undead, Answer.index] using this
    have hafter := (h₂.mem_bounds Stored.position_le_stop hs).1
    have hbefore := (h₁.mem_bounds Stored.position_le_stop hin).2
    have hsize := (hring.each _ (mem_append_left _ hin)).wellFormed.size_ge
    have hstop : (x.record g).stop = x.position + (x.record g).item.size := rfl
    rw [minEntryBytes_eq] at hsize
    omega
  · exact hin

end Journal.Indexes

end Sproutfs.JournalDisk
