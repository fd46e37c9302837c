import Sproutfs.Journal.Proofs.RingProofs

/-!
# The header slots

A slot is read back from its first 104 bytes. Which slot wins, where one holds a header that no
later counter was written over.
-/

namespace Sproutfs.JournalDisk

open List ByteCodec TornDisk Tiling

variable {sum : Checksum} {d : Disk} {i c : Fin 2} {s : Slot}

theorem decodeSlot_append {t : Bytes} (ht : t.length = slotLength) (u : Bytes) :
    decodeSlot sum (t ++ u) = decodeSlot sum t := by
  have h104 : t.length = 104 := ht
  have hslice : ∀ off k, off + k ≤ 104 → slice (t ++ u) off k = slice t off k :=
    fun off k h => slice_append_left (by omega)
  have hget : ∀ i, i < 104 → (t ++ u).getD i 0 = t.getD i 0 := by
    intro i hi
    simp only [getD_eq_getElem?_getD]
    rw [getElem?_append_left (by omega)]
  have hbytes : ∀ off, off + 16 ≤ 104 → bytes16 (t ++ u) off = bytes16 t off := by
    intro off hoff
    apply Subtype.ext
    change slice (t ++ u ++ zeros (off + 16)) off 16 = slice (t ++ zeros (off + 16)) off 16
    rw [append_assoc, slice_append_left (by omega), slice_append_left (by omega)]
  have hlen : ¬ (t ++ u).length < slotLength := by
    rw [length_append]
    omega
  unfold decodeSlot
  simp only [hlen, ht, hslice, hget, hbytes, Nat.reduceAdd, Nat.reduceLeDiff, Nat.reduceLT,
    Nat.le_refl, Nat.lt_irrefl, false_or]

theorem length_slotImage (s : Slot) : (slotImage sum s).length = slotLength := by
  rw [slotImage, length_take, length_encodeSlot]
  decide

theorem slotAt_eq (i : Fin 2) :
    slotAt sum d i = decodeSlot sum (d.read (slotOffset i) slotLength) := by
  have hsplit : d.read (slotOffset i) slotBytes = d.read (slotOffset i) slotLength ++
      d.read (slotOffset i + slotLength) (slotBytes - slotLength) :=
    d.read_add (slotOffset i) slotLength (slotBytes - slotLength)
  rw [slotAt, hsplit, decodeSlot_append (Disk.length_read _ _ _)]

theorem slotAt_of_read (hs : s.Fits) (h : d.read (slotOffset i) slotLength = slotImage sum s) :
    slotAt sum d i = .ok s := by
  have hself : encodeSlot sum s = slotImage sum s ++ (encodeSlot sum s).drop slotLength :=
    (take_append_drop _ _).symm
  rw [slotAt_eq, h, ← decodeSlot_append (length_slotImage s) ((encodeSlot sum s).drop slotLength),
    ← hself, decodeSlot_encodeSlot hs]

theorem slot_index (c : Fin 2) (i : Fin 2) : i = c ∨ i = 1 - c := by
  omega

theorem other_other (c : Fin 2) : 1 - (1 - c) = c := by
  omega

theorem other_ne (c : Fin 2) : 1 - c ≠ c := by
  omega

theorem slotOffset_le (c : Fin 2) : slotOffset c + slotBytes ≤ ringOffset := by
  unfold slotOffset ringOffset slotBytes
  omega

theorem slotOffset_disjoint {o : Nat} (h : slotOffset (1 - c) ≤ o)
    (h' : o < slotOffset (1 - c) + slotBytes) : o < slotOffset c ∨ slotOffset c + slotBytes ≤ o := by
  unfold slotOffset slotBytes at *
  omega

theorem mem_slotWrites {w : Write} (hw : w ∈ writesAt (slotOffset i) (encodeSlot sum s)) :
    slotOffset i ≤ w.1 ∧ w.1 < slotOffset i + slotBytes := by
  obtain ⟨o, b⟩ := w
  obtain ⟨k, hk, rfl, -⟩ := mem_writesAt.mp hw
  rw [length_encodeSlot] at hk
  omega

theorem read_slotWrites (d : Disk) (i : Fin 2) (s : Slot) :
    (d.write (writesAt (slotOffset i) (encodeSlot sum s))).read (slotOffset i) slotLength =
      slotImage sum s := by
  have hall := d.read_write_writesAt (slotOffset i) (@length_encodeSlot sum s)
  have hsplit : slotBytes = slotLength + (slotBytes - slotLength) := rfl
  rw [hsplit, Disk.read_add] at hall
  have htake := congrArg (List.take slotLength) hall
  rw [take_left' (Disk.length_read _ _ _)] at htake
  exact htake

/-- Which slot wins where slot `c` holds `h`: `h` itself, or a slot of a later counter in the
other. -/
theorem winner_cases {a b : Except SlotError Slot} (hr : winner a b = .ok (s, i)) :
    (i = 0 ∧ a = .ok s ∧ ∀ t, b = .ok t → t.counter ≤ s.counter) ∨
      (i = 1 ∧ b = .ok s ∧ ∀ t, a = .ok t → t.counter < s.counter) := by
  unfold winner at hr
  split at hr
  · cases hr
  · cases hr
  · split at hr
    · cases hr
      refine .inr ⟨rfl, rfl, fun t ht => ?_⟩
      cases ht
      assumption
    · cases hr
      refine .inl ⟨rfl, rfl, fun t ht => ?_⟩
      cases ht
      omega
  · cases hr
    exact .inr ⟨rfl, rfl, nofun⟩
  · cases hr
    exact .inl ⟨rfl, rfl, nofun⟩
  · cases hr

theorem readHeader_ok (hr : readHeader sum d = .ok (s, i)) :
    slotAt sum d i = .ok s ∧ ∀ k t, slotAt sum d k = .ok t → t.counter ≤ s.counter := by
  rcases winner_cases hr with ⟨rfl, hs, hle⟩ | ⟨rfl, hs, hlt⟩
  · refine ⟨hs, fun k t ht => ?_⟩
    rcases slot_index 0 k with rfl | rfl
    · have : t = s := by simpa using ht.symm.trans hs
      rw [this]
    · exact hle t ht
  · refine ⟨hs, fun k t ht => ?_⟩
    rcases slot_index 1 k with rfl | rfl
    · have : t = s := by simpa using ht.symm.trans hs
      rw [this]
    · exact Nat.le_of_lt (hlt t ht)

theorem readHeader_ne_noSlot {h : Slot} (hc : slotAt sum d c = .ok h) :
    readHeader sum d ≠ .error .noSlot := by
  intro hr
  have hnone : ∀ a b, winner a b = .error .noSlot → a = .error .noSlot ∧ b = .error .noSlot := by
    intro a b hw
    unfold winner at hw
    split at hw
    · cases hw
    · cases hw
    · split at hw <;> cases hw
    · cases hw
    · cases hw
    · exact ⟨rfl, rfl⟩
  obtain ⟨h0, h1⟩ := hnone _ _ hr
  rcases slot_index 0 c with rfl | rfl
  · rw [h0] at hc
    cases hc
  · exact absurd (hc.symm.trans h1) (by simp)

end Sproutfs.JournalDisk
