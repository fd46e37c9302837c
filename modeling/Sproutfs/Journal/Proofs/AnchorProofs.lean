import Sproutfs.Journal.Proofs.HeaderProofs

/-!
# The durable header and the records behind it

What each kind of write, a sync and a loss of power keep of `Anchored`, and how its header and its
records move on.
-/

namespace Sproutfs.JournalDisk

open List ByteCodec TornDisk Tiling

variable {sum : Checksum} {d : Disk} {slots : List (Fin 2 × Slot)} {images : List Stored}
  {owed : List Answer} {h : Slot} {c : Fin 2} {l : List Stored} {b : Nat} {a t e : Nat} {m : List Stored}
  {s : Slot}

/-! ## Cuts -/

theorem Cut.subset {g : UInt64} {owed' : List Answer} (hc : Cut g l a t b owed)
    (hsub : ∀ x ∈ owed', x ∈ owed) : Cut g l a t b owed' := by
  obtain ⟨l₁, l₂, heq, h₁, h₂, hin⟩ := hc
  exact ⟨l₁, l₂, heq, h₁, h₂, fun x hx => hin x (hsub x hx)⟩

theorem Cut.append {g : UInt64} {more : List Answer} (hc : Cut g l a t b owed)
    (hm : Tiles Stored.position Stored.stop m b e) (hmore : ∀ x ∈ more, x.record g ∈ m) :
    Cut g (l ++ m) a t e (owed ++ more) := by
  obtain ⟨l₁, l₂, rfl, h₁, h₂, hin⟩ := hc
  refine ⟨l₁, l₂ ++ m, append_assoc .., h₁, tiles_append.mpr ⟨b, h₂, hm⟩, fun x hx => ?_⟩
  rcases mem_append.mp hx with hx | hx
  · exact mem_append_left _ (hin x hx)
  · exact mem_append_right _ (hmore x hx)

theorem Cut.le {g : UInt64} (hc : Cut g l a t b owed) : a ≤ t ∧ t ≤ b := by
  obtain ⟨l₁, l₂, -, h₁, h₂, -⟩ := hc
  exact ⟨h₁.le Stored.position_le_stop, h₂.le Stored.position_le_stop⟩

/-! ## Writes -/

namespace Anchored

section

variable (ha : Anchored sum d slots images owed h c l b)

include ha

theorem write_slot {ws : List Write}
    (hws : ∀ w ∈ ws, slotOffset (1 - c) ≤ w.1 ∧ w.1 < slotOffset (1 - c) + slotBytes) :
    Anchored sum (d.write ws) slots images owed h c l b := by
  have hbefore : ∀ w ∈ ws, w.1 < ringOffset := by
    intro w hw
    have := hws w hw
    have := slotOffset_le (1 - c)
    omega
  refine { ha with header := ?_, records := ?_, pending := ?_ }
  · refine ha.header.write fun w hw => ?_
    have hlen := @length_slotImage sum h
    have hle : slotLength ≤ slotBytes := by decide
    have := slotOffset_disjoint (hws w hw).1 (hws w hw).2
    omega
  · intro s hs
    refine (ha.records s hs).write fun w hw => .inl ?_
    have := hbefore w hw
    unfold Stored.place
    omega
  · intro w hw
    rcases mem_append.mp hw with hw | hw
    · exact ha.pending w hw
    · exact .inl (hbefore w hw)

/-- Positions after the records and before the durable tail a turn later lie off every record. -/
theorem place_disjoint {q : Nat} (hq : b ≤ q) (hturn : q < h.tail + h.ringLength) {s : Stored}
    (hs : s ∈ l) :
    ringOffset + q % h.ringLength < s.place h.ringLength ∨
      s.place h.ringLength + (s.bytes sum).length ≤ ringOffset + q % h.ringLength := by
  have honring := ha.ring.each s hs
  have hbounds := ha.ring.tiles.mem_bounds Stored.position_le_stop hs
  rw [Stored.length_bytes sum honring.wellFormed]
  exact honring.place_disjoint hbounds.1 (by omega) hturn

theorem write_ring {ws : List Write}
    (hws : ∀ w ∈ ws, ∃ q, b ≤ q ∧ q < h.tail + h.ringLength ∧ w.1 = ringOffset + q % h.ringLength) :
    Anchored sum (d.write ws) slots images owed h c l b := by
  refine { ha with header := ?_, records := ?_, pending := ?_ }
  · refine ha.header.write fun w hw => .inr ?_
    obtain ⟨q, -, -, ho⟩ := hws w hw
    have hlen := @length_slotImage sum h
    have hle : slotLength ≤ slotBytes := by decide
    have := slotOffset_le c
    omega
  · intro s hs
    refine (ha.records s hs).write fun w hw => ?_
    obtain ⟨q, hq, hturn, ho⟩ := hws w hw
    rw [ho]
    exact ha.place_disjoint hq hturn hs
  · intro w hw
    rcases mem_append.mp hw with hw | hw
    · exact ha.pending w hw
    · exact .inr (hws w hw)

theorem sync : Anchored sum d.sync slots images owed h c l b :=
  { ha with header := ha.header.sync
            records := fun s hs => (ha.records s hs).sync
            pending := fun w hw => by cases hw }

theorem crash {d' : Disk} (hc : d.Crash d') : Anchored sum d' slots images owed h c l b :=
  { ha with header := ha.header.crash hc
            records := fun s hs => (ha.records s hs).crash hc
            pending := fun w hw => by rw [hc.1] at hw; cases hw }

/-! ## History -/

theorem owed_subset {owed' : List Answer} (hsub : ∀ x ∈ owed', x ∈ owed) :
    Anchored sum d slots images owed' h c l b :=
  { ha with owed := fun x hx => ha.owed x (hsub x hx)
            other := fun s hs => (ha.other s hs).imp_right fun hf => ⟨hf.1, hf.2.subset hsub⟩ }

/-- A slot is about to be written into the other: it comes after the header and keeps what is
owed. -/
theorem add_slot (hf : s.Fits) (hs : h.Follows s) (hcut : Cut h.generation l h.tail s.tail b owed) :
    Anchored sum d (slots ++ [(1 - c, s)]) images owed h c l b := by
  refine { ha with fits := ?_, current := ?_, other := ?_ }
  · intro i t ht
    rcases mem_append.mp ht with ht | ht
    · exact ha.fits i t ht
    · rw [mem_singleton, Prod.mk.injEq] at ht
      rw [ht.2]
      exact hf
  · intro t ht
    rcases mem_append.mp ht with ht | ht
    · exact ha.current t ht
    · rw [mem_singleton, Prod.mk.injEq] at ht
      exact absurd ht.1.symm (other_ne c)
  · intro t ht
    rcases mem_append.mp ht with ht | ht
    · exact ha.other t ht
    · rw [mem_singleton, Prod.mk.injEq] at ht
      rw [ht.2]
      exact .inr ⟨hs, hcut⟩

theorem add_images
    (hm : ∀ s ∈ m, s.generation = h.generation ∧ s.OnRing h.ringLength ∧ s.stop ≤ h.tail + h.ringLength ∧ s.stop < 2 ^ 64) :
    Anchored sum d slots (images ++ m) owed h c l b := by
  refine { ha with images := fun s hs => ?_ }
  rcases mem_append.mp hs with hs | hs
  · exact ha.images s hs
  · exact hm s hs

end

theorem extend (more : List Answer) (ha : Anchored sum d slots images owed h c l b)
    (hm : OnRing h.ringLength h.generation m b e) (hbegins : CanBegin h.ringLength e)
    (hstable : ∀ s ∈ m, d.Stable (s.place h.ringLength) (s.bytes sum)) (hturn : e ≤ h.tail + h.ringLength)
    (hbound : e < 2 ^ 64) (hpending : d.pending = [] ∨ m = [])
    (hmore : ∀ x ∈ more, x.record h.generation ∈ m) :
    Anchored sum d slots images (owed ++ more) h c (l ++ m) e := by
  refine { ha with
    ring := ha.ring.append hm, begins := hbegins, turn := hturn, bound := hbound
    other := fun s hs => (ha.other s hs).imp_right fun hf => ⟨hf.1, hf.2.append hm.tiles hmore⟩
    records := fun s hs => ?_, pending := fun w hw => ?_, owed := fun x hx => ?_ }
  · rcases mem_append.mp hs with hs | hs
    · exact ha.records s hs
    · exact hstable s hs
  · rcases hpending with hp | rfl
    · rw [hp] at hw
      cases hw
    · obtain rfl : b = e := hm.tiles
      exact ha.pending w hw
  · rcases mem_append.mp hx with hx | hx
    · exact mem_append_left _ (ha.owed x hx)
    · exact mem_append_right _ (hmore x hx)

section

variable (ha : Anchored sum d slots images owed h c l b)

include ha

theorem promote (hmem : (1 - c, s) ∈ slots) (hs : h.Follows s)
    (hstable : d.Stable (slotOffset (1 - c)) (slotImage sum s)) :
    ∃ l₁ l₂, l = l₁ ++ l₂ ∧ Tiles Stored.position Stored.stop l₁ h.tail s.tail ∧
      Anchored sum d slots images owed s (1 - c) l₂ b := by
  have hcounter := hs.counter
  have hcut : Cut h.generation l h.tail s.tail b owed := by
    rcases ha.other s hmem with hlt | hf
    · omega
    · exact hf.2
  have hle := hcut.le
  obtain ⟨l₁, l₂, rfl, h₁, h₂, hin⟩ := hcut
  refine ⟨l₁, l₂, rfl, h₁, ?_⟩
  constructor
  · rw [hs.ringStart, ha.start]
  · rw [hs.ringLength]
    exact ha.length
  · exact hstable
  · exact ha.fits
  · exact ha.fits _ s hmem
  · intro t ht
    rcases ha.other t ht with hlt | hf
    · omega
    · have := hf.1.counter
      omega
  · intro t ht
    rw [other_other] at ht
    have := ha.current t ht
    exact .inl (by omega)
  · rw [hs.ringLength, hs.generation]
    exact ⟨h₂, fun t ht => ha.ring.each t (mem_append_right _ ht),
      fun t ht => ha.ring.generation t (mem_append_right _ ht)⟩
  · rw [hs.ringLength]
    exact ha.begins
  · intro t ht
    rw [hs.ringLength]
    exact ha.records t (mem_append_right _ ht)
  · have := ha.turn
    rw [hs.ringLength]
    omega
  · exact ha.bound
  · intro t ht
    obtain ⟨hg, hr, hstop, hb⟩ := ha.images t ht
    rw [hs.generation, hs.ringLength]
    exact ⟨hg, hr, by omega, hb⟩
  · intro w hw
    rw [hs.ringLength]
    rcases ha.pending w hw with hp | ⟨q, hq, hturn, ho⟩
    · exact .inl hp
    · exact .inr ⟨q, hq, by omega, ho⟩
  · rw [hs.generation]
    exact hin

/-- What `Open` finds on such a disk: the durable header, or the one that comes after it. -/
theorem readHeader_eq (hg : GenuineSlots sum d slots) {i : Fin 2} (hr : readHeader sum d = .ok (s, i)) :
    (s = h ∧ i = c) ∨ (i = 1 - c ∧ (1 - c, s) ∈ slots ∧ h.Follows s ∧
      d.read (slotOffset (1 - c)) slotLength = slotImage sum s) := by
  have hread : d.read (slotOffset c) slotLength = slotImage sum h := by
    have := ha.header.read_eq
    rwa [length_slotImage] at this
  have hc := slotAt_of_read ha.headerFits hread
  obtain ⟨hs, hmax⟩ := readHeader_ok hr
  rcases slot_index c i with rfl | rfl
  · have : s = h := by simpa using hs.symm.trans hc
    exact .inl ⟨this, rfl⟩
  · obtain ⟨t, ht, hread'⟩ := hg _ _ hs
    have hst := slotAt_of_read (ha.fits _ t ht) hread'
    obtain rfl : t = s := by simpa using hst.symm.trans hs
    have hle := hmax c h hc
    rcases ha.other t ht with hlt | hf
    · omega
    · exact .inr ⟨rfl, ht, hf.1, hread'⟩

theorem readHeader_ne : readHeader sum d ≠ .error .noSlot := by
  have hread : d.read (slotOffset c) slotLength = slotImage sum h := by
    have := ha.header.read_eq
    rwa [length_slotImage] at this
  exact readHeader_ne_noSlot (slotAt_of_read ha.headerFits hread)

end

end Anchored

end Sproutfs.JournalDisk
