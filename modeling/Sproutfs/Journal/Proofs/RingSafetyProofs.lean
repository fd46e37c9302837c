import Sproutfs.Journal.Proofs.DurabilityProofs

/-!
# What a batch may write on the ring

The positions of an open journal stand in order, no more than a turn of the ring apart, and a batch lies
off every byte from the durable tail on. Runs in which no power is lost need nothing of the header `Open`
finds: what such a run reads is as good as durable.
-/

namespace Sproutfs.JournalDisk

open ByteCodec TornDisk Tiling

variable {sum : Checksum} {size : Nat} {w w' : World} {j : Journal} {d d' : Disk}
  {slots : List (Fin 2 × Slot)} {images : List Stored}

/-! ## Runs without a loss of power -/

def World.synced (w : World) : World := { w with disk := w.disk.sync }

@[simp] theorem slotAt_sync (d : Disk) (i : Fin 2) : slotAt sum d.sync i = slotAt sum d i := by
  rw [slotAt, Disk.read_sync, ← slotAt]

@[simp] theorem readHeader_sync (d : Disk) : readHeader sum d.sync = readHeader sum d := by
  simp only [readHeader, slotAt_sync]

@[simp] theorem openHeader_sync (config : Config) (g : UInt64) (d : Disk) :
    openHeader sum config size g d.sync = openHeader sum config size g d := by
  simp only [openHeader, readHeader_sync]

@[simp] theorem entryAt_sync (j : Journal) (d : Disk) (position : Nat) :
    j.entryAt sum d.sync position = j.entryAt sum d position := by
  simp only [Journal.entryAt, Disk.read_sync]

theorem scan_sync (j : Journal) (d : Disk) (start fuel position : Nat) (live : List Indexed) :
    j.scan sum d.sync start fuel position live = j.scan sum d start fuel position live := by
  induction fuel generalizing position live with
  | zero => rfl
  | succ fuel ih => simp only [Journal.scan, entryAt_sync, ih]

@[simp] theorem readBack_sync (j : Journal) (d : Disk) :
    j.readBack sum d.sync = j.readBack sum d := by
  simp only [Journal.readBack, scan_sync]

theorem GenuineSlots.sync (h : GenuineSlots sum d slots) : GenuineSlots sum d.sync slots := by
  intro i s hs
  rw [slotAt_sync] at hs
  exact h i s hs

theorem GenuineEntries.sync (h : GenuineEntries sum d j images) : GenuineEntries sum d.sync j images := by
  intro position hd b he
  rw [entryAt_sync] at he
  exact h position hd b he

theorem sync_sync_write (d : Disk) (ws : List Write) :
    (d.sync.write ws).sync = (d.write ws).sync := by
  have hview : (d.sync.write ws).view = (d.write ws).view := by
    rw [Disk.view_write, Disk.view_write, Disk.view_sync]
  rw [Disk.sync, hview, Disk.sync]

theorem SlotStep.sync {i : Fin 2} {s : Slot} {st st' : SlotStage} (h : SlotStep sum i s d st d' st') :
    ∃ d'', SlotStep sum i s d.sync st d'' st' ∧ d''.sync = d'.sync := by
  cases h with
  | tear ws hws => exact ⟨_, .tear ws hws, sync_sync_write d ws⟩
  | written => exact ⟨_, .written, sync_sync_write d _⟩

theorem BatchStep.sync {j' : Journal} {wr wr' : Writer} (h : BatchStep sum d j wr d' j' wr') :
    ∃ d'', BatchStep sum d.sync j wr d'' j' wr' ∧ d''.sync = d'.sync := by
  cases h with
  | take hr hn => exact ⟨_, .take hr hn, rfl⟩
  | takePad hr hq hn hw => exact ⟨_, .takePad hr hq hn hw, rfl⟩
  | tear b p ws hws => exact ⟨_, .tear b p ws hws, sync_sync_write d ws⟩
  | written b p => exact ⟨_, .written b p, sync_sync_write d _⟩
  | writeFails b p => exact ⟨_, .writeFails b p, rfl⟩
  | synced b p => exact ⟨_, .synced b p, rfl⟩
  | syncFails b p => exact ⟨_, .syncFails b p, rfl⟩

/-- A step does the same to a disk on which everything is durable, up to what is durable after
it. -/
theorem Step.synced (h : Step sum size w w') :
    ∃ w'', Step sum size w.synced w'' ∧ w''.synced = w'.synced := by
  cases h with
  | openRead config generation j hp hg hj hf =>
    exact ⟨_, .openRead (w := w.synced) config generation j hp hg.sync
      ((openHeader_sync ..).trans hj) hf, rfl⟩
  | openSlot j st st' d hp hslot =>
    obtain ⟨d', hslot', hd⟩ := hslot.sync
    exact ⟨_, .openSlot (w := w.synced) j st st' d' hp hslot', by simp [World.synced, hd]⟩
  | openSynced j hp => exact ⟨_, .openSynced (w := w.synced) j hp, rfl⟩
  | openDone j hp hg =>
    exact ⟨_, .openDone (w := w.synced) j hp hg.sync, by simp [World.synced]; rfl⟩
  | call j j' wr hp hcall => exact ⟨_, .call (w := w.synced) j j' wr hp hcall, rfl⟩
  | trim j wr vm covered hp => exact ⟨_, .trim (w := w.synced) j wr vm covered hp, rfl⟩
  | batch j j' wr wr' d hp hbatch =>
    obtain ⟨d', hbatch', hd⟩ := hbatch.sync
    exact ⟨_, .batch (w := w.synced) j j' wr wr' d' hp hbatch', by simp [World.synced, hd]⟩
  | place j batch made p hp hlen hpl hfit =>
    exact ⟨_, .place (w := w.synced) j batch made p hp hlen hpl hfit, rfl⟩
  | complete j b p ok hp => exact ⟨_, .complete (w := w.synced) j b p ok hp, rfl⟩
  | headerStart j s i hp hr hmoved hlease hs hf =>
    exact ⟨_, .headerStart (w := w.synced) j s i hp hr hmoved ((readHeader_sync _).trans hlease)
      hs hf, rfl⟩
  | headerSlot j s st st' closing d hp hslot =>
    obtain ⟨d', hslot', hd⟩ := hslot.sync
    exact ⟨_, .headerSlot (w := w.synced) j s st st' closing d' hp hslot',
      by simp [World.synced, hd]⟩
  | headerSynced j s closing hp =>
    exact ⟨_, .headerSynced (w := w.synced) j s closing hp, rfl⟩
  | headerFails j s st closing hp =>
    exact ⟨_, .headerFails (w := w.synced) j s st closing hp, rfl⟩
  | stop j hp hr => exact ⟨_, .stop (w := w.synced) j hp hr, rfl⟩
  | closeStart j s i hp hclosed hfailed hlease hs hf =>
    exact ⟨_, .closeStart (w := w.synced) j s i hp hclosed hfailed
      ((readHeader_sync _).trans hlease) hs hf, rfl⟩
  | ends => exact ⟨_, .ends (w := w.synced), rfl⟩

theorem WriterInv.sync {wr : Writer} (h : WriterInv sum d slots images j wr) :
    WriterInv sum d.sync slots images j wr := by
  cases wr with
  | completing b p ok =>
    exact ⟨h.1, fun hok => ⟨.inr rfl, fun s hs => ((h.2 hok).2 s hs).sync⟩⟩
  | _ => exact h

theorem Inv.synced (hw : Inv sum w) : Inv sum w.synced := by
  obtain ⟨d, proc, slots, images, answered, owed⟩ := w
  rcases hw with hw | ⟨h, c, l, b, ha, hinv⟩
  · exact .inl { hw with pending := nofun }
  · refine .inr ⟨h, c, l, b, ha.sync, ?_⟩
    cases proc with
    | closed => trivial
    | opening j stage => exact hinv
    | readingBack j => exact ⟨hinv.1, rfl⟩
    | running j wr =>
      obtain ⟨hj, hi, hsp, hnext, hwr⟩ := hinv
      exact ⟨hj, hi, hsp, hnext, hwr.sync⟩

theorem Step.inv_synced (hs : Step sum size w w') (hw : Inv sum w.synced) : Inv sum w'.synced := by
  obtain ⟨w'', hs', heq⟩ := hs.synced
  have hsteady : SteadyStep sum size w.synced w'' :=
    ⟨.step w'' hs', fun _ _ _ _ _ _ _ x hx => by cases hx⟩
  rw [← heq]
  exact (inv_step hw hsteady).synced

/-- In a run without a loss of power the invariant holds as if everything were durable. -/
theorem CalmReaches.inv (hw : CalmReaches sum size w) : Inv sum w.synced := by
  obtain ⟨d, hrun⟩ := hw
  induction hrun with
  | refl =>
    have hblank : Inv sum (.blank d) := .inl (fresh_blank d)
    exact hblank.synced
  | tail _ hs ih => exact hs.inv_synced ih

/-! ## The ring -/

/-- The positions of a journal stand in order, within a turn of the ring from the durable tail, and
the entries it holds lie between the durable tail and the end of what is written. -/
structure Journal.InOrder (j : Journal) : Prop where
  header_le : j.header.tail ≤ j.tail
  tail_le : j.tail ≤ j.written
  written_le : j.written ≤ j.next
  next_le : j.next ≤ j.header.tail + j.ringLength
  entries : ∀ e ∈ j.live, j.header.tail ≤ e.position ∧ e.position + e.length ≤ j.written

theorem Indexed.mem_undead {l : List Stored} {live : List Indexed}
    (h : live.map Indexed.undead = l.filterMap Stored.index) {e : Indexed} (he : e ∈ live) :
    ∃ s ∈ l, s.position = e.position ∧ s.size = e.length := by
  have hmem : e.undead ∈ l.filterMap Stored.index := h ▸ List.mem_map_of_mem he
  obtain ⟨s, hs, hindex⟩ := List.mem_filterMap.mp hmem
  obtain ⟨position, generation, item⟩ := s
  cases item with
  | pad n => cases hindex
  | blocks x =>
    have heq := Option.some.inj hindex
    exact ⟨_, hs, congrArg Indexed.position heq, congrArg Indexed.length heq⟩

theorem inOrder_of_inv (hw : Inv sum w) {wr : Writer} (hp : w.proc = .running j wr) :
    j.InOrder ∧ slotAt sum w.disk j.current = .ok j.header := by
  obtain ⟨h, c, l, b, ha, hj, hi, hsp, hnext, -⟩ := hw.running hp
  obtain ⟨l₁, l₂, rfl, h₁, h₂, hlive⟩ := hi.tail
  have hle₁ := h₁.le Stored.position_le_stop
  have hle₂ := h₂.le Stored.position_le_stop
  have hread := ha.header.read_eq
  rw [length_slotImage] at hread
  refine ⟨⟨?_, ?_, ?_, ?_, fun e he => ?_⟩, ?_⟩
  · rw [hj.header]
    exact hle₁
  · rw [hi.written]
    exact hle₂
  · rcases hsp.range with hr | hr <;> omega
  · rw [hj.header, hj.ringLength]
    exact hnext
  · obtain ⟨s, hs, hpos, hlen⟩ := Indexed.mem_undead hlive he
    have hbounds := h₂.mem_bounds Stored.position_le_stop hs
    have hstop : s.stop = s.position + s.size := rfl
    rw [hj.header, hi.written]
    omega
  · rw [hj.current, hj.header]
    exact slotAt_of_read ha.headerFits hread

theorem placed_of_inv (hw : Inv sum w) {batch : List Commit} (hp : w.proc = .running j (.capturing batch))
    (made : List (Option (List Entry))) :
    RingLength j.ringLength ∧
      Placed j (batchRoom batch) (batchLargest batch) (batch.zipWith capture made)
        (j.place (batch.zipWith capture made)) ∧
      ((j.place (batch.zipWith capture made)).image ≠ [] →
        (j.place (batch.zipWith capture made)).stop ≤ j.header.tail + j.ringLength) := by
  obtain ⟨horder, -⟩ := inOrder_of_inv hw hp
  obtain ⟨h, c, l, b, -, -, -, hsp, -, hwr⟩ := hw.running hp
  have htail := (horder.header_le.trans horder.tail_le).trans horder.written_le
  exact ⟨hsp.length, placed_of_capturing hsp htail hwr horder.next_le⟩

end Sproutfs.JournalDisk
