import Sproutfs.Journal.Proofs.IndexProofs

/-!
# The invariant of a run, step by step

Each step of the world keeps `Inv`, provided an `Open` that finds a header finds a durable one.
-/

namespace Sproutfs.JournalDisk

open List ByteCodec TornDisk Tiling

variable {sum : Checksum} {size : Nat} {w w' : World} {h : Slot} {c : Fin 2} {l : List Stored}
  {b : Nat} {j : Journal} {slots : List (Fin 2 × Slot)} {generation g : UInt64} {st st' : SlotStage}
  {p : Placement} {s : Slot} {wr : Writer} {d : Disk} {j' : Journal} {images : List Stored}
  {batch : List Commit} {config : Config} {closing : Bool} {bt : Batch}

/-- The durable header is the one it was, or the one that came right after it, written before; and
what is durable on the ring has only grown. -/
structure Onward (slots : List (Fin 2 × Slot)) (h : Slot) (c : Fin 2) (b : Nat) (h' : Slot)
    (c' : Fin 2) (b' : Nat) : Prop where
  header : (h' = h ∧ c' = c) ∨ (h.Follows h' ∧ c' = 1 - c ∧ (c', h') ∈ slots)
  stop : b ≤ b'

theorem Onward.same : Onward slots h c b h c b :=
  ⟨.inl ⟨rfl, rfl⟩, Nat.le_refl _⟩

theorem Onward.grown {e : Nat} (hle : b ≤ e) : Onward slots h c b h c e :=
  ⟨.inl ⟨rfl, rfl⟩, hle⟩

theorem Onward.next (hs : h.Follows s) (hmem : (1 - c, s) ∈ slots) : Onward slots h c b s (1 - c) b :=
  ⟨.inr ⟨hs, rfl, hmem⟩, Nat.le_refl _⟩

/-- A world reached by one step from one whose durable header was `h`, in slot `c`, with durable
records up to `b`. -/
def InvFrom (sum : Checksum) (slots : List (Fin 2 × Slot)) (h : Slot) (c : Fin 2) (b : Nat)
    (w : World) : Prop :=
  ∃ h' c' l' b', Onward slots h c b h' c' b' ∧
    Anchored sum w.disk w.slots w.images w.owed h' c' l' b' ∧ ProcInv sum w h' c' l' b'

theorem InvFrom.inv (hw : InvFrom sum slots h c b w) : Inv sum w := by
  obtain ⟨h', c', l', b', -, ha, hp⟩ := hw
  exact .inr ⟨h', c', l', b', ha, hp⟩

theorem ProcInv.of_proc {proc : Proc} (hinv : ProcInv sum w h c l b) (hp : w.proc = proc) :
    ProcInv sum { w with proc := proc } h c l b := by
  subst hp
  exact hinv

theorem Fresh.not_running (hw : Fresh sum w) : w.proc ≠ .running j wr := by
  rcases hw.proc with hc | ⟨j', st, ho, -⟩
  · rw [hc]
    exact nofun
  · rw [ho]
    exact nofun

theorem Fresh.opening (hw : Fresh sum w) (hp : w.proc = .opening j st) :
    j.Holds j.header 1 ∧ (0, j.leaseSlot) ∈ w.slots ∧
      (st = .sync → w.disk.read (slotOffset 0) slotLength = slotImage sum j.leaseSlot) := by
  rcases hw.proc with hc | ⟨j', st', ho, hj⟩
  · cases hc.symm.trans hp
  · cases ho.symm.trans hp
    exact hj

/-- A journal is open only over a durable header. -/
theorem Inv.running (hw : Inv sum w) (hp : w.proc = .running j wr) :
    ∃ h c l b, Anchored sum w.disk w.slots w.images w.owed h c l b ∧ j.Holds h c ∧
      j.Indexes l h.tail b w.owed ∧ j.Spaced ∧ j.next ≤ h.tail + h.ringLength ∧
      WriterInv sum w.disk w.slots w.images j wr := by
  rcases hw with hw | ⟨h, c, l, b, ha, hinv⟩
  · exact absurd hp hw.not_running
  · exact ⟨h, c, l, b, ha, hinv.of_proc hp⟩

/-! ## Opening -/

theorem openHeader_ok (hj : openHeader sum config size generation d = .ok j) :
    (readHeader sum d = .error .noSlot ∧ ringOffset + minRingSize ≤ size ∧
      j = found config (formatSlot config size generation) 1 true) ∨
    ∃ s i, readHeader sum d = .ok (s, i) ∧ s.ringFits size ∧ j = found config s i false := by
  unfold openHeader at hj
  split at hj
  · cases hj
  · next hsize =>
    split at hj
    · next hr =>
      cases hj
      exact .inl ⟨hr, by omega, rfl⟩
    · cases hj
    · next s i hr =>
      split at hj
      · cases hj
      · split at hj
        · cases hj
        · next hfits =>
          split at hj <;> cases hj
          exact .inr ⟨s, i, hr, by simpa using hfits, rfl⟩

theorem found_holds (config : Config) (s : Slot) (i : Fin 2) (formatted : Bool) :
    (found config s i formatted).Holds s i :=
  ⟨rfl, rfl, rfl, rfl, rfl⟩

theorem Journal.Holds.other (hj : j.Holds h c) : j.other = 1 - c := by
  rw [Journal.other, hj.current]

theorem Journal.Holds.leaseSlot (hj : j.Holds h c) :
    h.Follows j.leaseSlot ∧ j.leaseSlot.tail = h.tail := by
  rw [← hj.header]
  exact ⟨⟨rfl, rfl, rfl, rfl, rfl⟩, rfl⟩

theorem Journal.Holds.tailSlot (hj : j.Holds h c) (empty : Bool) :
    h.Follows (j.tailSlot empty) ∧ (j.tailSlot empty).tail = j.tail := by
  rw [← hj.header]
  exact ⟨⟨rfl, rfl, rfl, rfl, rfl⟩, rfl⟩

theorem Journal.Holds.tookSlot (hj : j.Holds h c) (hs : h.Follows s) : (j.tookSlot s).Holds s (1 - c) :=
  ⟨rfl, hj.other, by rw [hs.generation]; exact hj.generation,
    by rw [hs.ringStart]; exact hj.ringStart, by rw [hs.ringLength]; exact hj.ringLength⟩

/-- `Open` has found the durable header and goes on to take the lease. -/
theorem inv_opening (ha : Anchored sum w.disk w.slots w.images w.owed h c l b) (hj : j.Holds h c)
    (hf : j.leaseSlot.Fits) :
    Anchored sum w.disk (w.slots ++ [(j.other, j.leaseSlot)]) w.images w.owed h c l b ∧
      ProcInv sum { w with proc := .opening j .write
                           slots := w.slots ++ [(j.other, j.leaseSlot)] } h c l b := by
  obtain ⟨hfollows, htail⟩ := hj.leaseSlot
  have hcut : Cut h.generation l h.tail j.leaseSlot.tail b w.owed := by
    rw [htail]
    exact ⟨[], l, rfl, rfl, ha.ring.tiles, ha.owed⟩
  refine ⟨?_, hj, mem_append_right _ mem_cons_self, nofun⟩
  rw [hj.other]
  exact ha.add_slot hf hfollows hcut

/-- `Open` on a disk with a durable header: it finds that one, or one that came after it and is
durable too. -/
theorem inv_openRead (ha : Anchored sum w.disk w.slots w.images w.owed h c l b)
    (hg : GenuineSlots sum w.disk w.slots) (hj : openHeader sum config size generation w.disk = .ok j)
    (hf : j.leaseSlot.Fits) (hdurable : DurableHeader sum w.disk) :
    InvFrom sum w.slots h c b
      { w with proc := .opening j .write, slots := w.slots ++ [(j.other, j.leaseSlot)] } := by
  rcases openHeader_ok hj with ⟨hr, -, -⟩ | ⟨s, i, hr, -, rfl⟩
  · exact absurd hr ha.readHeader_ne
  · rcases ha.readHeader_eq hg hr with ⟨rfl, rfl⟩ | ⟨rfl, hmem, hfollows, hread⟩
    · exact ⟨_, _, _, _, .same, inv_opening ha (found_holds ..) hf⟩
    · have hquiet := hdurable _ _ hr
      have hstable : w.disk.Stable (slotOffset (1 - c)) (slotImage sum s) :=
        Disk.stable_of_quiet (by rw [length_slotImage]; exact hquiet)
          (by rw [length_slotImage]; exact hread)
      obtain ⟨l₁, l₂, -, -, ha'⟩ := ha.promote hmem hfollows hstable
      exact ⟨_, _, _, _, .next hfollows hmem, inv_opening ha' (found_holds ..) hf⟩

/-- The write of a slot stays in the slot, and once it is made in whole it is read back. -/
theorem slotStep_spec {i : Fin 2} {d' : Disk} (hs : SlotStep sum i s d st d' st') :
    ∃ ws, d' = d.write ws ∧
      (∀ x ∈ ws, slotOffset i ≤ x.1 ∧ x.1 < slotOffset i + slotBytes) ∧
      (st' = .sync → d'.read (slotOffset i) slotLength = slotImage sum s) := by
  cases hs with
  | tear ws hsub =>
    exact ⟨ws, rfl, fun x hx => mem_slotWrites (hsub.subset hx), nofun⟩
  | written => exact ⟨_, rfl, fun x hx => mem_slotWrites hx, fun _ => read_slotWrites _ _ _⟩

theorem inv_openSynced (ha : Anchored sum w.disk w.slots w.images w.owed h c l b) (hj : j.Holds h c)
    (hmem : (j.other, j.leaseSlot) ∈ w.slots)
    (hread : w.disk.read (slotOffset j.other) slotLength = slotImage sum j.leaseSlot) :
    h.Follows j.leaseSlot ∧ (1 - c, j.leaseSlot) ∈ w.slots ∧
      ∃ l', Anchored sum w.disk.sync w.slots w.images w.owed j.leaseSlot (1 - c) l' b ∧
        ProcInv sum
          { w with disk := w.disk.sync, proc := .readingBack (j.tookSlot j.leaseSlot) }
          j.leaseSlot (1 - c) l' b := by
  obtain ⟨hfollows, -⟩ := hj.leaseSlot
  rw [hj.other] at hmem hread
  have hstable : w.disk.sync.Stable (slotOffset (1 - c)) (slotImage sum j.leaseSlot) :=
    Disk.stable_sync (by rw [length_slotImage]; exact hread)
  obtain ⟨l₁, l₂, -, -, ha'⟩ := ha.sync.promote hmem hfollows hstable
  exact ⟨hfollows, hmem, l₂, ha', hj.tookSlot hfollows, rfl⟩

/-! ## Reading back -/

theorem OnRing.length_le {n a : Nat} (hl : OnRing n g l a b) : a + l.length ≤ b := by
  obtain ⟨htiles, heach, -⟩ := hl
  induction l generalizing a with
  | nil => exact Nat.le_of_eq htiles
  | cons s l ih =>
    have hrest := ih htiles.2 fun x hx => heach x (mem_cons_of_mem _ hx)
    have hsize := (heach s mem_cons_self).wellFormed.size_ge
    have hstop : s.stop = s.position + s.item.size := rfl
    have hfirst : s.position = a := htiles.1
    rw [minEntryBytes_eq] at hsize
    rw [length_cons]
    omega

theorem OnRing.canBegin {n a : Nat} (hl : OnRing n g l a b) (ha : CanBegin n a) : CanBegin n b := by
  obtain ⟨htiles, heach, -⟩ := hl
  induction l generalizing a with
  | nil =>
    obtain rfl : a = b := htiles
    exact ha
  | cons s l ih =>
    exact ih (heach s mem_cons_self).after htiles.2
      fun x hx => heach x (mem_cons_of_mem _ hx)

theorem OnRing.stop_le {n a m : Nat} (hl : OnRing n g l a b) (ha : a ≤ m) (hm : ∀ s ∈ l, s.stop ≤ m) :
    b ≤ m := by
  obtain ⟨htiles, heach, -⟩ := hl
  induction l generalizing a with
  | nil =>
    obtain rfl : a = b := htiles
    exact ha
  | cons s l ih =>
    exact ih (hm s mem_cons_self) (fun x hx => hm x (mem_cons_of_mem _ hx)) htiles.2
      fun x hx => heach x (mem_cons_of_mem _ hx)

theorem Journal.Holds.offset (hj : j.Holds h c) (hstart : h.ringStart = ringOffset) (s : Stored) :
    j.offset s.position = s.place h.ringLength := by
  rw [Journal.offset, hj.ringStart, hj.ringLength, hstart]
  rfl

/-- Reading back indexes every record from the durable tail on, and whatever placed records follow
them: all of it is durable. -/
theorem inv_openDone (ha : Anchored sum w.disk w.slots w.images w.owed h c l b) (hj : j.Holds h c)
    (hpending : w.disk.pending = []) (hg : GenuineEntries sum w.disk j w.images) :
    InvFrom sum w.slots h c b { w with proc := .running (j.readBack sum w.disk) .idle } := by
  have hlength := hj.ringLength
  have hread : ∀ s ∈ l, w.disk.read (j.offset s.position) s.size = s.bytes sum := by
    intro s hs
    have := (ha.records s hs).read_eq
    rwa [Stored.length_bytes sum (ha.ring.each s hs).wellFormed, ← hj.offset ha.start] at this
  have hring : OnRing j.ringLength j.generation l h.tail b := by
    rw [hj.ringLength, hj.generation]
    exact ha.ring
  -- First the records that were there, then what follows them.
  have himages : ∀ s ∈ w.images, s.OnRing j.ringLength ∧ s.position < 2 ^ 64 := by
    intro s hs
    obtain ⟨-, hr, -, hb⟩ := ha.images s hs
    have := s.position_le_stop
    rw [hj.ringLength]
    exact ⟨hr, by omega⟩
  obtain ⟨m, e, hscan, hm, hmem⟩ := scan_genuine hg himages h.tail (h.ringLength - l.length) b
    (l.filterMap Stored.index)
  have hall : j.scan sum w.disk j.header.tail j.ringLength j.header.tail [] =
      ((l ++ m).filterMap Stored.index, e) := by
    have hlen := ha.ring.length_le
    have hturn := ha.turn
    rw [hj.header, hlength, show h.ringLength = h.ringLength - l.length + l.length by omega,
      scan_records hring (by omega) ha.bound (Nat.le_refl _) hread, nil_append, hscan,
      filterMap_append]
  rw [hj.ringLength, hj.generation] at hm
  have hturn : e ≤ h.tail + h.ringLength :=
    hm.stop_le ha.turn fun s hs => (ha.images s (hmem s hs).1).2.2.1
  have hbound : e ≤ 2 ^ 64 - 1 :=
    hm.stop_le (by have := ha.bound; omega) fun s hs => by
      have := (ha.images s (hmem s hs).1).2.2.2
      omega
  have hbegins := hm.canBegin ha.begins
  have hstable : ∀ s ∈ m, w.disk.Stable (s.place h.ringLength) (s.bytes sum) := by
    intro s hs
    have hlen := Stored.length_bytes sum (hm.each s hs).wellFormed
    refine Disk.stable_of_quiet (fun x hx => by rw [hpending] at hx; cases hx) ?_
    rw [hlen, ← hj.offset ha.start]
    exact (hmem s hs).2
  have ha' := ha.extend [] hm hbegins hstable hturn (by omega) (.inl hpending) (by simp)
  rw [append_nil] at ha'
  set r : Journal := { j with live := (l ++ m).filterMap Stored.index, written := e, next := e }
    with hr
  have hback : j.readBack sum w.disk = r.withLiveTail := by
    rw [Journal.readBack, hall]
  obtain ⟨l₁, l₂, heq, h₁, h₂, hlive⟩ := withLiveTail_spec (j := r) ha'.ring.tiles
    (map_undead_filterMap _)
  refine ⟨h, c, l ++ m, e, .grown hm.le, ha', ?_⟩
  rw [hback]
  refine ⟨{ hj with },
    ⟨rfl, ⟨l₁, l₂, heq, h₁, h₂, hlive⟩, fun x hx => ?_⟩, ⟨?_, ?_, .inl rfl⟩, hturn, trivial⟩
  · exact mem_withLiveTail (j := r) (index_mem (ha'.owed x hx)) rfl
  · change RingLength j.ringLength
    rw [hlength]
    exact ha.length
  · change CanBegin j.ringLength e
    rw [hlength]
    exact hbegins

/-! ## Callers -/

/-- What callers change, and what a trim does, is no matter of the writer's. -/
theorem WriterInv.congr (hw : WriterInv sum d slots images j wr) {tail : Nat} (htail : j.tail ≤ tail)
    (live : List Indexed) (queue : List Commit) (fences : Bytes → UInt64) (failed closed : Bool) :
    WriterInv sum d slots images
      { j with tail := tail, live := live, queue := queue, fences := fences, failed := failed, closed := closed }
      wr := by
  cases wr with
  | idle => exact hw
  | stopped => exact hw
  | header s st closing =>
    obtain ⟨hmem, hread, hfollows, hle⟩ := hw
    exact ⟨hmem, hread, hfollows, Nat.le_trans hle htail⟩
  | capturing batch => exact hw
  | writing b p => exact { hw with }
  | syncing b p => exact ⟨{ hw.1 with }, hw.2⟩
  | completing b p ok => exact ⟨{ hw.1 with }, hw.2⟩

theorem inv_call (ha : Anchored sum w.disk w.slots w.images w.owed h c l b) (hp : w.proc = .running j wr)
    (hinv : ProcInv sum w h c l b) (hs : CallStep j j') :
    InvFrom sum w.slots h c b { w with proc := .running j' wr } := by
  obtain ⟨hj, hi, hsp, hnext, hw⟩ := hinv.of_proc hp
  have hwriter := hw.congr (Nat.le_refl _) j.live
  cases hs with
  | _ => exact ⟨h, c, l, b, .same, ha, { hj with }, { hi with }, { hsp with }, hnext, hwriter _ _ _ _⟩

theorem inv_trim (ha : Anchored sum w.disk w.slots w.images w.owed h c l b) (hp : w.proc = .running j wr)
    (hinv : ProcInv sum w h c l b) (vm : Bytes) (covered : UInt64 → Option Nat) :
    InvFrom sum w.slots h c b
      { w with proc := .running (j.trim vm covered) wr
               owed := w.owed.filter fun a => !a.covered vm covered } := by
  obtain ⟨hj, hi, hsp, hnext, hw⟩ := hinv.of_proc hp
  obtain ⟨hi', htail⟩ := hi.trim vm covered
  refine ⟨h, c, l, b, .same, ha.owed_subset fun x hx => (mem_filter.mp hx).1, ?_, hi', ?_,
    hnext, hw.congr htail _ _ _ _ _⟩
  · exact { hj with }
  · exact { hsp with }

/-! ## Batches -/

theorem RingLength.pos {n : Nat} (hn : RingLength n) : 0 < n := by
  have := hn.min
  unfold minRingSize at this
  omega

theorem Journal.Batched.mem_writes (hb : j.Batched images bt p) (hsp : j.Spaced) {x : Write}
    (hx : x ∈ j.batchWrites sum p) : ∃ q, j.written ≤ q ∧ q < j.next ∧ x.1 = j.offset q := by
  by_cases hnil : p.image = []
  · have : j.batchWrites sum p = [] := by
      simp [Journal.batchWrites, Placement.bytes, hnil, Journal.writes]
    rw [this] at hx
    cases hx
  · have hring := hb.ring hnil
    rw [← hb.start] at hring
    obtain ⟨q, h1, h2, h3⟩ := mem_batchWrites sum hsp.length.pos hring hx
    exact ⟨q, by rw [← hb.start]; exact h1, by rw [← hb.stop hnil]; exact h2, h3⟩

theorem Journal.Batched.read (hb : j.Batched images bt p) (hsp : j.Spaced)
    (hturn : j.next ≤ j.written + j.ringLength) (hstart : j.ringStart = ringOffset) (d : Disk)
    {s : Stored} (hs : s ∈ p.image) :
    (d.write (j.batchWrites sum p)).read (s.place j.ringLength) s.size = s.bytes sum := by
  have hne : p.image ≠ [] := ne_nil_of_mem hs
  have hring := hb.ring hne
  rw [← hb.start] at hring
  have := read_batchWrites sum d hsp.length.pos hring (by rw [hb.stop hne, hb.start]; exact hturn) hs
  rwa [Journal.offset, hstart] at this

theorem inv_batch {wr' : Writer} (ha : Anchored sum w.disk w.slots w.images w.owed h c l b)
    (hp : w.proc = .running j wr) (hinv : ProcInv sum w h c l b) (hs : BatchStep sum w.disk j wr d j' wr') :
    InvFrom sum w.slots h c b { w with disk := d, proc := .running j' wr' } := by
  obtain ⟨hj, hi, hsp, hnext, hw⟩ := hinv.of_proc hp
  have hstart : j.ringStart = ringOffset := hj.ringStart.trans ha.start
  have hle := ha.ring.le
  have hring : ∀ p bt, j.Batched w.images bt p → ∀ x ∈ j.batchWrites sum p,
      ∃ q, b ≤ q ∧ q < h.tail + h.ringLength ∧ x.1 = ringOffset + q % h.ringLength := by
    intro p bt hb x hx
    obtain ⟨q, h1, h2, h3⟩ := hb.mem_writes hsp hx
    rw [Journal.offset, hstart, hj.ringLength] at h3
    exact ⟨q, by rw [← hi.written]; exact h1, by omega, h3⟩
  cases hs with
  | take hr hn =>
    have hfit := fitting_spec hn
    exact ⟨h, c, l, b, .same, ha, { hj with }, { hi with }, { hsp with }, hnext, .inr hfit⟩
  | takePad hr hq hn hlt =>
    exact ⟨h, c, l, b, .same, ha, hj, hi, hsp, hnext, .inl ⟨rfl, hlt⟩⟩
  | tear bt p ws hsub =>
    exact ⟨h, c, l, b, .same, ha.write_ring fun x hx => hring p bt hw x (hsub.subset hx), hj, hi,
      hsp, hnext, hw⟩
  | written bt p =>
    refine ⟨h, c, l, b, .same, ha.write_ring (hring p bt hw), hj, hi, hsp, hnext, hw, ?_⟩
    intro s hs
    refine hw.read hsp ?_ hstart _ hs
    rw [hi.written, hj.ringLength]
    omega
  | writeFails bt p =>
    exact ⟨h, c, l, b, .same, ha, hj, hi, hsp, hnext, hw, nofun⟩
  | synced bt p =>
    obtain ⟨hb, hread⟩ := hw
    refine ⟨h, c, l, b, .same, ha.sync, hj, hi, hsp, hnext, hb, fun _ => ⟨.inr rfl, fun s hs => ?_⟩⟩
    have hne : p.image ≠ [] := ne_nil_of_mem hs
    refine Disk.stable_sync ?_
    rw [Stored.length_bytes sum ((hb.ring hne).each s hs).wellFormed]
    exact hread s hs
  | syncFails bt p =>
    exact ⟨h, c, l, b, .same, ha, hj, hi, hsp, hnext, hw.1, nofun⟩

theorem mem_answers {captured : List (Option (List Entry))} (hlen : captured.length = batch.length)
    (hpos : ∀ es ps, (some es, some ps) ∈ captured.zip p.positions → ∀ pe ∈ ps.zip es, ⟨pe.1, g, .blocks pe.2⟩ ∈ p.image)
    {x : Answer} (hx : x ∈ answers (batch.zip captured) p) : x.record g ∈ p.image := by
  obtain ⟨⟨⟨cm, cap⟩, ps⟩, hzip, hx⟩ := mem_flatMap.mp hx
  have hmem : (cap, ps) ∈ captured.zip p.positions := by
    have hsnd : (batch.zip captured).map Prod.snd = captured :=
      map_snd_zip (Nat.le_of_eq hlen)
    have := mem_map_of_mem (f := Prod.map Prod.snd id) hzip
    rwa [← zip_map_left, hsnd] at this
  cases cap with
  | none => cases hx
  | some es =>
    cases ps with
    | none => cases hx
    | some ps =>
      obtain ⟨pe, hpe, rfl⟩ := mem_map.mp hx
      exact hpos es ps hmem pe hpe

/-- A batch the ring has room for, laid out: what `Batched` says of it, and that it stays before the
durable tail a turn later. -/
theorem placed_of_capturing {made : List (Option (List Entry))} (hsp : j.Spaced)
    (htail : j.header.tail ≤ j.next)
    (hw : (batch = [] ∧ j.written < j.next) ∨ j.next + reserve (batchRoom batch) (batchLargest batch) ≤ j.header.tail + j.ringLength)
    (hnext : j.next ≤ j.header.tail + j.ringLength) :
    Placed j (batchRoom batch) (batchLargest batch) (batch.zipWith capture made)
        (j.place (batch.zipWith capture made)) ∧
      ((j.place (batch.zipWith capture made)).image ≠ [] →
        (j.place (batch.zipWith capture made)).stop ≤ j.header.tail + j.ringLength) := by
  obtain ⟨hcheck, hlargest, hroom⟩ := @captured_spec batch made
  rcases hw with ⟨rfl, hlt⟩ | hfit
  · refine ⟨place_spec hsp hcheck hlargest hroom ?_, fun _ => ?_⟩
    · have := hsp.length.min
      have h64 := minEntryBytes_eq
      simp only [batchRoom, batchLargest, reserve, map_nil, sum_nil, foldr_nil]
      unfold minRingSize blockBytes at *
      omega
    · rw [show List.zipWith capture [] made = [] from rfl, place_nil hsp hlt]
      exact hnext
  · have hplaced := place_spec hsp hcheck hlargest hroom (by omega)
    refine ⟨hplaced, fun hne => ?_⟩
    have := hplaced.bound hne
    omega

section

variable (ha : Anchored sum w.disk w.slots w.images w.owed h c l b)

include ha

theorem inv_place {made : List (Option (List Entry))} (hproc : w.proc = .running j (.capturing batch))
    (hinv : ProcInv sum w h c l b) (hlen : made.length = batch.length)
    (hp : p = j.place (batch.zipWith capture made)) (hfit : p.stop < 2 ^ 64) :
    InvFrom sum w.slots h c b { w with
      proc := .running (j.afterPlace p) (placedWriter (batch.zip (batch.zipWith capture made)) p)
      images := w.images ++ p.image } := by
  obtain ⟨hj, hi, hsp, hnext, hw⟩ := hinv.of_proc hproc
  have htail : j.header.tail ≤ j.next := by
    have hle := ha.ring.le
    have hwritten := hi.written
    rw [hj.header]
    rcases hsp.range with h | h <;> omega
  obtain ⟨hplaced, hturn⟩ := @placed_of_capturing j batch made hsp htail hw
    (by rw [hj.header, hj.ringLength]; exact hnext)
  rw [← hp] at hplaced hturn
  rw [hj.header, hj.ringLength] at hturn
  set bt := batch.zip (batch.zipWith capture made) with hbt
  have hnext' : p.image ≠ [] → (j.afterPlace p).next = p.stop := by
    intro hne
    simp [Journal.afterPlace, hne]
  have hmem : ∀ s ∈ p.image, s.generation = h.generation ∧ s.OnRing h.ringLength ∧
      s.stop ≤ h.tail + h.ringLength ∧ s.stop < 2 ^ 64 := by
    intro s hs
    have hne : p.image ≠ [] := ne_nil_of_mem hs
    have hring := hplaced.ring hne
    have hstop := (hring.tiles.mem_bounds Stored.position_le_stop hs).2
    have := hturn hne
    rw [← hj.generation, ← hj.ringLength]
    exact ⟨hring.generation s hs, hring.each s hs, by rw [hj.ringLength]; omega, by omega⟩
  have hbatched : (j.afterPlace p).Batched (w.images ++ p.image) bt p :=
    { start := hplaced.start
      ring := hplaced.ring
      stop := fun hne => (hnext' hne).symm
      block := hplaced.block
      none := fun hnil => by
        simp only [Journal.afterPlace, hnil, if_true]
        exact hplaced.none hnil
      bound := fun _ => hfit
      entries := hplaced.entries
      answers := fun x hx => mem_answers (by simp [hlen]) hplaced.positions hx
      placed := fun s hs => mem_append_right _ hs }
  refine ⟨h, c, l, b, .same, ha.add_images hmem,
    { hj with }, { hi with }, ⟨hsp.length, hsp.begins, ?_⟩, ?_, ?_⟩
  · by_cases hnil : p.image = []
    · refine .inl ?_
      simp only [Journal.afterPlace, hnil, if_true]
      exact hplaced.none hnil
    · rw [hnext' hnil]
      exact .inr ⟨hplaced.block hnil, (hplaced.ring hnil).add_le hnil⟩
  · by_cases hnil : p.image = []
    · simp only [Journal.afterPlace, hnil, if_true]
      exact hnext
    · rw [hnext' hnil]
      exact hturn hnil
  · unfold placedWriter
    split
    · next hnil =>
      exact ⟨hbatched, fun _ => ⟨.inl hnil, fun s hs => by rw [hnil] at hs; cases hs⟩⟩
    · exact hbatched

theorem inv_complete {ok : Bool} (hproc : w.proc = .running j (.completing bt p ok))
    (hinv : ProcInv sum w h c l b) :
    InvFrom sum w.slots h c b { w with
      proc := .running (j.complete p ok) .idle
      answered := w.answered ++ if ok then answers bt p else []
      owed := w.owed ++ if ok then answers bt p else [] } := by
  obtain ⟨hj, hi, hsp, hnext, hb, hok⟩ := hinv.of_proc hproc
  cases ok with
  | false =>
    simp only [Bool.false_eq_true, if_false, append_nil]
    exact ⟨h, c, l, b, .same, ha, { hj with }, { hi with }, { hsp with }, hnext, trivial⟩
  | true =>
    obtain ⟨hpending, hstable⟩ := hok rfl
    have hring : p.image ≠ [] → OnRing h.ringLength h.generation p.image b p.stop := by
      intro hne
      have := hb.ring hne
      rwa [hj.ringLength, hj.generation, hi.written] at this
    have hi' := hi.complete hb.entries (fun hne => (hring hne).tiles) hb.answers
    have hholds : (j.complete p true).Holds h c :=
      { hj with }
    simp only [if_true]
    by_cases hnil : p.image = []
    · -- Nothing was written, and nothing is answered for.
      have hnone : answers bt p = [] := eq_nil_iff_forall_not_mem.mpr fun x hx => by
        have := hb.answers x hx
        rw [hnil] at this
        cases this
      rw [hnil, append_nil, if_pos rfl] at hi'
      simp only [hnone, append_nil] at hi' ⊢
      refine ⟨h, c, l, b, .same, ha, hholds, hi', ⟨hsp.length, ?_, .inl ?_⟩, hnext, trivial⟩
      · rw [hi'.written, ← hi.written]
        exact hsp.begins
      · rw [hi'.written, ← hi.written]
        exact hb.none hnil
    · rw [if_neg hnil] at hi'
      have hbegins : CanBegin h.ringLength p.stop := .of_block ha.length (hb.block hnil)
      have hturn : p.stop ≤ h.tail + h.ringLength := by
        rw [hb.stop hnil]
        exact hnext
      have hstable' : ∀ s ∈ p.image, w.disk.Stable (s.place h.ringLength) (s.bytes sum) := by
        rw [← hj.ringLength]
        exact hstable
      have hans : ∀ x ∈ answers bt p, x.record h.generation ∈ p.image := by
        rw [← hj.generation]
        exact hb.answers
      have hpend : w.disk.pending = [] ∨ p.image = [] := hpending.symm
      refine ⟨h, c, l ++ p.image, p.stop, .grown (hring hnil).le,
        ha.extend _ (hring hnil) hbegins hstable' hturn (hb.bound hnil) hpend hans, hholds, hi',
        ⟨hsp.length, ?_, .inl ?_⟩, hnext, trivial⟩
      · rw [hi'.written]
        change CanBegin j.ringLength _
        rw [hj.ringLength]
        exact hbegins
      · rw [hi'.written]
        exact hb.stop hnil

/-! ## The header -/

/-- The writer, or `Close`, is about to write the tail into the header. -/
theorem inv_headerStart {empty : Bool} (hp : w.proc = .running j wr) (hinv : ProcInv sum w h c l b)
    (hf : (j.tailSlot empty).Fits) :
    InvFrom sum w.slots h c b
      { w with proc := .running j (.header (j.tailSlot empty) .write closing)
               slots := w.slots ++ [(j.other, j.tailSlot empty)] } := by
  obtain ⟨hj, hi, hsp, hnext, -⟩ := hinv.of_proc hp
  obtain ⟨hfollows, htail⟩ := hj.tailSlot empty
  have hcut : Cut h.generation l h.tail (j.tailSlot empty).tail b w.owed := by
    rw [htail]
    exact hi.cut ha.ring ha.owed
  have ha' := ha.add_slot hf hfollows hcut
  rw [← hj.other] at ha'
  refine ⟨h, c, l, b, .same, ha', hj, hi, hsp, hnext, ?_, nofun, ?_, Nat.le_of_eq htail⟩
  · exact mem_append_right _ mem_cons_self
  · rw [hj.header]
    exact hfollows

theorem inv_headerSlot (hp : w.proc = .running j (.header s st closing)) (hinv : ProcInv sum w h c l b)
    (hs : SlotStep sum j.other s w.disk st d st') :
    InvFrom sum w.slots h c b { w with disk := d, proc := .running j (.header s st' closing) } := by
  obtain ⟨hj, hi, hsp, hnext, hmem, -, hfollows, hle⟩ := hinv.of_proc hp
  obtain ⟨ws, rfl, hws, hread⟩ := slotStep_spec hs
  rw [hj.other] at hws
  exact ⟨h, c, l, b, .same, ha.write_slot hws, hj, hi, hsp, hnext, hmem, hread, hfollows, hle⟩

/-- The tail is in the durable header now, and the records before it are given up. -/
theorem inv_headerSynced (hp : w.proc = .running j (.header s .sync closing))
    (hinv : ProcInv sum w h c l b) :
    h.Follows s ∧ (1 - c, s) ∈ w.slots ∧ ∃ l', Anchored sum w.disk.sync w.slots w.images w.owed s
      (1 - c) l' b ∧ ProcInv sum
        { w with disk := w.disk.sync, proc := afterHeader (j.tookSlot s) closing } s (1 - c) l' b := by
  obtain ⟨hj, hi, hsp, hnext, hmem, hread, hfollows, hle⟩ := hinv.of_proc hp
  have hread := hread rfl
  rw [hj.header] at hfollows
  rw [hj.other] at hmem hread
  have hstable : w.disk.sync.Stable (slotOffset (1 - c)) (slotImage sum s) :=
    Disk.stable_sync (by rw [length_slotImage]; exact hread)
  obtain ⟨l₁, l₂, rfl, h₁, ha'⟩ := ha.sync.promote hmem hfollows hstable
  have hmono := h₁.le Stored.position_le_stop
  have hpos : ∀ s ∈ l₁, s.position < s.stop := by
    intro s hs
    have hsize := (ha.ring.each s (mem_append_left _ hs)).wellFormed.size_ge
    have hstop : s.stop = s.position + s.item.size := rfl
    rw [minEntryBytes_eq] at hsize
    omega
  refine ⟨hfollows, hmem, l₂, ha', ?_⟩
  cases closing with
  | true => trivial
  | false =>
    have hi' := hi.drop hpos h₁ ha'.ring.tiles hle
    refine ⟨hj.tookSlot hfollows, { hi' with }, { hsp with }, ?_, trivial⟩
    change j.next ≤ s.tail + s.ringLength
    rw [hfollows.ringLength]
    omega

theorem inv_headerFails (hp : w.proc = .running j (.header s st closing)) (hinv : ProcInv sum w h c l b) :
    InvFrom sum w.slots h c b { w with proc := afterHeader j closing } := by
  obtain ⟨hj, hi, hsp, hnext, -⟩ := hinv.of_proc hp
  refine ⟨h, c, l, b, .same, ha, ?_⟩
  cases closing with
  | true => trivial
  | false => exact ⟨hj, hi, hsp, hnext, trivial⟩

/-! ## Steps over a durable header -/

theorem inv_step_anchored (hinv : ProcInv sum w h c l b) (hs : Step sum size w w')
    (hsteady : ∀ j st, w.proc = .closed → w'.proc = .opening j st → DurableHeader sum w.disk) :
    InvFrom sum w.slots h c b w' := by
  cases hs with
  | openRead config generation j hp hg hj hf =>
    exact inv_openRead ha hg hj hf (hsteady _ _ hp rfl)
  | openSlot j st st' d hp hslot =>
    obtain ⟨hj, hmem, -⟩ := hinv.of_proc hp
    obtain ⟨ws, rfl, hws, hread⟩ := slotStep_spec hslot
    rw [hj.other] at hws
    exact ⟨h, c, l, b, .same, ha.write_slot hws, hj, hmem, hread⟩
  | openSynced j hp =>
    obtain ⟨hj, hmem, hread⟩ := hinv.of_proc hp
    obtain ⟨hfollows, hmem', l', ha', hinv'⟩ := inv_openSynced ha hj hmem (hread rfl)
    exact ⟨_, _, l', b, .next hfollows hmem', ha', hinv'⟩
  | openDone j hp hg =>
    obtain ⟨hj, hpending⟩ := hinv.of_proc hp
    exact inv_openDone ha hj hpending hg
  | call j j' wr hp hcall => exact inv_call ha hp hinv hcall
  | trim j wr vm covered hp => exact inv_trim ha hp hinv vm covered
  | batch j j' wr wr' d hp hbatch => exact inv_batch ha hp hinv hbatch
  | place j batch made p hw hlen hp hfit => exact inv_place ha hw hinv hlen hp hfit
  | complete j bt p ok hp => exact inv_complete ha hp hinv
  | headerStart j s i hp hr hmoved hlease hs hf => exact inv_headerStart ha hp hinv hf
  | headerSlot j s st st' closing d hp hslot => exact inv_headerSlot ha hp hinv hslot
  | headerSynced j s closing hp =>
    obtain ⟨hfollows, hmem, l', ha', hinv'⟩ := inv_headerSynced ha hp hinv
    exact ⟨s, 1 - c, l', b, .next hfollows hmem, ha', hinv'⟩
  | headerFails j s st closing hp => exact inv_headerFails ha hp hinv
  | stop j hp hr =>
    obtain ⟨hj, hi, hsp, hnext, -⟩ := hinv.of_proc hp
    exact ⟨h, c, l, b, .same, ha, { hj with }, { hi with }, { hsp with }, hnext, trivial⟩
  | closeStart j s i hp hclosed hfailed hlease hs hf => exact inv_headerStart ha hp hinv hf
  | ends => exact ⟨h, c, l, b, .same, ha, trivial⟩

end

/-! ## Steps before there is one -/

/-- A world reached by one step from one with no durable header: there is still none, or the first
one is in slot 0. -/
def InvFirst (sum : Checksum) (w : World) : Prop :=
  Fresh sum w ∨ ∃ h l b, Anchored sum w.disk w.slots w.images w.owed h 0 l b ∧ ProcInv sum w h 0 l b

theorem InvFirst.inv (hw : InvFirst sum w) : Inv sum w := by
  rcases hw with hw | ⟨h, l, b, ha, hp⟩
  · exact .inl hw
  · exact .inr ⟨h, 0, l, b, ha, hp⟩

theorem Fresh.anchored (hw : Fresh sum w) (hs : (0, s) ∈ w.slots)
    (hstable : d.Stable (slotOffset 0) (slotImage sum s)) (hpending : ∀ x ∈ d.pending, x.1 < ringOffset) :
    Anchored sum d w.slots w.images w.owed s 0 [] s.tail := by
  obtain ⟨-, hfirst⟩ := hw.slots 0 s hs
  have htail : s.tail % blockBytes = 0 := by
    rw [hfirst.tail]
    exact hfirst.length.blocks
  exact
    { start := hfirst.start
      length := hfirst.length
      header := hstable
      fits := fun i t ht => (hw.slots i t ht).2.fits
      headerFits := hfirst.fits
      current := fun t ht => by rw [(hw.slots 0 t ht).2.counter, hfirst.counter]
      other := fun t ht => absurd (hw.slots _ t ht).1 (by decide)
      ring := .nil _
      begins := .of_block hfirst.length htail
      records := nofun
      turn := Nat.le_add_right _ _
      bound := hfirst.fits.tail
      images := fun t ht => by rw [hw.images] at ht; cases ht
      pending := fun x hx => .inl (hpending x hx)
      owed := fun x hx => by rw [hw.owed] at hx; cases hx }

theorem Fresh.openSynced (hw : Fresh sum w) (hp : w.proc = .opening j .sync) :
    j.Holds j.header 1 ∧
      Anchored sum w.disk.sync w.slots w.images w.owed j.leaseSlot 0 [] j.leaseSlot.tail := by
  obtain ⟨hj, hmem, hread⟩ := hw.opening hp
  refine ⟨hj, hw.anchored hmem (Disk.stable_sync ?_) nofun⟩
  rw [length_slotImage]
  exact hread rfl

theorem formatSlot_first (hsize : ringOffset + minRingSize ≤ size)
    (hf : (found config (formatSlot config size generation) 1 true).leaseSlot.Fits) :
    (found config (formatSlot config size generation) 1 true).leaseSlot.First := by
  refine ⟨hf, rfl, rfl, ⟨?_, ?_⟩, rfl⟩
  · change minRingSize ≤ (size - ringOffset) / blockBytes * blockBytes
    unfold minRingSize blockBytes at *
    omega
  · change (size - ringOffset) / blockBytes * blockBytes % blockBytes = 0
    exact Nat.mul_mod_left _ _

theorem inv_openRead_fresh (hw : Fresh sum w) (hg : GenuineSlots sum w.disk w.slots)
    (hj : openHeader sum config size generation w.disk = .ok j) (hf : j.leaseSlot.Fits)
    (hdurable : DurableHeader sum w.disk) :
    InvFirst sum
      { w with proc := .opening j .write, slots := w.slots ++ [(j.other, j.leaseSlot)] } := by
  rcases openHeader_ok hj with ⟨-, hsize, rfl⟩ | ⟨s, i, hr, -, rfl⟩
  · have hfirst := formatSlot_first hsize hf
    have hother : (found config (formatSlot config size generation) 1 true).other = 0 :=
      show (1 - 1 : Fin 2) = 0 by decide
    rw [hother]
    refine .inl { hw with slots := fun i t ht => ?_, proc := .inr ⟨_, _, rfl, ?_, ?_, ?_⟩ }
    · rcases mem_append.mp ht with ht | ht
      · exact hw.slots i t ht
      · rw [mem_singleton, Prod.mk.injEq] at ht
        exact ⟨ht.1, by rw [ht.2]; exact hfirst⟩
    · exact found_holds ..
    · exact mem_append_right _ mem_cons_self
    · intro hst
      cases hst
  · -- The first slot is there already, from an earlier attempt.
    obtain ⟨hs, -⟩ := readHeader_ok hr
    obtain ⟨t, ht, hread⟩ := hg i s hs
    obtain ⟨rfl, hfirst⟩ := hw.slots i t ht
    obtain rfl : t = s := by simpa using (slotAt_of_read hfirst.fits hread).symm.trans hs
    have hstable : w.disk.Stable (slotOffset 0) (slotImage sum t) :=
      Disk.stable_of_quiet (by rw [length_slotImage]; exact hdurable _ _ hr)
        (by rw [length_slotImage]; exact hread)
    exact .inr ⟨_, _, _, inv_opening (hw.anchored ht hstable hw.pending) (found_holds ..) hf⟩

theorem inv_step_fresh (hw : Fresh sum w) (hs : Step sum size w w')
    (hsteady : ∀ j st, w.proc = .closed → w'.proc = .opening j st → DurableHeader sum w.disk) :
    InvFirst sum w' := by
  cases hs with
  | openRead config generation j hp hg hj hf =>
    exact inv_openRead_fresh hw hg hj hf (hsteady _ _ hp rfl)
  | openSlot j st st' d hp hslot =>
    obtain ⟨hj, hmem, -⟩ := hw.opening hp
    obtain ⟨ws, rfl, hws, hread⟩ := slotStep_spec hslot
    rw [hj.other] at hws hread
    refine .inl { hw with pending := fun x hx => ?_, proc := .inr ⟨j, st', rfl, hj, hmem, hread⟩ }
    rcases mem_append.mp hx with hx | hx
    · exact hw.pending x hx
    · have := hws x hx
      have := slotOffset_le (1 - 1)
      omega
  | openSynced j hp =>
    obtain ⟨hj, ha⟩ := hw.openSynced hp
    exact .inr ⟨_, [], _, ha, hj.tookSlot hj.leaseSlot.1, rfl⟩
  | openDone j hp hg =>
    rcases hw.proc with hc | ⟨j', st, ho, -⟩
    · cases hc.symm.trans hp
    · cases ho.symm.trans hp
  | call j j' wr hp hcall => exact absurd hp hw.not_running
  | trim j wr vm covered hp => exact absurd hp hw.not_running
  | batch j j' wr wr' d hp hbatch => exact absurd hp hw.not_running
  | place j batch made p hp hlen hpl hfit => exact absurd hp hw.not_running
  | complete j bt p ok hp => exact absurd hp hw.not_running
  | headerStart j s i hp hr hmoved hlease hs hf => exact absurd hp hw.not_running
  | headerSlot j s st st' closing d hp hslot => exact absurd hp hw.not_running
  | headerSynced j s closing hp => exact absurd hp hw.not_running
  | headerFails j s st closing hp => exact absurd hp hw.not_running
  | stop j hp hr => exact absurd hp hw.not_running
  | closeStart j s i hp hclosed hfailed hlease hs hf => exact absurd hp hw.not_running
  | ends => exact .inl { hw with proc := .inl rfl }

/-! ## Runs -/

theorem inv_step (hw : Inv sum w) (hs : SteadyStep sum size w w') : Inv sum w' := by
  obtain ⟨hs, hsteady⟩ := hs
  cases hs with
  | step w' hs =>
    rcases hw with hw | ⟨h, c, l, b, ha, hinv⟩
    · exact (inv_step_fresh hw hs hsteady).inv
    · exact (inv_step_anchored ha hinv hs hsteady).inv
  | powerLoss d hcrash =>
    rcases hw with hw | ⟨h, c, l, b, ha, -⟩
    · exact .inl { hw with pending := (fun x hx => by rw [hcrash.1] at hx; cases hx), proc := .inl rfl }
    · exact .inr ⟨h, c, l, b, ha.crash hcrash, trivial⟩

theorem fresh_blank (d : Nat → UInt8) : Fresh sum (.blank d) :=
  ⟨rfl, rfl, nofun, nofun, .inl rfl⟩

/-- The invariant holds in every world a run reaches in which every `Open` finds a durable
header. -/
theorem SteadyReaches.inv (hw : SteadyReaches sum size w) : Inv sum w := by
  obtain ⟨d, hrun⟩ := hw
  induction hrun with
  | refl => exact .inl (fresh_blank d)
  | tail _ hs ih => exact inv_step ih hs

end Sproutfs.JournalDisk
