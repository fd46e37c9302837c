import Sproutfs.Journal.Proofs.StepProofs

/-!
# Durability of answered entries

Every entry a commit was answered for, and no trim has covered since, is in the index of the open journal
and reads back as it was committed, as long as an `Open` which finds a header finds a durable one. `Open`
itself takes a header whose sync failed for the current one and writes over the only durable one.
-/

namespace Sproutfs.JournalDisk

open List ByteCodec TornDisk Tiling

variable {sum : Checksum} {size : Nat} {w : World} {d d' : Disk} {position o n : Nat} {g : UInt64}
  {slots : List (Fin 2 × Slot)} {s : Slot} {starts : List Nat} {w' : World} {i : Fin 2}

/-- The entry an answer names, as it is read back. -/
def Answer.readBack (a : Answer) : Entry := { a.entry with position := a.position }

/-- An open journal holds the answered entry `a`: it is in the index, live, at its position, and
reads back from the disk with the VM, the epoch and the payload it was committed with. -/
def HoldsAnswer (sum : Checksum) (w : World) (j : Journal) (a : Answer) : Prop :=
  (∃ e ∈ j.live, e.position = a.position ∧ e.vm = a.entry.vm ∧ e.epoch = a.entry.epoch ∧
    e.length = a.entry.size ∧ e.dead = false) ∧
  ∃ h, decodeEntry sum (w.disk.read (j.offset a.position) a.entry.size) = .ok (h, a.readBack) ∧
    h.position = a.position ∧ h.generation = j.generation

/-- An answered entry that no trim has covered: what its bytes on the ring are. -/
structure OnDisk (sum : Checksum) (d : Disk) (j : Journal) (a : Answer) : Prop where
  check : a.entry.check
  position : a.position < 2 ^ 64
  fits : a.position % j.ringLength + a.entry.size ≤ j.ringLength
  read : d.read (j.offset a.position) a.entry.size =
    encodeEntry sum a.entry a.position j.generation

theorem owed_of_inv (hw : Inv sum w) {j : Journal} {wr : Writer} (hp : w.proc = .running j wr)
    {a : Answer} (ha : a ∈ w.owed) : a.index ∈ j.live ∧ OnDisk sum w.disk j a := by
  obtain ⟨h, c, l, b, hanchored, hj, hi, -⟩ := hw.running hp
  have hrec := hanchored.owed a ha
  have hring := hanchored.ring.each _ hrec
  have hread := (hanchored.records _ hrec).read_eq
  rw [Stored.length_bytes sum hring.wellFormed, ← hj.offset hanchored.start] at hread
  refine ⟨hi.owed a ha, hring.wellFormed, ?_, ?_, ?_⟩
  · have hstop := (hanchored.ring.tiles.mem_bounds Stored.position_le_stop hrec).2
    have hle := (a.record h.generation).position_le_stop
    have hpos : (a.record h.generation).position = a.position := rfl
    have := hanchored.bound
    omega
  · rw [hj.ringLength]
    exact hring.fits
  · rw [hj.generation]
    exact hread

theorem OnDisk.decode {j : Journal} {a : Answer} (h : OnDisk sum d j a) :
    decodeEntry sum (d.read (j.offset a.position) a.entry.size) =
      .ok (a.entry.head a.position j.generation, a.readBack) := by
  rw [h.read]
  exact decodeEntry_encodeEntry h.check h.position _

/-- In a run in which every `Open` finds a durable header, the open journal holds every answered
entry that no trim has covered since. The journal right after `Open` is one of those. -/
theorem open_journal_holds_answered (hw : SteadyReaches sum size w) {j : Journal} {wr : Writer}
    (hp : w.proc = .running j wr) : ∀ a ∈ w.owed, HoldsAnswer sum w j a := by
  intro a ha
  obtain ⟨hlive, hdisk⟩ := owed_of_inv hw.inv hp ha
  exact ⟨⟨a.index, hlive, rfl, rfl, rfl, rfl, rfl⟩,
    a.entry.head a.position j.generation, hdisk.decode, rfl, rfl⟩

/-! ## Runs -/

theorem SteadyStep.of_ne (h : Step sum size w w') (hp : w.proc ≠ .closed) : SteadyStep sum size w w' :=
  ⟨.step w' h, fun _ _ hc => absurd hc hp⟩

theorem SteadyReaches.tail (hw : SteadyReaches sum size w) (h : Step sum size w w')
    (hp : w.proc ≠ .closed) : SteadyReaches sum size w' := by
  obtain ⟨d, hd⟩ := hw
  exact ⟨d, hd.tail (.of_ne h hp)⟩

theorem SteadyReaches.reaches (hw : SteadyReaches sum size w) : Reaches sum size w := by
  obtain ⟨d, hd⟩ := hw
  exact ⟨d, hd.lift id fun _ _ h => h.1⟩

theorem Reaches.tail (hw : Reaches sum size w) (h : Step sum size w w') : Reaches sum size w' := by
  obtain ⟨d, hd⟩ := hw
  exact ⟨d, hd.tail (.step w' h)⟩

theorem slotAt_noSlot (h : d.read (slotOffset i) 4 ≠ slotMagic) : slotAt sum d i = .error .noSlot := by
  have hslice : slice (d.read (slotOffset i) slotLength) 0 4 = d.read (slotOffset i) 4 := by
    rw [Disk.slice_read (by decide), Nat.add_zero]
  rw [slotAt_eq, decodeSlot, hslice, if_pos (.inr (.inl h))]

/-- What reading back accepts begins with the magic, its head is the one on the disk, of that position
and of the journal's generation, and its bytes are those on the disk. -/
theorem entryAt_some {j : Journal} {h : Head} {b : Bytes} (he : j.entryAt sum d position = some (h, b)) :
    d.view (j.offset position) = 0x53 ∧
      decodeHead (d.read (j.offset position) entryHeadBytes) = some h ∧
      h.generation = j.generation ∧ h.position = position ∧
      b = d.read (j.offset position) h.length := by
  obtain ⟨-, he⟩ := Option.ite_none_left_eq_some.mp he
  obtain ⟨h', hdecode, he⟩ := Option.bind_eq_some_iff.mp he
  have hmagic : slice (d.read (j.offset position) entryHeadBytes) 0 4 = entryMagic := by
    by_contra hne
    rw [decodeHead, if_pos (.inr (.inl hne))] at hdecode
    cases hdecode
  split at he
  · cases he
  · next hcond =>
    split at he
    · cases he
    · obtain ⟨rfl, hb⟩ := Prod.mk.injEq .. ▸ Option.some.injEq .. ▸ he
      refine ⟨?_, hdecode, by_contra fun hne => hcond (.inr (.inl hne)),
        by_contra fun hne => hcond (.inl hne), hb.symm⟩
      rw [Disk.slice_read (by decide)] at hmagic
      exact Option.some.inj (congrArg head? hmagic)

/-- A journal that has read a ring back and found nothing there. -/
def Journal.emptied (j : Journal) : Journal :=
  { j with live := [], written := j.header.tail, next := j.header.tail, tail := j.header.tail }

theorem readBack_none {j : Journal} (hlen : 0 < j.ringLength) (h : j.entryAt sum d j.header.tail = none) :
    j.readBack sum d = j.emptied := by
  have hscan : j.scan sum d j.header.tail j.ringLength j.header.tail [] = ([], j.header.tail) := by
    obtain ⟨n, hn⟩ : ∃ n, j.ringLength = n + 1 := ⟨j.ringLength - 1, by omega⟩
    rw [hn, Journal.scan, h]
    split <;> rfl
  unfold Journal.readBack
  rw [hscan]
  rfl

theorem openDone_none {j : Journal} (hp : w.proc = .readingBack j) (hlen : 0 < j.ringLength)
    (h : ∀ position, j.entryAt sum w.disk position = none) :
    Step sum size w { w with proc := .running j.emptied .idle } := by
  rw [← readBack_none hlen (h _)]
  refine .openDone j hp fun position hd b he => ?_
  rw [h position] at he
  cases he

/-- The disk once `s` is written into slot `i` and synced. -/
def slotSynced (sum : Checksum) (d : Disk) (i : Fin 2) (s : Slot) : Disk :=
  (d.write (writesAt (slotOffset i) (encodeSlot sum s))).sync

/-- Slots that decode hold what was written there, where each is read as such or decodes to nothing. -/
theorem genuineSlots_of
    (h0 : slotAt sum d 0 = .error .noSlot ∨ ∃ t, (0, t) ∈ slots ∧ d.read (slotOffset 0) slotLength = slotImage sum t)
    (h1 : slotAt sum d 1 = .error .noSlot ∨ ∃ t, (1, t) ∈ slots ∧ d.read (slotOffset 1) slotLength = slotImage sum t) :
    GenuineSlots sum d slots := by
  intro i s hs
  rcases slot_index 0 i with rfl | rfl
  · exact h0.resolve_left fun hnone => by cases hnone.symm.trans hs
  · exact h1.resolve_left fun hnone => by cases hnone.symm.trans hs

theorem open_formats {config : Config} {j : Journal} (hp : w.proc = .closed)
    (hsize : ringOffset + minRingSize ≤ size) (h0 : slotAt sum w.disk 0 = .error .noSlot)
    (h1 : slotAt sum w.disk 1 = .error .noSlot) (hj : found config (formatSlot config size g) 1 true = j)
    (hf : j.leaseSlot.Fits) :
    Relation.ReflTransGen (SteadyStep sum size) w
      { w with disk := w.disk.write (writesAt (slotOffset 0) (encodeSlot sum j.leaseSlot))
               proc := .opening j .sync
               slots := w.slots ++ [(0, j.leaseSlot)] } := by
  have hheader : readHeader sum w.disk = .error .noSlot := by
    rw [readHeader, h0, h1]
    rfl
  have hopen : openHeader sum config size g w.disk = .ok j := by
    rw [openHeader, if_neg (by omega), hheader, hj]
  have hgenuine : GenuineSlots sum w.disk w.slots := genuineSlots_of (.inl h0) (.inl h1)
  have hother : j.other = 0 := by
    rw [← hj]
    exact (by decide : (1 - 1 : Fin 2) = 0)
  have hread : SteadyStep sum size w _ := ⟨.step _ (.openRead config g j hp hgenuine hopen hf),
    fun _ _ _ _ s i hs => absurd (hheader.symm.trans hs) (by simp)⟩
  have hwritten := @SlotStep.written sum j.other j.leaseSlot w.disk
  rw [hother] at hread hwritten
  generalize w.disk.write (writesAt (slotOffset 0) (encodeSlot sum j.leaseSlot)) = d at *
  refine .tail (.single hread) (.of_ne (.openSlot j .write .sync d rfl ?_) (by simp))
  rw [hother]
  exact hwritten

theorem slotSynced_view (d : Disk) (i : Fin 2) (s : Slot) (ho : ringOffset ≤ o) :
    (slotSynced sum d i s).view o = d.view o := by
  rw [slotSynced, Disk.view_sync, Disk.view_write, apply_of_notMem]
  intro x hx
  have hlt := (mem_slotWrites hx).2
  have hle := slotOffset_le i
  omega

/-- A commit of one entry on an idle journal is taken, placed, written, synced and answered. -/
theorem commit_leads {j : Journal} {c : Commit} {e : Entry} {p : Placement} {images : List Stored}
    {answered owed : List Answer} (hqueue : j.queue = []) (hroom : j.admits c.room)
    (hfit : ({ j with queue := [c] } : Journal).fitting = 1) (hcapture : capture c (some [e]) = some [e])
    (hplace : p = j.place [some [e]]) (himage : p.image ≠ []) (hstop : p.stop < 2 ^ 64) (d : Disk) :
    Relation.ReflTransGen (SteadyStep sum size)
      ⟨d, .running j .idle, slots, images, answered, owed⟩
      ⟨(d.write ((j.afterPlace p).batchWrites sum p)).sync,
        .running ((j.afterPlace p).complete p true) .idle, slots, images ++ p.image,
        answered ++ answers [(c, some [e])] p, owed ++ answers [(c, some [e])] p⟩ := by
  have hrefuses : ¬ j.refuses := (of_decide_eq_true hroom).2
  have hcommit : Step sum size ⟨d, .running j .idle, slots, images, answered, owed⟩ _ :=
    .call j _ .idle rfl (.commit c hroom)
  rw [hqueue] at hcommit
  have htake : Step sum size
      ⟨d, .running { j with queue := [c] } .idle, slots, images, answered, owed⟩ _ :=
    .batch _ _ .idle _ _ rfl (.take hrefuses (by rw [hfit]; exact Nat.one_pos))
  rw [hfit] at htake
  have hidle : { j with queue := List.drop 1 [c] } = j := by
    show { j with queue := [] } = j
    rw [← hqueue]
  have hplaced : Step sum size
      ⟨d, .running j (.capturing [c]), slots, images, answered, owed⟩ _ :=
    .place j [c] [some [e]] p rfl rfl (by rw [List.zipWith, hcapture]; exact hplace) hstop
  have hwriter : placedWriter ([c].zip ([c].zipWith capture [some [e]])) p =
      .writing [(c, some [e])] p := by
    rw [List.zipWith, hcapture]
    exact if_neg himage
  rw [hwriter] at hplaced
  generalize j.afterPlace p = k at hplaced ⊢
  have hwritten : Step sum size
      ⟨d, .running k (.writing [(c, some [e])] p), slots, images ++ p.image, answered, owed⟩ _ :=
    .batch k k _ _ _ rfl (.written _ _)
  have hsynced : ∀ d', Step sum size
      ⟨d', .running k (.syncing [(c, some [e])] p), slots, images ++ p.image, answered, owed⟩ _ :=
    fun d' => .batch k k _ _ _ rfl (.synced _ _)
  have hcomplete : ∀ d', Step sum size
      ⟨d', .running k (.completing [(c, some [e])] p true), slots, images ++ p.image, answered, owed⟩
      _ := fun d' => .complete k [(c, some [e])] p true rfl
  rw [hidle] at htake
  exact .head (.of_ne hcommit (by simp)) (.head (.of_ne htake (by simp))
    (.head (.of_ne hplaced (by simp)) (.head (.of_ne hwritten (by simp))
      (.head (.of_ne (hsynced _) (by simp)) (.single (.of_ne (hcomplete _) (by simp)))))))

/-! ### One commit on a new disk -/

theorem length_sixteen : (zeros 16).length = 16 := rfl

def sampleConfig : Config := ⟨⟨zeros 16, length_sixteen⟩, ⟨1, ⟨zeros 16, length_sixteen⟩⟩⟩

/-- Two slots and the smallest ring. -/
def sampleSize : Nat := 24576

def sampleSlot (counter : Nat) (generation : UInt64) : Slot where
  empty := false
  counter := counter
  identity := sampleConfig.identity
  generation := generation
  ringStart := 8192
  ringLength := 16384
  tail := 16384
  lease := sampleConfig.lease

/-- The journal of a disk just formatted. -/
def sampleJournal (generation : UInt64) : Journal where
  lease := sampleConfig.lease
  identity := sampleConfig.identity
  generation := generation
  ringStart := 8192
  ringLength := 16384
  formatted := true
  header := sampleSlot 1 generation
  current := 0
  tail := 16384
  written := 16384
  next := 16384

def sampleEntry : Entry := { vm := [97], epoch := 1 }

def sampleCommit : Commit := ⟨0, 72⟩

def samplePlacement : Placement where
  start := 16384
  stop := 20480
  image := [⟨16384, 7, .blocks sampleEntry⟩, ⟨16456, 7, .pad 4024⟩]
  entries := [⟨16384, 72, [97], 1, false⟩]
  positions := [some [16384]]

def sampleAnswer : Answer := ⟨0, 16384, sampleEntry⟩

def sampleDisk (sum : Checksum) : Disk := slotSynced sum ⟨fun _ => 0, []⟩ 0 (sampleSlot 1 7)

theorem sampleSlot_fits {c : Nat} (hc : c < 2 ^ 64) (g : UInt64) : (sampleSlot c g).Fits :=
  ⟨hc, (by decide : 8192 < 2 ^ 64), (by decide : 16384 < 2 ^ 64), (by decide : 16384 < 2 ^ 64)⟩

theorem readHeader_sampleSlot (h0 : d.read (slotOffset 0) slotLength = slotImage sum (sampleSlot 1 7))
    (h1 : slotAt sum d 1 = .error .noSlot) : readHeader sum d = .ok (sampleSlot 1 7, 0) := by
  rw [readHeader, slotAt_of_read (sampleSlot_fits (by decide) 7) h0, h1]
  rfl

/-- The journal before it takes the lease of a disk it formats. -/
def sampleFound (generation : UInt64) : Journal :=
  { sampleJournal generation with
    header := { sampleSlot 0 generation with lease := ⟨0, ⟨zeros 16, length_sixteen⟩⟩ }
    current := 1
    tail := 0
    written := 0
    next := 0 }

theorem sample_formatting (hp : w.proc = .closed) (h0 : slotAt sum w.disk 0 = .error .noSlot)
    (h1 : slotAt sum w.disk 1 = .error .noSlot) :
    Relation.ReflTransGen (SteadyStep sum sampleSize) w
      { w with disk := w.disk.write (writesAt (slotOffset 0) (encodeSlot sum (sampleSlot 1 g)))
               proc := .opening (sampleFound g) .sync
               slots := w.slots ++ [(0, sampleSlot 1 g)] } := by
  have hslot : (sampleFound g).leaseSlot = sampleSlot 1 g := rfl
  have hformat : Relation.ReflTransGen (SteadyStep sum sampleSize) w _ :=
    open_formats hp (by decide) h0 h1 (rfl : _ = sampleFound g) (hslot ▸ sampleSlot_fits (by decide) g)
  rw [hslot] at hformat
  exact hformat

theorem sample_readBack (hp : w.proc = .readingBack ((sampleFound g).tookSlot (sampleSlot 1 g)))
    (hring : ∀ j : Journal, j.generation = g → j.ringStart = 8192 → ∀ position, j.entryAt sum w.disk position = none) :
    Step sum sampleSize w { w with proc := .running (sampleJournal g) .idle } := by
  have hother : (sampleFound g).other = 0 := (by decide : (1 - 1 : Fin 2) = 0)
  have htook : (sampleFound g).tookSlot (sampleSlot 1 g) =
      { sampleFound g with header := sampleSlot 1 g, current := 0 } := by
    rw [Journal.tookSlot, hother]
  have hemptied : ((sampleFound g).tookSlot (sampleSlot 1 g)).emptied = sampleJournal g := by
    rw [htook]
    rfl
  rw [← hemptied]
  exact openDone_none hp (by decide : 0 < 16384) (hring _ rfl rfl)

theorem sample_formats (hp : w.proc = .closed) (h0 : slotAt sum w.disk 0 = .error .noSlot)
    (h1 : slotAt sum w.disk 1 = .error .noSlot)
    (hring : ∀ j : Journal, j.generation = g → j.ringStart = 8192 → ∀ position, j.entryAt sum (slotSynced sum w.disk 0 (sampleSlot 1 g)) position = none) :
    Relation.ReflTransGen (SteadyStep sum sampleSize) w
      { w with disk := slotSynced sum w.disk 0 (sampleSlot 1 g)
               proc := .running (sampleJournal g) .idle
               slots := w.slots ++ [(0, sampleSlot 1 g)] } :=
  .tail (.tail (sample_formatting hp h0 h1) (.of_ne (.openSynced _ rfl) (by simp)))
    (.of_ne (sample_readBack rfl hring) (by simp))

/-- The world of one journal disk, with the journal at `j` and its writer at `wr`. -/
def sampleWorld (d : Disk) (j : Journal) (wr : Writer) (images : List Stored)
    (owed : List Answer) : World :=
  ⟨d, .running j wr, [(0, sampleSlot 1 7)], images, owed, owed⟩

@[simp] theorem sampleWorld_proc (d : Disk) (j : Journal) (wr : Writer) (images : List Stored)
    (owed : List Answer) : (sampleWorld d j wr images owed).proc = .running j wr := rfl

theorem blank_slot (i : Fin 2) : slotAt sum ⟨fun _ => 0, []⟩ i = .error .noSlot :=
  slotAt_noSlot (by simp [Disk.read, Disk.view, apply, slotMagic])

theorem sampleDisk_ring {j : Journal} (hstart : j.ringStart = 8192) (position : Nat) :
    j.entryAt sum (sampleDisk sum) position = none := by
  by_contra hne
  obtain ⟨⟨h, b⟩, he⟩ := Option.ne_none_iff_exists'.mp hne
  have hview := (entryAt_some he).1
  rw [sampleDisk, slotSynced_view _ _ _
    (by rw [Journal.offset, hstart]; exact Nat.le_add_right _ _)] at hview
  cases hview

theorem sample_opened :
    SteadyReaches sum sampleSize (sampleWorld (sampleDisk sum) (sampleJournal 7) .idle [] []) :=
  ⟨fun _ => 0, sample_formats (w := .blank fun _ => 0) rfl (blank_slot 0) (blank_slot 1)
    fun _ _ hstart position => sampleDisk_ring hstart position⟩

/-- The disk once the batch is on it. -/
def sampleBatchDisk (sum : Checksum) : Disk :=
  ((sampleDisk sum).write
    (((sampleJournal 7).afterPlace samplePlacement).batchWrites sum samplePlacement)).sync

/-- The journal once the commit is answered. -/
def sampleAnsweredJournal : Journal :=
  ((sampleJournal 7).afterPlace samplePlacement).complete samplePlacement true

theorem sample_answered : SteadyReaches sum sampleSize (sampleWorld (sampleBatchDisk sum)
    sampleAnsweredJournal .idle samplePlacement.image [sampleAnswer]) := by
  obtain ⟨d, hd⟩ := @sample_opened sum
  exact ⟨d, hd.trans (commit_leads (c := sampleCommit) (e := sampleEntry) (p := samplePlacement) rfl
    (by decide) (by decide) (by decide) rfl (by decide) (by decide) _)⟩

/-- A small digest, of the first 88 bytes. -/
def sampleSum : Checksum := fun b =>
  ⟨le 16 ((b.take 88).foldl (fun a x => (a * 31 + x.toNat) % 65521) 1), length_le _ _⟩

/-- The theorem at a journal that has answered one commit. -/
theorem open_journal_holds_answered_sample :
    HoldsAnswer sampleSum (sampleWorld (sampleBatchDisk sampleSum) sampleAnsweredJournal .idle
      samplePlacement.image [sampleAnswer]) sampleAnsweredJournal sampleAnswer :=
  open_journal_holds_answered sample_answered rfl sampleAnswer mem_cons_self

/-! ### A header taken for durable

`Open` writes a header whose sync fails. The next one takes that header for the current one and
starts to write over the other slot, which is the durable one. A loss of power then leaves neither.
-/

/-- The header `n` writes later, as long as only its counter moves. -/
def Slot.after (s : Slot) (n : Nat) : Slot := { s with counter := s.counter + n }

/-- `Open` under `config` goes on with the header `s`, and takes the lease with the one after it. -/
structure Slot.Opens (s : Slot) (config : Config) (size : Nat) : Prop where
  identity : s.identity = config.identity
  ring : s.ringFits size
  lease : s.lease = config.lease
  empty : s.empty = false

theorem Slot.Opens.after {config : Config} (hs : s.Opens config size) (n : Nat) :
    (s.after n).Opens config size :=
  { hs with }

theorem openHeader_found {config : Config} (hsize : ringOffset + minRingSize ≤ size)
    (hidentity : s.identity = config.identity) (hring : s.ringFits size)
    (hlease : s.leasedAway config.lease = false) (hr : readHeader sum d = .ok (s, i))
    (generation : UInt64) : openHeader sum config size generation d = .ok (found config s i false) := by
  unfold openHeader
  rw [if_neg (by omega), hr]
  exact (if_neg (not_not_intro hidentity)).trans
    ((if_neg (not_not_intro hring)).trans (if_neg (by rw [hlease]; simp)))

theorem Slot.Opens.leaseSlot {config : Config} (hs : s.Opens config size) (i : Fin 2) :
    (found config s i false).leaseSlot = s.after 1 := by
  have hlease : config.lease = s.lease := hs.lease.symm
  have hempty : false = s.empty := hs.empty.symm
  show { s with empty := false, counter := s.counter + 1, lease := config.lease } = s.after 1
  rw [hlease, hempty]
  rfl

/-- `Open` of a disk whose header is `s`, in slot `i`. -/
theorem Slot.Opens.step {config : Config} (hs : s.Opens config size)
    (hsize : ringOffset + minRingSize ≤ size) (hp : w.proc = .closed) (hf : (s.after 1).Fits)
    (hg : GenuineSlots sum w.disk w.slots) (hr : readHeader sum w.disk = .ok (s, i)) :
    Step sum size w { w with proc := .opening (found config s i false) .write
                             slots := w.slots ++ [(1 - i, s.after 1)] } := by
  have hlease : s.leasedAway config.lease = false := by simp [Slot.leasedAway, hs.lease]
  have hopen := openHeader_found hsize hs.identity hs.ring hlease hr 0
  rw [← hs.leaseSlot i] at hf ⊢
  exact .openRead config 0 (found config s i false) hp hg hopen hf

theorem readHeader_of_slots {c : Fin 2} {a b : Slot} (ha : slotAt sum d c = .ok a)
    (hb : slotAt sum d (1 - c) = .ok b) (hlt : a.counter < b.counter) :
    readHeader sum d = .ok (b, 1 - c) := by
  unfold readHeader
  rcases slot_index 0 c with rfl | rfl
  · have hb' : slotAt sum d 1 = .ok b := hb
    rw [ha, hb']
    exact if_pos hlt
  · have ha' : slotAt sum d 1 = .ok a := ha
    have hb' : slotAt sum d 0 = .ok b := hb
    rw [ha', hb']
    exact if_neg (by omega)

theorem Slot.Fits.after_le {m : Nat} (hf : (s.after n).Fits) (hle : m ≤ n) : (s.after m).Fits := by
  have hcounter : s.counter + n < 2 ^ 64 := hf.counter
  exact { hf with counter := show s.counter + m < 2 ^ 64 by omega }

/-- The disk with `s` written into slot `i` and not synced. -/
def slotWritten (sum : Checksum) (d : Disk) (i : Fin 2) (s : Slot) : Disk :=
  d.write (writesAt (slotOffset i) (encodeSlot sum s))

theorem slotWritten_read (d : Disk) (c : Fin 2) (s : Slot) :
    (slotWritten sum d (1 - c) s).read (slotOffset c) slotLength =
      d.read (slotOffset c) slotLength := by
  refine Disk.read_write_of_disjoint fun v hv => ?_
  obtain ⟨hge, hlt⟩ := mem_slotWrites hv
  have hlength : slotLength ≤ slotBytes := by decide
  rcases slotOffset_disjoint hge hlt with h | h
  · exact .inl h
  · exact .inr (by omega)

section Torn

variable {config : Config} {a : Slot} {c : Fin 2}

theorem Slot.Opens.unsynced (ha : a.Opens config size) (hsize : ringOffset + minRingSize ≤ size)
    (hf : (a.after 1).Fits) (hp : w.proc = .closed) (hg : GenuineSlots sum w.disk w.slots)
    (hr : readHeader sum w.disk = .ok (a, c)) : Relation.ReflTransGen (Event sum size) w
      { w with disk := slotWritten sum w.disk (1 - c) (a.after 1)
               proc := .closed
               slots := w.slots ++ [(1 - c, a.after 1)] } := by
  have hopen := ha.step hsize hp hf hg hr
  have hwrite : SlotStep sum (1 - c) (a.after 1) w.disk .write
    (slotWritten sum w.disk (1 - c) (a.after 1)) .sync := .written
  rw [← ha.leaseSlot c] at hwrite
  have hwritten : Step sum size _ _ := .openSlot
    (w := { w with proc := .opening (found config a c false) .write
                   slots := w.slots ++ [(1 - c, a.after 1)] })
    (found config a c false) .write .sync _ rfl hwrite
  rw [ha.leaseSlot c] at hwritten
  exact ((Relation.ReflTransGen.single (.step _ hopen)).tail (.step _ hwritten)).tail (.step _ .ends)

theorem unsynced_header (hf : (a.after 1).Fits) (hg : GenuineSlots sum w.disk w.slots)
    (hr : readHeader sum w.disk = .ok (a, c)) :
    GenuineSlots sum (slotWritten sum w.disk (1 - c) (a.after 1))
        (w.slots ++ [(1 - c, a.after 1)]) ∧
      readHeader sum (slotWritten sum w.disk (1 - c) (a.after 1)) = .ok (a.after 1, 1 - c) := by
  have hc := (readHeader_ok hr).1
  have hslot : slotAt sum (slotWritten sum w.disk (1 - c) (a.after 1)) (1 - c) =
      .ok (a.after 1) := slotAt_of_read hf (read_slotWrites _ _ _)
  have hslot' : slotAt sum (slotWritten sum w.disk (1 - c) (a.after 1)) c = .ok a := by
    rw [slotAt_eq, slotWritten_read, ← slotAt_eq]
    exact hc
  refine ⟨fun i s hs => ?_, readHeader_of_slots hslot' hslot (Nat.lt_succ_self _)⟩
  rcases slot_index c i with rfl | rfl
  · obtain ⟨t, ht, hread⟩ := hg i a hc
    exact ⟨t, mem_append_left _ ht, (slotWritten_read _ _ _).trans hread⟩
  · exact ⟨a.after 1, mem_append_right _ mem_cons_self, read_slotWrites _ _ _⟩

/-- What a loss of power leaves of a disk as slot `c` is written over: the byte `x` of the new header,
where its counter is lowest. -/
def tornAt (d : Disk) (c : Fin 2) (x : UInt8) : Disk :=
  ⟨Function.update d.durable (slotOffset c + 8) x, []⟩

theorem tornAt_view {x : UInt8} (hd : d.pending = []) (ho : o ≠ slotOffset c + 8) :
    (tornAt d c x).view o = d.view o := by
  rw [Disk.view, Disk.view, hd]
  exact Function.update_of_ne ho _ _

theorem tornAt_read_of_ne {x : UInt8} {off : Nat} (hd : d.pending = [])
    (h : off + n ≤ slotOffset c + 8 ∨ slotOffset c + 8 < off) :
    (tornAt d c x).read off n = d.read off n := by
  refine map_congr_left fun i hi => tornAt_view hd ?_
  have := mem_range.mp hi
  omega

theorem tornAt_read (hd : d.pending = []) (c : Fin 2) (x : UInt8) :
    (tornAt d c x).read (slotOffset c) slotLength =
      (d.read (slotOffset c) slotLength).set 8 x := by
  apply ext_getElem (by simp)
  intro i _ _
  rw [getElem_set, Disk.getElem_read, Disk.getElem_read]
  split
  · next h =>
    subst h
    exact Function.update_self _ _ _
  · next h => exact tornAt_view hd (by omega)

/-- Power is lost as the durable header, in slot `c`, is written over. What is left is the disk as
it was, but for one byte of the new header in that slot. -/
theorem header_torn {x : UInt8} (ha : a.Opens config size)
    (hsize : ringOffset + minRingSize ≤ size) (hf : (a.after 2).Fits)
    (hx : (slotOffset c + 8, x) ∈ writesAt (slotOffset c) (encodeSlot sum (a.after 2)))
    (hp : w.proc = .closed) (hg : GenuineSlots sum w.disk w.slots)
    (hr : readHeader sum w.disk = .ok (a, c)) : Relation.ReflTransGen (Event sum size) w
      { w with disk := tornAt w.disk c x
               proc := .closed
               slots := w.slots ++ [(1 - c, a.after 1), (c, a.after 2)] } := by
  have hf1 := hf.after_le (m := 1) (by decide)
  obtain ⟨hg₁, hr₁⟩ := unsynced_header hf1 hg hr
  have hfirst := ha.unsynced hsize hf1 hp hg hr
  set d := slotWritten sum w.disk (1 - c) (a.after 1) with hd
  have hopen : Step sum size _ _ := (ha.after 1).step hsize
    (w := ⟨d, .closed, w.slots ++ [(1 - c, a.after 1)], w.images, w.answered, w.owed⟩)
    rfl hf hg₁ hr₁
  rw [other_other, append_assoc] at hopen
  -- one byte of the new header reaches the slot
  have htear : SlotStep sum (found config (a.after 1) (1 - c) false).other
      (found config (a.after 1) (1 - c) false).leaseSlot d .write
      (d.write [(slotOffset c + 8, x)]) .write := by
    refine .tear _ (singleton_sublist.mpr ?_)
    rw [show (found config (a.after 1) (1 - c) false).other = c from other_other c,
      (ha.after 1).leaseSlot]
    exact hx
  have htorn : Step sum size _ _ := .openSlot
    (w := ⟨d, .opening (found config (a.after 1) (1 - c) false) .write,
      w.slots ++ [(1 - c, a.after 1), (c, a.after 2)], w.images, w.answered, w.owed⟩)
    (found config (a.after 1) (1 - c) false) .write .write _ rfl htear
  have hcrash : (d.write [(slotOffset c + 8, x)]).Crash (tornAt w.disk c x) := by
    refine ⟨rfl, fun o => ?_⟩
    by_cases ho : o = slotOffset c + 8
    · subst ho
      exact .inr (mem_append_right _ (by simp [tornAt]))
    · exact .inl (Function.update_of_ne ho _ _)
  exact ((hfirst.tail (.step _ hopen)).tail (.step _ htorn)).tail (.powerLoss _ hcrash)

end Torn

/-- Where a byte of the ring is the magic's first after a batch, a record of the batch begins there,
as long as none holds that byte further in. -/
theorem magic_at_record {j : Journal} {p : Placement} (hL : 0 < j.ringLength)
    (hring : OnRing j.ringLength g p.image p.start p.stop)
    (hfirst : ∀ s ∈ p.image, 0x53 ∉ (s.bytes sum).tail) (hd : d.view o ≠ 0x53)
    (h : (d.write (j.batchWrites sum p)).view o = 0x53) : ∃ s ∈ p.image, o = j.offset s.position := by
  rw [Disk.view_write] at h
  rcases apply_eq_or_mem d.view (j.batchWrites sum p) o with he | he
  · exact absurd (he.symm.trans h) hd
  · rw [h] at he
    have hbyte := (mem_writes_iff hL (Nat.le_refl _)).mp he
    obtain ⟨s, hs, i, hi, ho, hx⟩ := ByteAt.record sum hring hbyte
    cases i with
    | zero => exact ⟨s, hs, ho⟩
    | succ i =>
      refine absurd ?_ (hfirst s hs)
      rw [hx, mem_iff_getElem]
      exact ⟨i, by rw [length_tail]; omega, by rw [getElem_tail]⟩

/-! ### A ring of blocks

Every batch here is one entry and a pad to the block's end, so that a batch takes the place of an
older one in whole.
-/

/-- The records of a batch that begins at `a`. -/
def blockImage (a : Nat) : List Stored := [⟨a, 7, .blocks sampleEntry⟩, ⟨a + 72, 7, .pad 4024⟩]

def blockPlacement (a : Nat) : Placement where
  start := a
  stop := a + 4096
  image := blockImage a
  entries := [⟨a, 72, [97], 1, false⟩]
  positions := [some [a]]

theorem mem_blockImage {a : Nat} {s : Stored} (hs : s ∈ blockImage a) :
    (s = ⟨a, 7, .blocks sampleEntry⟩ ∧ s.position = a ∧ s.size = 72) ∨
      (s = ⟨a + 72, 7, .pad 4024⟩ ∧ s.position = a + 72 ∧ s.size = 4024) := by
  simp only [blockImage, mem_cons, not_mem_nil, or_false] at hs
  rcases hs with rfl | rfl
  · exact .inl ⟨rfl, rfl, rfl⟩
  · exact .inr ⟨rfl, rfl, rfl⟩

theorem canBegin_of {a : Nat} (h8 : a % 8 = 0) (hroom : a % 16384 ≤ 16320) : CanBegin 16384 a :=
  ⟨h8, show 64 ≤ 16384 - a % 16384 by omega⟩

theorem blockImage_onRing {a : Nat} (ha : a % 4096 = 0) :
    OnRing 16384 7 (blockImage a) a (a + 4096) where
  tiles := ⟨rfl, rfl, rfl⟩
  each := by
    have hfirst := canBegin_of (a := a) (by omega) (by omega)
    have hpad := canBegin_of (a := a + 72) (by omega) (by omega)
    have hafter := canBegin_of (a := a + 72 + 4024) (by omega) (by omega)
    intro s hs
    rcases mem_blockImage hs with ⟨rfl, -, -⟩ | ⟨rfl, -, -⟩
    · exact ⟨(by decide : sampleEntry.check), hfirst, show a % 16384 + 72 ≤ 16384 by omega, hpad⟩
    · exact ⟨(by decide : 64 ≤ 4024 ∧ 4024 % 8 = 0 ∧ 4024 ≤ 16777216), hpad,
        show (a + 72) % 16384 + 4024 ≤ 16384 by omega, hafter⟩
  generation := by
    intro s hs
    rcases mem_blockImage hs with ⟨rfl, -, -⟩ | ⟨rfl, -, -⟩ <;> rfl

/-- The batches that begin at `starts` are what the ring of `d` holds: wherever the magic's first byte
is, one of their records is. -/
def RingShows (d : Disk) (starts : List Nat) : Prop :=
  ∀ o, ringOffset ≤ o → d.view o = 0x53 → ∃ a ∈ starts, ∃ s ∈ blockImage a,
    o = s.place 16384 ∧ d.read o s.size = s.bytes sampleSum

/-- Nothing but the first byte of a record is the magic's. -/
def Plain (a : Nat) : Prop := ∀ s ∈ blockImage a, 0x53 ∉ (s.bytes sampleSum).tail

section Block

variable {j : Journal} {a : Nat}

/-- The disk with a batch on it. -/
def blockWritten (j : Journal) (d : Disk) (a : Nat) : Disk :=
  (d.write (j.batchWrites sampleSum (blockPlacement a))).sync

variable (hstart : j.ringStart = 8192) (hlength : j.ringLength = 16384) (ha : a % 4096 = 0)

include hlength ha in
theorem blockPlacement_onRing : OnRing j.ringLength 7 (blockPlacement a).image a (a + 4096) := by
  rw [hlength]
  exact blockImage_onRing ha

include hstart hlength ha

theorem mem_blockWrites {x : Write} (hx : x ∈ j.batchWrites sampleSum (blockPlacement a)) :
    8192 + a % 16384 ≤ x.1 ∧ x.1 < 8192 + a % 16384 + 4096 := by
  obtain ⟨q, hge, hlt, hq⟩ :=
    mem_batchWrites sampleSum (by omega) (blockPlacement_onRing hlength ha) hx
  rw [Journal.offset, hstart, hlength] at hq
  have hle : a ≤ q := hge
  have hlt' : q < a + 4096 := hlt
  omega

theorem blockWritten_view (ho : o < 8192 + a % 16384 ∨ 8192 + a % 16384 + 4096 ≤ o) :
    (blockWritten j d a).view o = d.view o := by
  rw [blockWritten, Disk.view_sync, Disk.view_write]
  refine apply_of_notMem _ fun x hx => ?_
  have := mem_blockWrites hstart hlength ha hx
  omega

theorem blockWritten_record {s : Stored} (hs : s ∈ blockImage a) :
    (blockWritten j d a).read (s.place 16384) s.size = s.bytes sampleSum := by
  have hread := read_batchWrites sampleSum d (by omega) (blockPlacement_onRing hlength ha)
    (by rw [hlength]; exact Nat.add_le_add_left (by decide) a) hs
  rw [Journal.offset, hstart, hlength] at hread
  exact hread

/-- A batch takes the place of the one a turn before it. -/
theorem RingShows.batch (hd : RingShows d starts) (hstarts : ∀ b ∈ starts, b % 4096 = 0)
    (hplain : Plain a) :
    RingShows (blockWritten j d a) (starts.filter (fun b => b % 16384 ≠ a % 16384) ++ [a]) := by
  intro o ho hview
  have hnew : ∀ s ∈ blockImage a, o = s.place 16384 →
      ∃ b ∈ starts.filter (fun b => b % 16384 ≠ a % 16384) ++ [a], ∃ t ∈ blockImage b,
        o = t.place 16384 ∧ (blockWritten j d a).read o t.size = t.bytes sampleSum := by
    rintro s hs rfl
    exact ⟨a, mem_append_right _ mem_cons_self, s, hs, rfl,
      blockWritten_record hstart hlength ha hs⟩
  by_cases hold : d.view o = 0x53
  · obtain ⟨b, hb, s, hs, rfl, hread⟩ := hd o ho hold
    have hb4 := hstarts b hb
    by_cases hsame : b % 16384 = a % 16384
    · -- the batch's own record lies where the older one lay
      rcases mem_blockImage hs with ⟨rfl, -, -⟩ | ⟨rfl, -, -⟩
      · refine hnew ⟨a, 7, .blocks sampleEntry⟩ mem_cons_self ?_
        show 8192 + b % 16384 = 8192 + a % 16384
        omega
      · refine hnew ⟨a + 72, 7, .pad 4024⟩ (mem_cons_of_mem _ mem_cons_self) ?_
        show 8192 + (b + 72) % 16384 = 8192 + (a + 72) % 16384
        omega
    · refine ⟨b, mem_append_left _ (mem_filter.mpr ⟨hb, by simpa using hsame⟩), s, hs, rfl, ?_⟩
      rw [← hread]
      refine map_congr_left fun i hi => blockWritten_view hstart hlength ha ?_
      have hi := mem_range.mp hi
      have hplace : s.place 16384 = 8192 + s.position % 16384 := rfl
      rcases mem_blockImage hs with ⟨-, hpos, hsize⟩ | ⟨-, hpos, hsize⟩
      · rw [hplace, hpos]
        omega
      · rw [hplace, hpos]
        omega
  · obtain ⟨s, hs, hos⟩ :=
      magic_at_record (by omega) (blockPlacement_onRing hlength ha) hplain hold hview
    refine hnew s hs ?_
    rw [hos, Journal.offset, hstart, hlength]
    rfl

end Block

theorem RingShows.congr (hd : RingShows d starts) (h : ∀ o, ringOffset ≤ o → d'.view o = d.view o) :
    RingShows d' starts := by
  intro o ho hview
  obtain ⟨a, ha, s, hs, hplace, hread⟩ := hd o ho ((h o ho).symm.trans hview)
  refine ⟨a, ha, s, hs, hplace, ?_⟩
  rw [← hread]
  exact map_congr_left fun i _ => h (o + i) (by omega)

/-- What reading back accepts there is one of the batches' records, at its own position. -/
theorem RingShows.entryAt (hd : RingShows d starts) (hstarts : ∀ a ∈ starts, a % 4096 = 0 ∧ a < 2 ^ 32)
    {j : Journal} (hstart : j.ringStart = 8192) {h : Head} {b : Bytes}
    (he : j.entryAt sampleSum d position = some (h, b)) :
    ∃ a ∈ starts, ∃ s ∈ blockImage a, h = s.head ∧ s.position = position ∧ b = s.bytes sampleSum := by
  obtain ⟨hview, hhead, -, hposition, hb⟩ := entryAt_some he
  have hbase : ringOffset ≤ j.offset position := by
    rw [Journal.offset, hstart]
    exact Nat.le_add_right _ _
  obtain ⟨a, ha, s, hs, -, hread⟩ := hd _ hbase hview
  obtain ⟨ha4, hlt⟩ := hstarts a ha
  have hring := (blockImage_onRing ha4).each s hs
  have hpos : s.position < 2 ^ 64 := by
    rcases mem_blockImage hs with ⟨-, hpos, -⟩ | ⟨-, hpos, -⟩ <;> omega
  -- the head on the disk is the record's
  have hsize : 0 + entryHeadBytes ≤ s.size := hring.wellFormed.size_ge.trans' (by decide)
  have hslice : d.read (j.offset position) entryHeadBytes =
      slice (s.bytes sampleSum) 0 entryHeadBytes := by
    rw [← hread, Disk.slice_read hsize, Nat.add_zero]
  rw [hslice, s.decodeHead_slice sampleSum hring.wellFormed hpos] at hhead
  obtain rfl := Option.some.inj hhead
  rw [s.head_position] at hposition
  rw [s.head_length, hread] at hb
  exact ⟨a, ha, s, hs, rfl, hposition, hb⟩

theorem slotRead_congr (h : ∀ o < ringOffset, d'.view o = d.view o) (i : Fin 2) (hn : n ≤ slotBytes) :
    d'.read (slotOffset i) n = d.read (slotOffset i) n := by
  refine map_congr_left fun k hk => h _ ?_
  have := mem_range.mp hk
  have := slotOffset_le i
  omega

theorem plain_turn : ∀ a ∈ [16384, 20480, 24576, 28672, 32768], Plain a := by
  unfold Plain
  decide +kernel

theorem sampleDisk_slots :
    (sampleDisk sum).read (slotOffset 0) slotLength = slotImage sum (sampleSlot 1 7) ∧
      (sampleDisk sum).read (slotOffset 1) 4 = [0, 0, 0, 0] := by
  constructor
  · rw [sampleDisk, slotSynced, Disk.read_sync, read_slotWrites]
  · have hmiss : ∀ x ∈ writesAt (slotOffset 0) (encodeSlot sum (sampleSlot 1 7)),
        x.1 < slotOffset 1 ∨ slotOffset 1 + 4 ≤ x.1 := fun x hx => .inl (mem_slotWrites hx).2
    rw [sampleDisk, slotSynced, Disk.read_sync, Disk.read_write_of_disjoint hmiss]
    rfl

/-! ### The commit's header is lost -/

theorem sampleDisk_shows : RingShows (sampleDisk sampleSum) [] := by
  intro o ho hview
  have hblank : (sampleDisk sampleSum).view o = 0 := slotSynced_view _ _ _ ho
  exact absurd (hblank.symm.trans hview) (by decide)

theorem sampleBatchDisk_shows : RingShows (sampleBatchDisk sampleSum) [16384] :=
  .batch (j := (sampleJournal 7).afterPlace samplePlacement) (a := 16384) rfl rfl (by decide)
    sampleDisk_shows (by decide) (plain_turn _ (by decide))

theorem sampleBatchDisk_slots :
    (sampleBatchDisk sampleSum).read (slotOffset 0) slotLength = slotImage sampleSum (sampleSlot 1 7) ∧
      (sampleBatchDisk sampleSum).read (slotOffset 1) 4 = [0, 0, 0, 0] := by
  have hview : ∀ o < ringOffset, (sampleBatchDisk sampleSum).view o = (sampleDisk sampleSum).view o :=
    fun o ho => blockWritten_view (j := (sampleJournal 7).afterPlace samplePlacement) (a := 16384) rfl rfl
      (by decide) (.inl (Nat.lt_of_lt_of_le ho (Nat.le_add_right _ _)))
  rw [slotRead_congr hview 0 (by decide), slotRead_congr hview 1 (by decide)]
  exact sampleDisk_slots

/-- The disk a loss of power leaves: of the header that was being written over slot 0, the lowest
byte of its counter. -/
def tornDisk (sum : Checksum) : Disk := tornAt (sampleBatchDisk sum) 0 3

theorem tornDisk_read : (tornDisk sampleSum).read (slotOffset 0) slotLength =
    (slotImage sampleSum (sampleSlot 1 7)).set 8 3 := by
  rw [← sampleBatchDisk_slots.1]
  exact tornAt_read rfl 0 3

theorem tornDisk_slots : slotAt sampleSum (tornDisk sampleSum) 0 = .error .noSlot ∧
    slotAt sampleSum (tornDisk sampleSum) 1 = .error .noSlot := by
  constructor
  · rw [slotAt_eq, tornDisk_read]
    decide +kernel
  · refine slotAt_noSlot ?_
    have hread : (tornDisk sampleSum).read (slotOffset 1) 4 = [0, 0, 0, 0] := by
      rw [← sampleBatchDisk_slots.2]
      exact tornAt_read_of_ne rfl (.inr (by decide))
    rw [hread]
    decide

/-- The records of the lost journal are all the ring of the torn disk holds, so reading back under
another generation accepts nothing. -/
theorem tornDisk_ring {j : Journal} (hg : j.generation = 8) (hstart : j.ringStart = 8192)
    (position : Nat) :
    j.entryAt sampleSum (slotSynced sampleSum (tornDisk sampleSum) 0 (sampleSlot 1 8)) position =
      none := by
  have hshows : RingShows (slotSynced sampleSum (tornDisk sampleSum) 0 (sampleSlot 1 8)) [16384] := by
    refine sampleBatchDisk_shows.congr fun o ho => ?_
    rw [slotSynced_view _ _ _ ho]
    refine tornAt_view rfl ?_
    have hoffset : slotOffset 0 + 8 < ringOffset := by decide
    omega
  by_contra hne
  obtain ⟨⟨h, b⟩, he⟩ := Option.ne_none_iff_exists'.mp hne
  obtain ⟨a, -, s, hs, rfl, -⟩ := hshows.entryAt (by decide) hstart he
  have hgen := (entryAt_some he).2.2.1
  rw [s.head_generation, hg] at hgen
  have hseven : s.generation = 7 := by rcases mem_blockImage hs with ⟨rfl, -⟩ | ⟨rfl, -⟩ <;> rfl
  exact absurd (hseven.symm.trans hgen) (by decide)

theorem sampleSlot_opens (c : Nat) : (sampleSlot c 7).Opens sampleConfig sampleSize :=
  ⟨rfl, decide_eq_true ⟨rfl, (by decide : minRingSize ≤ 16384),
    (by decide : 16384 % blockBytes = 0), (by decide : 8192 + 16384 ≤ sampleSize)⟩, rfl, rfl⟩

/-- The world after the commit was answered and the header's slots were lost. -/
def tornWorld (sum : Checksum) : World :=
  ⟨tornDisk sum, .closed, [(0, sampleSlot 1 7), (1, sampleSlot 2 7), (0, sampleSlot 3 7)],
    samplePlacement.image, [sampleAnswer], [sampleAnswer]⟩

/-- The header the commit was answered under is the one that is lost. -/
theorem torn_reaches : Reaches sampleSum sampleSize (tornWorld sampleSum) := by
  obtain ⟨hslot0, hslot1⟩ := sampleBatchDisk_slots
  have hnone : slotAt sampleSum (sampleBatchDisk sampleSum) 1 = .error .noSlot :=
    slotAt_noSlot (by rw [hslot1]; decide)
  have hgenuine : GenuineSlots sampleSum (sampleBatchDisk sampleSum) [(0, sampleSlot 1 7)] :=
    genuineSlots_of (.inr ⟨_, mem_cons_self, hslot0⟩) (.inl hnone)
  have hheader := readHeader_sampleSlot hslot0 hnone
  have hbyte : (slotOffset 0 + 8, (3 : UInt8)) ∈
      writesAt (slotOffset 0) (encodeSlot sampleSum (sampleSlot 3 7)) :=
    mem_writesAt.mpr ⟨8, by rw [length_encodeSlot]; decide, rfl, rfl⟩
  obtain ⟨d, hd⟩ := (@sample_answered sampleSum).reaches.tail .ends
  exact ⟨d, hd.trans (header_torn (sampleSlot_opens 1) (by decide) (sampleSlot_fits (by decide) 7)
    hbyte rfl hgenuine hheader)⟩

/-- A run in which the open journal does not hold an answered entry that no trim has covered: the
third `Open` finds no header, formats the disk and has an empty index. -/
theorem answered_entry_lost : ∃ w j a, Reaches sampleSum sampleSize w ∧
    w.proc = .running j .idle ∧ a ∈ w.owed ∧ ¬ HoldsAnswer sampleSum w j a := by
  have hformat := @sample_formats sampleSum (tornWorld sampleSum) 8 rfl tornDisk_slots.1
    tornDisk_slots.2 fun j hg hstart => tornDisk_ring hg hstart
  obtain ⟨d, hd⟩ := torn_reaches
  refine ⟨_, sampleJournal 8, sampleAnswer, ⟨d, hd.trans (hformat.lift id fun _ _ h => h.1)⟩, rfl,
    mem_cons_self, ?_⟩
  rintro ⟨⟨e, he, -⟩, -⟩
  cases he

end Sproutfs.JournalDisk
