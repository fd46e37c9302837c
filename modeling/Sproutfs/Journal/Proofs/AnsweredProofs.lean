import Mathlib.Data.List.Nodup
import Sproutfs.Journal.Proofs.HistoryProofs

/-!
# Positions over the life of a journal

In a run in which every `Open` finds a durable header, positions are answered in increasing order. Where a
durable header is written over before the one that took its place is durable, the header before both comes
back, with a tail whose entries the ring no longer holds: positions begin again there.
-/

namespace Sproutfs.JournalDisk

open List ByteCodec TornDisk Tiling

variable {sum : Checksum} {size : Nat} {w w' : World}

theorem History.answered_sorted (hw : History sum w) :
    w.answered.Pairwise fun x y => x.position < y.position := by
  rcases hw with ⟨-, hnone, -⟩ | ⟨h, c, b, hw⟩
  · rw [hnone]
    exact List.Pairwise.nil
  · exact hw.traced.sorted

theorem History.run_answered (hw : History sum w)
    (hrun : Relation.ReflTransGen (SteadyStep sum size) w w') :
    History sum w' ∧ ∃ more, w'.answered = w.answered ++ more := by
  induction hrun with
  | refl => exact ⟨hw, [], (append_nil _).symm⟩
  | tail _ hs ih =>
    obtain ⟨hw₁, more, heq⟩ := ih
    refine ⟨hw₁.step hs, ?_⟩
    rcases hs.1 with ⟨w₂, hs⟩ | ⟨d, hcrash⟩
    · rcases hs.answered with heq' | ⟨j, bt, p, -, heq', -⟩
      · exact ⟨more, heq'.trans heq⟩
      · exact ⟨more ++ answers bt p, by rw [heq', heq, append_assoc]⟩
    · exact ⟨more, heq⟩

/-- In a run in which each `Open` finds a durable header, the positions of answered entries increase
in the order of the answers, so that no two answers share one. What is answered after some world lies
after every position `p` that a trim or a record made by then may hold as covered, that is, after
every position at or before one answered by then: it is not the entry at `p`, and a trim or a read
that takes `p` for covered leaves it. -/
theorem answered_positions_increase (hw : SteadyReaches sum size w)
    (hrun : Relation.ReflTransGen (SteadyStep sum size) w w') :
    (w'.answered.Pairwise fun x y => x.position < y.position) ∧
      (∀ x ∈ w'.answered, ∀ y ∈ w'.answered, x.position = y.position → x = y) ∧
      ∃ more, w'.answered = w.answered ++ more ∧
        ∀ a ∈ w.answered, ∀ p ≤ a.position, ∀ x ∈ more, p < x.position ∧
          ∀ vm covered, covered x.entry.epoch = some p → x.covered vm covered = false := by
  obtain ⟨hw', more, heq⟩ := hw.history.run_answered hrun
  have hsorted := hw'.answered_sorted
  refine ⟨hsorted, ?_, more, heq, ?_⟩
  · have hnodup : (w'.answered.map (·.position)).Nodup :=
      pairwise_map.mpr (hsorted.imp Nat.ne_of_lt)
    exact fun x hx y hy hxy => inj_on_of_nodup_map hnodup hx hy hxy
  · intro a ha p hp x hx
    rw [heq] at hsorted
    have hlt : a.position < x.position := (pairwise_append.mp hsorted).2.2 a ha x hx
    refine ⟨Nat.lt_of_le_of_lt hp hlt, fun vm covered hc => decide_eq_false ?_⟩
    rintro ⟨-, hle⟩
    have := hle p hc
    omega

/-- The theorem at a journal that answers a second commit. -/
theorem answered_positions_increase_sample : ∃ w', Relation.ReflTransGen
    (SteadyStep sampleSum sampleSize) (sampleWorld (sampleBatchDisk sampleSum) sampleAnsweredJournal
      .idle samplePlacement.image [sampleAnswer]) w' ∧
    w'.answered = [sampleAnswer, ⟨0, 20480, sampleEntry⟩] ∧
    w'.answered.Pairwise fun x y => x.position < y.position := by
  have hcommit : Relation.ReflTransGen (SteadyStep sampleSum sampleSize) (sampleWorld
      (sampleBatchDisk sampleSum) sampleAnsweredJournal .idle samplePlacement.image [sampleAnswer]) _ :=
    commit_leads (c := sampleCommit) (e := sampleEntry) rfl (by decide) (by decide) (by decide) rfl
      (by decide) (by decide) _
  exact ⟨_, hcommit, rfl, (answered_positions_increase sample_answered hcommit).1⟩

/-! ### A turn of the ring -/

theorem slotSynced_congr {d d' : Disk} {o : Nat} (i : Fin 2) (s : Slot) (h : d'.view o = d.view o) :
    (slotSynced sum d' i s).view o = (slotSynced sum d i s).view o := by
  rw [slotSynced, slotSynced, Disk.view_sync, Disk.view_sync, Disk.view_write, Disk.view_write]
  exact apply_congr _ h

/-- The journal once the batch at `a` is answered. -/
def committed (j : Journal) (a : Nat) : Journal :=
  (j.afterPlace (blockPlacement a)).complete (blockPlacement a) true

/-- A world whose idle journal is `j`: the batches at `answered` were answered, those at `starts` are
still on the ring, and the header slots are those of `base`. -/
structure Turning (w : World) (j : Journal) (slots : List (Fin 2 × Slot)) (base : Disk)
    (starts answered : List Nat) : Prop where
  reaches : Reaches sampleSum sampleSize w
  proc : w.proc = .running j .idle
  slots : w.slots = slots
  pending : w.disk.pending = []
  header : ∀ o < ringOffset, w.disk.view o = base.view o
  ring : RingShows w.disk starts
  images : ∀ a ∈ starts, ∀ s ∈ blockImage a, s ∈ w.images
  answered : w.answered = answered.map fun a => ⟨0, a, sampleEntry⟩

theorem Turning.commit {j : Journal} {slots : List (Fin 2 × Slot)} {base : Disk}
    {starts answered : List Nat} (hw : Turning w j slots base starts answered) (a : Nat)
    (hstarts : ∀ b ∈ starts, b % 4096 = 0) (ha : a % 4096 = 0) (hplain : Plain a)
    (hring : j.ringStart = 8192 ∧ j.ringLength = 16384) (hqueue : j.queue = [])
    (hroom : j.admits 72) (hfit : ({ j with queue := [sampleCommit] } : Journal).fitting = 1)
    (hplace : blockPlacement a = j.place [some [sampleEntry]]) (hstop : a + 4096 < 2 ^ 64) :
    ∃ w', Turning w' (committed j a) slots base
      (starts.filter (fun b => b % 16384 ≠ a % 16384) ++ [a]) (answered ++ [a]) := by
  obtain ⟨d, proc, slots', images, ans, owed⟩ := w
  obtain ⟨⟨d₀, hrun⟩, hproc, hslots, hpending, hheader, hshows, himages, hanswered⟩ := hw
  obtain rfl : proc = .running j .idle := hproc
  have hcommit : Relation.ReflTransGen (SteadyStep sampleSum sampleSize)
      ⟨d, .running j .idle, slots', images, ans, owed⟩ _ :=
    commit_leads (c := sampleCommit) (e := sampleEntry) hqueue hroom hfit (by decide) hplace
      (cons_ne_nil _ _) hstop d
  refine ⟨_, ⟨d₀, hrun.trans (hcommit.lift id fun _ _ h => h.1)⟩, rfl, hslots, rfl, ?_, ?_, ?_, ?_⟩
  · intro o ho
    rw [← hheader o ho]
    exact blockWritten_view (j := j.afterPlace (blockPlacement a)) hring.1 hring.2 ha
      (.inl (Nat.lt_of_lt_of_le ho (Nat.le_add_right _ _)))
  · exact .batch (j := j.afterPlace (blockPlacement a)) hring.1 hring.2 ha hshows hstarts hplain
  · intro b hb s hs
    rcases mem_append.mp hb with hb | hb
    · exact mem_append_left _ (himages b (mem_filter.mp hb).1 s hs)
    · obtain rfl := mem_singleton.mp hb
      exact mem_append_right _ hs
  · show ans ++ _ = _
    rw [show ans = _ from hanswered, map_append]
    rfl

theorem sample_turning : Turning (sampleWorld (sampleDisk sampleSum) (sampleJournal 7) .idle [] [])
    (sampleJournal 7) [(0, sampleSlot 1 7)] (sampleDisk sampleSum) [] [] := by
  refine ⟨sample_opened.reaches, rfl, rfl, rfl, fun _ _ => rfl, sampleDisk_shows, ?_, rfl⟩
  intro a ha
  cases ha

def filledJournal : Journal := committed (committed (committed (sampleJournal 7) 16384) 20480) 24576

/-- A trim that leaves nothing live. -/
def trimmedJournal : Journal := filledJournal.trim [97] fun _ => none

/-- The header that says so. -/
def trimmedSlot : Slot := { sampleSlot 2 7 with tail := 28672 }

theorem trimmedSlot_fits {n : Nat} (hn : 2 + n < 2 ^ 64) : (trimmedSlot.after n).Fits :=
  ⟨hn, (by decide : 8192 < 2 ^ 64), (by decide : 16384 < 2 ^ 64), (by decide : 28672 < 2 ^ 64)⟩

theorem trimmedSlot_opens : trimmedSlot.Opens sampleConfig sampleSize :=
  ⟨rfl, (sampleSlot_opens 2).ring, rfl, rfl⟩

theorem filled_turning : ∃ w, Turning w filledJournal [(0, sampleSlot 1 7)] (sampleDisk sampleSum)
    [16384, 20480, 24576] [16384, 20480, 24576] := by
  obtain ⟨w₁, hw₁⟩ := sample_turning.commit 16384 (by decide) (by decide) (plain_turn _ (by decide))
    ⟨rfl, rfl⟩ rfl (by decide) (by decide) rfl (by decide)
  obtain ⟨w₂, hw₂⟩ := hw₁.commit 20480 (by decide) (by decide) (plain_turn _ (by decide))
    ⟨rfl, rfl⟩ rfl (by decide) (by decide) rfl (by decide)
  exact hw₂.commit 24576 (by decide) (by decide) (plain_turn _ (by decide))
    ⟨rfl, rfl⟩ rfl (by decide) (by decide) rfl (by decide)

theorem trimmed_turning : ∃ w, Turning w (trimmedJournal.tookSlot trimmedSlot)
    [(0, sampleSlot 1 7), (1, trimmedSlot)] (slotSynced sampleSum (sampleDisk sampleSum) 1 trimmedSlot)
    [16384, 20480, 24576] [16384, 20480, 24576] := by
  obtain ⟨⟨d, proc, slots, images, ans, owed⟩, hw⟩ := filled_turning
  obtain ⟨hreaches, hproc, hslots, hpending, hheader, hshows, himages, hanswered⟩ := hw
  obtain rfl : proc = .running filledJournal .idle := hproc
  obtain rfl : slots = [(0, sampleSlot 1 7)] := hslots
  have hread : readHeader sampleSum d = .ok (sampleSlot 1 7, 0) := by
    have hslot : ∀ i, slotAt sampleSum d i = slotAt sampleSum (sampleDisk sampleSum) i := fun i =>
      congrArg (decodeSlot sampleSum) (slotRead_congr hheader i (Nat.le_refl _))
    rw [readHeader, hslot, hslot]
    exact sampleDisk_header
  have htrim := hreaches.tail (.trim filledJournal .idle [97] (fun _ => none) rfl)
  have hstart := htrim.tail (.headerStart trimmedJournal (sampleSlot 1 7) 0 rfl (by decide) (by decide)
    hread rfl (trimmedSlot_fits (n := 0) (by decide)))
  have hslot := hstart.tail
    (.headerSlot trimmedJournal trimmedSlot .write .sync false _ rfl .written)
  have hsynced := hslot.tail (.headerSynced trimmedJournal trimmedSlot false rfl)
  refine ⟨_, hsynced, rfl, rfl, rfl, ?_, ?_, himages, hanswered⟩
  · exact fun o ho => slotSynced_congr 1 trimmedSlot (hheader o ho)
  · exact hshows.congr fun o ho => slotSynced_view d 1 trimmedSlot ho

theorem turned_turning : ∃ w j, Turning w j [(0, sampleSlot 1 7), (1, trimmedSlot)]
    (slotSynced sampleSum (sampleDisk sampleSum) 1 trimmedSlot) [20480, 24576, 28672, 32768]
    [16384, 20480, 24576, 28672, 32768] := by
  obtain ⟨w₁, hw₁⟩ := trimmed_turning
  obtain ⟨w₂, hw₂⟩ := hw₁.commit 28672 (by decide) (by decide) (plain_turn _ (by decide))
    ⟨rfl, rfl⟩ rfl (by decide) (by decide) rfl (by decide)
  obtain ⟨w₃, hw₃⟩ := hw₂.commit 32768 (by decide) (by decide) (plain_turn _ (by decide))
    ⟨rfl, rfl⟩ rfl (by decide) (by decide) rfl (by decide)
  exact ⟨w₃, _, hw₃⟩

/-- The entry that is answered at the position of the first. -/
def laterEntry : Entry := { vm := [97], epoch := 2 }

/-- The journal that goes on from the first header once the second is lost. -/
def againJournal : Journal :=
  ((found sampleConfig (sampleSlot 1 7) 0 false).tookSlot (sampleSlot 2 7)).emptied

theorem turned_slots {d : Disk} (hpending : d.pending = [])
    (hheader : ∀ o < ringOffset,
      d.view o = (slotSynced sampleSum (sampleDisk sampleSum) 1 trimmedSlot).view o) :
    d.read (slotOffset 0) slotLength = slotImage sampleSum (sampleSlot 1 7) ∧
      d.read (slotOffset 1) slotLength = slotImage sampleSum trimmedSlot ∧
      (tornAt d 1 4).read (slotOffset 0) slotLength = slotImage sampleSum (sampleSlot 1 7) ∧
      slotAt sampleSum (tornAt d 1 4) 1 = .error .noSlot := by
  have hslot0 : d.read (slotOffset 0) slotLength = slotImage sampleSum (sampleSlot 1 7) := by
    rw [slotRead_congr hheader 0 (by decide), slotSynced, Disk.read_sync]
    exact (slotWritten_read _ 0 _).trans sampleDisk_slots.1
  have hslot1 : d.read (slotOffset 1) slotLength = slotImage sampleSum trimmedSlot := by
    rw [slotRead_congr hheader 1 (by decide), slotSynced, Disk.read_sync]
    exact read_slotWrites _ _ _
  refine ⟨hslot0, hslot1, ?_, ?_⟩
  · rw [tornAt_read_of_ne hpending (.inl (by decide))]
    exact hslot0
  · rw [slotAt_eq, tornAt_read hpending, hslot1]
    decide +kernel

/-- The slots written by the time the first header has come back. -/
def tornSlots : List (Fin 2 × Slot) :=
  [(0, sampleSlot 1 7), (1, trimmedSlot), (0, trimmedSlot.after 1), (1, trimmedSlot.after 2)]

/-- The second header is lost: of the slots, the first header is left. -/
theorem torn_turned : ∃ w, Reaches sampleSum sampleSize w ∧ w.proc = .closed ∧ w.slots = tornSlots ∧
    w.disk.read (slotOffset 0) slotLength = slotImage sampleSum (sampleSlot 1 7) ∧
    slotAt sampleSum w.disk 1 = .error .noSlot ∧
    RingShows w.disk [20480, 24576, 28672, 32768] ∧
    (∀ a ∈ [20480, 24576, 28672, 32768], ∀ s ∈ blockImage a, s ∈ w.images) ∧
    w.answered = [16384, 20480, 24576, 28672, 32768].map fun a => ⟨0, a, sampleEntry⟩ := by
  obtain ⟨⟨d, proc, slots, images, ans, owed⟩, j, hw⟩ := turned_turning
  obtain ⟨hreaches, -, hslots, hpending, hheader, hshows, himages, hanswered⟩ := hw
  obtain rfl : slots = [(0, sampleSlot 1 7), (1, trimmedSlot)] := hslots
  obtain ⟨hslot0, hslot1, htorn0, htorn1⟩ := turned_slots hpending hheader
  have hgenuine : GenuineSlots sampleSum d [(0, sampleSlot 1 7), (1, trimmedSlot)] :=
    genuineSlots_of (.inr ⟨_, mem_cons_self, hslot0⟩) (.inr ⟨_, mem_cons_of_mem _ mem_cons_self, hslot1⟩)
  have hread : readHeader sampleSum d = .ok (trimmedSlot, 1) :=
    readHeader_of_slots (c := 0) (slotAt_of_read (sampleSlot_fits (by decide) 7) hslot0)
      (slotAt_of_read (trimmedSlot_fits (n := 0) (by decide)) hslot1) (by decide)
  have hbyte : (slotOffset 1 + 8, (4 : UInt8)) ∈
      writesAt (slotOffset 1) (encodeSlot sampleSum (trimmedSlot.after 2)) :=
    mem_writesAt.mpr ⟨8, by rw [length_encodeSlot]; decide, rfl, rfl⟩
  have htorn : Relation.ReflTransGen (Event sampleSum sampleSize)
      ⟨d, .closed, [(0, sampleSlot 1 7), (1, trimmedSlot)], images, ans, owed⟩ _ :=
    header_torn trimmedSlot_opens (by decide) (trimmedSlot_fits (by decide)) hbyte rfl hgenuine hread
  obtain ⟨d₀, hrun⟩ := hreaches.tail .ends
  refine ⟨_, ⟨d₀, hrun.trans htorn⟩, rfl, rfl, htorn0, htorn1, hshows.congr fun o ho => ?_, himages,
    hanswered⟩
  have hoffset : slotOffset 1 + 8 < ringOffset := by decide
  exact tornAt_view hpending (by omega)

/-- `Open` goes on from the first header and finds nothing at its tail. -/
theorem again_reaches : ∃ w, Reaches sampleSum sampleSize w ∧ w.proc = .running againJournal .idle ∧
    w.slots = tornSlots ++ [(1, sampleSlot 2 7)] ∧ ⟨0, 16384, sampleEntry⟩ ∈ w.answered := by
  obtain ⟨⟨d, proc, slots, images, ans, owed⟩, hreaches, hproc, hslots, hslot0, hslot1, hshows, himages,
    hanswered⟩ := torn_turned
  obtain rfl : proc = .closed := hproc
  obtain rfl : slots = tornSlots := hslots
  have hgenuine : GenuineSlots sampleSum d tornSlots :=
    genuineSlots_of (.inr ⟨_, mem_cons_self, hslot0⟩) (.inl hslot1)
  have hread := readHeader_sampleSlot hslot0 hslot1
  have hopen := hreaches.tail ((sampleSlot_opens 1).step (by decide) rfl
    (sampleSlot_fits (c := 2) (by decide) 7) hgenuine hread)
  have hwritten := hopen.tail (.openSlot (found sampleConfig (sampleSlot 1 7) 0 false) .write .sync _
    rfl .written)
  have hsynced := hwritten.tail (.openSynced (found sampleConfig (sampleSlot 1 7) 0 false) rfl)
  have hring : RingShows (slotSynced sampleSum d 1 (sampleSlot 2 7)) [20480, 24576, 28672, 32768] :=
    hshows.congr fun o ho => slotSynced_view d 1 _ ho
  set k := (found sampleConfig (sampleSlot 1 7) 0 false).tookSlot (sampleSlot 2 7) with hk
  have hnone : k.entryAt sampleSum (slotSynced sampleSum d 1 (sampleSlot 2 7)) 16384 = none := by
    by_contra hne
    obtain ⟨⟨h, b⟩, he⟩ := Option.ne_none_iff_exists'.mp hne
    obtain ⟨a, ha, s, hs, -, hposition, -⟩ := hring.entryAt (by decide) rfl he
    have hle : 20480 ≤ a := (by decide : ∀ a ∈ [20480, 24576, 28672, 32768], 20480 ≤ a) a ha
    rcases mem_blockImage hs with ⟨-, hpos, -⟩ | ⟨-, hpos, -⟩ <;> omega
  have hentries : GenuineEntries sampleSum (slotSynced sampleSum d 1 (sampleSlot 2 7)) k images := by
    intro position h b he
    obtain ⟨a, ha, s, hs, -, -, hb⟩ := hring.entryAt (by decide) rfl he
    exact ⟨s, himages a ha s hs, hb⟩
  have hdone := hsynced.tail (.openDone k rfl hentries)
  refine ⟨_, hdone, ?_, rfl, ?_⟩
  · exact congrArg (Proc.running · .idle) (readBack_none (by decide : 0 < 16384) hnone)
  · show (⟨0, 16384, sampleEntry⟩ : Answer) ∈ ans
    rw [show ans = _ from hanswered]
    exact mem_cons_self

/-- A run in which one position is answered for two different entries of the journal's one
generation: the durable header is written over before the one after it is durable, and a loss of
power leaves the header before both, whose tail the ring has long passed. -/
theorem position_answered_twice : ∃ w x y, Reaches sampleSum sampleSize w ∧ x ∈ w.answered ∧
    y ∈ w.answered ∧ x.position = y.position ∧ x.entry ≠ y.entry ∧
    ∀ s ∈ w.slots, s.2.generation = 7 := by
  obtain ⟨⟨d, proc, slots, images, ans, owed⟩, ⟨d₀, hrun⟩, hproc, hslots, hfirst⟩ := again_reaches
  obtain rfl : proc = .running againJournal .idle := hproc
  have hcommit : Relation.ReflTransGen (SteadyStep sampleSum sampleSize)
      ⟨d, .running againJournal .idle, slots, images, ans, owed⟩ _ :=
    commit_leads (c := sampleCommit) (e := laterEntry) rfl (by decide) (by decide) (by decide) rfl
      (by decide) (by decide) d
  refine ⟨_, ⟨0, 16384, sampleEntry⟩, ⟨0, 16384, laterEntry⟩,
    ⟨d₀, hrun.trans (hcommit.lift id fun _ _ h => h.1)⟩, mem_append_left _ hfirst,
    mem_append_right _ ?_, rfl, by decide, ?_⟩
  · decide
  · show ∀ s ∈ slots, s.2.generation = 7
    rw [show slots = _ from hslots]
    decide

end Sproutfs.JournalDisk
