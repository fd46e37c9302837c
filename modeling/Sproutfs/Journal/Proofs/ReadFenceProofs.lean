import Mathlib.Data.List.Nodup
import Sproutfs.Journal.Reader
import Sproutfs.Journal.Proofs.RingSafetyProofs

/-!
# The read fence

A read that fences a VM waits for the one batch that may have been placed before. From then on no batch
holds an entry of the VM below the reader's epoch, so what the read collects is all there will be.
-/

namespace Sproutfs.JournalDisk

open List Function ByteCodec TornDisk Tiling

variable {sum : Checksum} {size : Nat} {w w' : World} {j j' : Journal} {wr wr' : Writer} {q : ReadRequest}
  {st st' : ReadState} {d : Disk} {r : Window} {a : Answer}

/-! ## Batches placed and completed -/

/-- How many batches are placed and not completed. -/
def Writer.inFlight : Writer → Nat
  | .writing _ _ => 1
  | .syncing _ _ => 1
  | .completing _ _ _ => 1
  | _ => 0

/-- The counters of placed and completed batches differ by the one in flight. -/
def Proc.Counts : Proc → Prop
  | .closed => True
  | .opening j _ => j.placed = j.completed
  | .readingBack j => j.placed = j.completed
  | .running j wr => j.placed = j.completed + wr.inFlight

theorem placedWriter_inFlight (b : Batch) (p : Placement) : (placedWriter b p).inFlight = 1 := by
  unfold placedWriter
  split <;> rfl

theorem counts_batch {d' : Disk} (h : BatchStep sum d j wr d' j' wr') (hc : (Proc.running j wr).Counts) :
    (Proc.running j' wr').Counts := by
  cases h <;> exact hc

theorem counts_step (hs : Step sum size w w') (hc : w.proc.Counts) : w'.proc.Counts := by
  cases hs with
  | openRead config generation j hp hg hj hf =>
    rcases openHeader_ok hj with ⟨-, -, rfl⟩ | ⟨s, i, -, -, rfl⟩ <;> rfl
  | openSlot _ _ _ _ hp | openSynced _ hp | openDone _ hp | trim _ _ _ _ hp | headerStart _ _ _ hp
  | headerSlot _ _ _ _ _ _ hp | stop _ hp | closeStart _ _ _ hp =>
    rw [hp] at hc
    exact hc
  | call j j' wr hp hcall =>
    rw [hp] at hc
    cases hcall <;> exact hc
  | batch j j' wr wr' d hp hbatch =>
    rw [hp] at hc
    exact counts_batch hbatch hc
  | place j batch made p hp hlen hpl hfit =>
    rw [hp] at hc
    change j.placed + 1 = j.completed + _
    rw [placedWriter_inFlight]
    exact congrArg (· + 1) hc
  | complete j b p ok hp =>
    rw [hp] at hc
    cases ok <;> exact hc
  | headerSynced _ _ closing hp | headerFails _ _ _ closing hp =>
    rw [hp] at hc
    cases closing
    · exact hc
    · trivial
  | ends => trivial

theorem Reaches.counts (hw : Reaches sum size w) : w.proc.Counts := by
  obtain ⟨d, hrun⟩ := hw
  induction hrun with
  | refl => trivial
  | tail _ hs ih =>
    cases hs with
    | step w' hs => exact counts_step hs ih
    | powerLoss d hcrash => trivial

theorem CalmReaches.reaches (hw : CalmReaches sum size w) : Reaches sum size w := by
  obtain ⟨d, hd⟩ := hw
  exact ⟨d, hd.lift id fun _ w' h => .step w' h⟩

/-! ## What a step does to an open journal -/

/-- The batch in flight answers no commit of the read's VM below the reader's epoch. -/
def ReadRequest.Cleared (q : ReadRequest) : Writer → Prop
  | .writing b p => ∀ a ∈ answers b p, ¬ (a.entry.vm = q.vm ∧ a.entry.epoch < q.reader)
  | .syncing b p => ∀ a ∈ answers b p, ¬ (a.entry.vm = q.vm ∧ a.entry.epoch < q.reader)
  | .completing b p _ => ∀ a ∈ answers b p, ¬ (a.entry.vm = q.vm ∧ a.entry.epoch < q.reader)
  | _ => True

/-- The VM is fenced at the reader's epoch. -/
def ReadRequest.Fenced (q : ReadRequest) (j : Journal) : Prop := q.reader ≤ j.fences q.vm

theorem ReadRequest.cleared_of_inFlight (q : ReadRequest) (h : wr.inFlight = 0) : q.Cleared wr := by
  cases wr <;> trivial

/-- What a step of the world does to a journal that stays open. -/
structure Moves (w : World) (j : Journal) (wr : Writer) (w' : World) (j' : Journal) (wr' : Writer) :
    Prop where
  generation : j'.generation = j.generation := by rfl
  ringStart : j'.ringStart = j.ringStart := by rfl
  ringLength : j'.ringLength = j.ringLength := by rfl
  fences : ∀ vm, j.fences vm ≤ j'.fences vm := by exact fun _ => UInt64.le_refl _
  placed : j.placed ≤ j'.placed := by exact Nat.le_refl _
  /-- A batch placed under a fence answers nothing behind it. -/
  cleared : ∀ q : ReadRequest, q.Fenced j → q.Cleared wr → q.Cleared wr' := by exact fun _ _ hq => hq
  /-- A batch that becomes completed leaves none in flight. -/
  completed : j'.completed = j.completed ∨ wr' = .idle := by exact .inl rfl
  answered : ∀ a ∈ w'.answered, a ∈ w.answered ∨ ∃ b p, wr = .completing b p true ∧ a ∈ answers b p := by
    exact fun _ ha => .inl ha
  owed : ∀ a ∈ w'.owed, a ∈ w.owed ∨ ∃ b p, wr = .completing b p true ∧ a ∈ answers b p := by
    exact fun _ ha => .inl ha

theorem fence_fences_le (j : Journal) (vm : Bytes) (reader : UInt64) (x : Bytes) :
    j.fences x ≤ (j.fence vm reader).fences x := by
  unfold Journal.fence
  dsimp only
  split
  · next h =>
    by_cases hx : x = vm
    · subst hx
      rw [update_self]
      exact UInt64.le_of_lt h
    · rw [update_of_ne hx]
      exact UInt64.le_refl _
  · exact UInt64.le_refl _

theorem fence_fenced (j : Journal) (q : ReadRequest) : q.Fenced (j.fence q.vm q.reader) := by
  unfold ReadRequest.Fenced Journal.fence
  dsimp only
  split
  · rw [update_self]
    exact UInt64.le_refl _
  · next h => exact UInt64.not_lt.mp h

theorem moves_call (h : CallStep j j') : Moves w j wr { w with proc := .running j' wr } j' wr := by
  cases h with
  | fence v reader hr => exact { fences := fence_fences_le j v reader }
  | _ => exact { }

theorem moves_batch (h : BatchStep sum w.disk j wr d j' wr') :
    Moves w j wr { w with disk := d, proc := .running j' wr' } j' wr' := by
  cases h <;> exact { }

theorem moves_place (hw : Inv sum w.synced) {batch : List Commit} {made : List (Option (List Entry))}
    {p : Placement} (hp : w.proc = .running j (.capturing batch)) (hlen : made.length = batch.length)
    (hplace : p = j.place (batch.zipWith capture made)) :
    Moves w j (.capturing batch)
      { w with proc := .running (j.afterPlace p)
                 (placedWriter (batch.zip (batch.zipWith capture made)) p)
               images := w.images ++ p.image }
      (j.afterPlace p) (placedWriter (batch.zip (batch.zipWith capture made)) p) := by
  obtain ⟨-, hplaced, -⟩ := placed_of_inv hw (w := w.synced) hp made
  rw [← hplace] at hplaced
  have hclear : ∀ q : ReadRequest, q.Fenced j →
      ∀ a ∈ answers (batch.zip (batch.zipWith capture made)) p,
        ¬ (a.entry.vm = q.vm ∧ a.entry.epoch < q.reader) := by
    rintro q hq a ha ⟨hvm, hlt⟩
    have hlen' : (batch.zipWith capture made).length = batch.length := by simp [hlen]
    have hrec := mem_answers hlen' hplaced.positions ha
    refine hplaced.fenced _ hrec a.entry rfl ?_
    rw [hvm]
    exact UInt64.lt_of_lt_of_le hlt hq
  refine { placed := Nat.le_succ _, cleared := fun q hq _ => ?_ }
  unfold placedWriter
  split <;> exact hclear q hq

theorem moves_complete {b : Batch} {p : Placement} {ok : Bool} :
    Moves w j (.completing b p ok)
      { w with proc := .running (j.complete p ok) .idle
               answered := w.answered ++ if ok then answers b p else []
               owed := w.owed ++ if ok then answers b p else [] }
      (j.complete p ok) .idle := by
  have hnew : ∀ l : List Answer, ∀ a ∈ l ++ (if ok then answers b p else []), a ∈ l ∨
      ∃ b' p', Writer.completing b p ok = .completing b' p' true ∧ a ∈ answers b' p' := by
    intro l a ha
    rcases mem_append.mp ha with ha | ha
    · exact .inl ha
    · cases ok with
      | true => exact .inr ⟨b, p, rfl, ha⟩
      | false => cases ha
  have hidle : ∀ q : ReadRequest, q.Fenced j → q.Cleared (.completing b p ok) → q.Cleared .idle :=
    fun _ _ _ => trivial
  cases ok <;> exact { cleared := hidle, completed := .inr rfl, answered := hnew _, owed := hnew _ }

theorem moves_step (hw : Inv sum w.synced) (hp : w.proc = .running j wr) (hs : Step sum size w w')
    (hp' : w'.proc = .running j' wr') : Moves w j wr w' j' wr' := by
  cases hs with
  | openRead | openSlot | openSynced | ends => cases hp'
  | openDone k hk hg => cases hk.symm.trans hp
  | call k k' x hk hcall =>
    cases hk.symm.trans hp
    cases hp'
    exact moves_call hcall
  | trim k x vm covered hk =>
    cases hk.symm.trans hp
    cases hp'
    exact { owed := fun _ ha => .inl (mem_filter.mp ha).1 }
  | batch k k' x x' d hk hbatch =>
    cases hk.symm.trans hp
    cases hp'
    exact moves_batch hbatch
  | place k batch made p hk hlen hplace hfit =>
    cases hk.symm.trans hp
    cases hp'
    exact moves_place hw hp hlen hplace
  | complete k b p ok hk =>
    cases hk.symm.trans hp
    cases hp'
    exact moves_complete
  | headerStart _ _ _ hk | headerSlot _ _ _ _ _ _ hk | stop _ hk | closeStart _ _ _ hk =>
    cases hk.symm.trans hp
    cases hp'
    exact { cleared := fun _ _ _ => trivial }
  | headerSynced _ _ closing hk | headerFails _ _ _ closing hk =>
    cases hk.symm.trans hp
    cases closing
    · cases hp'
      exact { cleared := fun _ _ _ => trivial }
    · cases hp'

/-! ## The window -/

/-- Where the window overlaps the bytes `bs` at `off`, it holds them. -/
def Window.Shows (r : Window) (off : Nat) (bs : Bytes) : Prop :=
  ∀ i, i < bs.length → r.start ≤ off + i → off + i < r.start + r.bytes.length →
    r.bytes[off + i - r.start]? = bs[i]?

theorem Window.shows_empty (off : Nat) (bs : Bytes) : Window.Shows {} off bs := by
  intro i _ _ h
  simp at h

theorem Disk.getElem?_read {off n i : Nat} (h : i < n) : (d.read off n)[i]? = some (d.view (off + i)) := by
  rw [getElem?_eq_getElem (by simpa using h), Disk.getElem_read]

theorem Window.read_eq {off stop : Nat} {bs : Bytes} (hshows : r.Shows off bs)
    (hdisk : d.read off bs.length = bs) (hstop : off + bs.length ≤ stop) :
    (r.read d stop off bs.length).1 = bs := by
  unfold Window.read
  split
  · next hin =>
    apply ext_getElem?
    intro i
    by_cases hi : i < bs.length
    · have := hshows i hi (by omega) (by omega)
      rw [slice, getElem?_take_of_lt hi, getElem?_drop, ← this]
      congr 1
      omega
    · have hlen : (slice r.bytes (off - r.start) bs.length).length ≤ bs.length := by
        rw [slice, length_take]
        omega
      rw [getElem?_eq_none (Nat.le_trans hlen (by omega)), getElem?_eq_none (by omega)]
  · have hsplit : min (max bs.length readAhead) (stop - off) =
        bs.length + (min (max bs.length readAhead) (stop - off) - bs.length) := by
      omega
    dsimp only
    rw [hsplit, Disk.read_add, take_left' (Disk.length_read _ _ _), hdisk]

/-- The window after a read shows what the disk holds, and what it showed. -/
theorem Window.read_shows {off n stop at' : Nat} {bs : Bytes} (hshows : r.Shows at' bs)
    (hdisk : d.read at' bs.length = bs) : (r.read d stop off n).2.Shows at' bs := by
  unfold Window.read
  split
  · exact hshows
  · intro i hi hlow hhigh
    dsimp only at hlow hhigh ⊢
    rw [Disk.length_read] at hhigh
    have hbyte := Disk.read_eq_iff.mp hdisk i hi
    rw [Disk.getElem?_read (by omega), getElem?_eq_getElem hi, ← hbyte]
    congr 2
    omega

/-! ## One read -/

/-- A read asks for the entry of an answer. -/
def ReadRequest.Asks (q : ReadRequest) (a : Answer) : Prop :=
  a.entry.vm = q.vm ∧ a.entry.epoch = q.epoch ∧ q.after < a.position

/-- What holds of a read where it is. -/
def ReadInv (sum : Checksum) (w : World) (j : Journal) (wr : Writer) (q : ReadRequest) :
    ReadState → Prop
  | .waiting placed => q.Fenced j ∧ placed ≤ j.placed ∧ (placed ≤ j.completed → q.Cleared wr)
  | .reading wanted r ys => q.Fenced j ∧ q.Cleared wr ∧
      (ys.map (·.position) ++ wanted.map (·.position)).Pairwise (· < ·) ∧
      ∀ a ∈ w.owed, q.Asks a → (a.readBack ∈ ys ∨ a.index ∈ wanted) ∧
        r.Shows (j.offset a.position) (encodeEntry sum a.entry a.position j.generation)
  | .done ys => q.Fenced j ∧ q.Cleared wr ∧ (ys.map (·.position)).Pairwise (· < ·) ∧
      ∀ a ∈ w.owed, q.Asks a → a.readBack ∈ ys
  | .failed => True

/-- Nothing a read asks for comes to be owed while nothing behind its fence is in flight. -/
theorem Moves.owed_asked (h : Moves w j wr w' j' wr') (hq : q.epoch < q.reader) (hclear : q.Cleared wr)
    (ha : a ∈ w'.owed) (hask : q.Asks a) : a ∈ w.owed := by
  rcases h.owed a ha with ha | ⟨b, p, rfl, ha⟩
  · exact ha
  · exact absurd ⟨hask.1, hask.2.1 ▸ hq⟩ (hclear a ha)

theorem ReadInv.moves (hr : ReadInv sum w j wr q st) (hq : q.epoch < q.reader)
    (h : Moves w j wr w' j' wr') : ReadInv sum w' j' wr' q st := by
  have hfenced : q.Fenced j → q.Fenced j' := fun hf => UInt64.le_trans hf (h.fences q.vm)
  have hoffset : ∀ p, j'.offset p = j.offset p := by
    intro p
    rw [Journal.offset, Journal.offset, h.ringStart, h.ringLength]
  cases st with
  | waiting placed =>
    obtain ⟨hf, hplaced, hclear⟩ := hr
    refine ⟨hfenced hf, hplaced.trans h.placed, fun hle => ?_⟩
    rcases h.completed with hc | rfl
    · exact h.cleared q hf (hclear (hc ▸ hle))
    · trivial
  | reading wanted r ys =>
    obtain ⟨hf, hclear, hsorted, howed⟩ := hr
    refine ⟨hfenced hf, h.cleared q hf hclear, hsorted, fun a ha hask => ?_⟩
    rw [hoffset, h.generation]
    exact howed a (h.owed_asked hq hclear ha hask) hask
  | done ys =>
    obtain ⟨hf, hclear, hsorted, howed⟩ := hr
    exact ⟨hfenced hf, h.cleared q hf hclear, hsorted, fun a ha hask =>
      howed a (h.owed_asked hq hclear ha hask) hask⟩
  | failed => trivial

theorem index_sorted {l : List Stored} (h : l.Pairwise fun s t => s.position < t.position) :
    (l.filterMap Stored.index).Pairwise fun a b => a.position < b.position := by
  refine h.filterMap _ fun s t hlt a ha b hb => ?_
  have hposition : ∀ {s : Stored} {e : Indexed}, s.index = some e → e.position = s.position := by
    rintro ⟨position, generation, item⟩ e he
    cases item with
    | pad n => cases he
    | blocks x => exact congrArg Indexed.position (Option.some.inj he).symm
  rw [hposition ha, hposition hb]
  exact hlt

theorem live_sorted (hw : Inv sum w) (hp : w.proc = .running j wr) :
    j.live.Pairwise fun a b => a.position < b.position := by
  obtain ⟨h, c, l, b, ha, -, hi, -⟩ := hw.running hp
  obtain ⟨l₁, l₂, rfl, -, h₂, hlive⟩ := hi.tail
  have hsize : ∀ s ∈ l₂, s.position < s.stop := by
    intro s hs
    have := (ha.ring.each s (mem_append_right _ hs)).wellFormed.size_ge
    have hstop : s.stop = s.position + s.item.size := rfl
    rw [minEntryBytes_eq] at this
    omega
  have hsorted := index_sorted (h₂.pairwise Stored.position_le_stop hsize)
  rw [← hlive] at hsorted
  have hmap := pairwise_map.mp hsorted
  exact hmap

theorem wanted_eq (hw : Inv sum w) (hp : w.proc = .running j wr) (q : ReadRequest) :
    j.wanted q = (j.held q.vm q.epoch).filter (fun e => q.after < e.position) ∧
      (j.wanted q).Pairwise fun a b => a.position < b.position := by
  have hsorted : ((j.held q.vm q.epoch).filter fun e => q.after < e.position).Pairwise
      fun a b => a.position < b.position := ((live_sorted hw hp).filter _).filter _
  have heq : j.wanted q = (j.held q.vm q.epoch).filter (fun e => q.after < e.position) :=
    mergeSort_of_pairwise (hsorted.imp fun hlt => decide_eq_true (Nat.le_of_lt hlt))
  exact ⟨heq, heq ▸ hsorted⟩

theorem decodeEntry_position {b : Bytes} {h : Head} {y : Entry}
    (hd : decodeEntry sum b = .ok (h, y)) (hk : h.kind = .blocks) : y.position = h.position := by
  unfold decodeEntry at hd
  split at hd
  · cases hd
  · split at hd
    · next hpad =>
      cases hd
      rw [hpad] at hk
      cases hk
    · cases hd
      rfl

theorem owed_of_synced (hw : Inv sum w.synced) (hp : w.proc = .running j wr) (ha : a ∈ w.owed) :
    a.index ∈ j.live ∧ OnDisk sum w.disk j a := by
  obtain ⟨hlive, hdisk⟩ := owed_of_inv (w := w.synced) hw hp ha
  exact ⟨hlive, hdisk.check, hdisk.position, hdisk.fits, (Disk.read_sync ..).symm.trans hdisk.read⟩

theorem OnDisk.decode_window (h : OnDisk sum d j a)
    (hshows : r.Shows (j.offset a.position) (encodeEntry sum a.entry a.position j.generation)) :
    decodeEntry sum
        (r.read d (j.ringStart + j.ringLength) (j.offset a.index.position) a.index.length).1 =
      .ok (a.entry.head a.position j.generation, a.readBack) := by
  have hlen : (encodeEntry sum a.entry a.position j.generation).length = a.index.length :=
    length_encodeEntry h.check _ _
  have hread : d.read (j.offset a.position) a.index.length = _ := h.read
  have hstop : j.offset a.position + a.index.length ≤ j.ringStart + j.ringLength := by
    have hfits : a.position % j.ringLength + a.index.length ≤ j.ringLength := h.fits
    unfold Journal.offset
    omega
  have hposition : a.index.position = a.position := rfl
  rw [← hlen] at hread hstop ⊢
  rw [hposition, Window.read_eq hshows hread hstop, ← h.read]
  exact h.decode

theorem ReadInv.step (hw : Inv sum w.synced) (hp : w.proc = .running j wr) (hr : ReadInv sum w j wr q st)
    (hs : ReadStep sum w.disk j q st st') : ReadInv sum w j wr q st' := by
  cases hs with
  | collect placed hle =>
    obtain ⟨hf, -, hclear⟩ := hr
    obtain ⟨heq, hsorted⟩ := wanted_eq (w := w.synced) hw hp q
    refine ⟨hf, hclear hle, by simpa [pairwise_map] using hsorted,
      fun a ha hask => ⟨.inr ?_, Window.shows_empty _ _⟩⟩
    obtain ⟨hlive, -⟩ := owed_of_synced hw hp ha
    rw [heq]
    refine mem_filter.mpr ⟨mem_filter.mpr ⟨hlive, ?_⟩, decide_eq_true hask.2.2⟩
    simp [Answer.index, hask.1, hask.2.1]
  | next e rest r ys h y hd hk hpos hg =>
    obtain ⟨hf, hclear, hsorted, howed⟩ := hr
    have hy : y.position = e.position := (decodeEntry_position hd hk).trans hpos
    refine ⟨hf, hclear, by simpa [hy] using hsorted, fun a ha hask => ?_⟩
    obtain ⟨hin, hshows⟩ := howed a ha hask
    obtain ⟨-, hdisk⟩ := owed_of_synced hw hp ha
    have hread := hdisk.read
    rw [← length_encodeEntry hdisk.check a.position j.generation] at hread
    refine ⟨?_, Window.read_shows hshows hread⟩
    rcases hin with hin | hin
    · exact .inl (mem_append_left _ hin)
    · rcases mem_cons.mp hin with rfl | hin
      · rw [hdisk.decode_window hshows] at hd
        cases hd
        exact .inl (mem_append_right _ mem_cons_self)
      · exact .inr hin
  | finish r ys =>
    obtain ⟨hf, hclear, hsorted, howed⟩ := hr
    refine ⟨hf, hclear, by simpa using hsorted, fun a ha hask => ?_⟩
    rcases (howed a ha hask).1 with hin | hin
    · exact hin
    · cases hin
  | fail st hne => trivial

/-! ## Sessions -/

variable {s s' : Session}

/-- What holds throughout a session. -/
structure SessionInv (sum : Checksum) (s : Session) (j : Journal) (wr : Writer) : Prop where
  inv : Inv sum s.world.synced
  running : s.world.proc = .running j wr
  counts : j.placed = j.completed + wr.inFlight
  told : ∀ a ∈ s.told, a ∈ s.world.answered
  reads : ∀ id q st, s.reads id = some (q, st) → q.epoch < q.reader ∧ ReadInv sum s.world j wr q st

theorem Session.Starts.inv (h : s.Starts sum size) : ∃ j wr, SessionInv sum s j wr := by
  obtain ⟨j, wr, hp⟩ := h.running
  have hreach : Reaches sum size s.world ∧ Inv sum s.world.synced := by
    rcases h.reached with hw | hw
    · exact ⟨hw.reaches, hw.inv.synced⟩
    · exact ⟨hw.reaches, hw.inv⟩
  have hcounts := hreach.1.counts
  rw [hp] at hcounts
  refine ⟨j, wr, hreach.2, hp, hcounts, fun a ha => ?_, fun id q st hread => ?_⟩
  · rw [h.told] at ha
    cases ha
  · rw [h.reads id] at hread
    cases hread

theorem SessionInv.world (h : SessionInv sum s j wr) {w' : World} (hs : Step sum size s.world w')
    (hp' : w'.proc = .running j' wr') :
    SessionInv sum { s with world := w' } j' wr' ∧ Moves s.world j wr w' j' wr' ∧
      ∀ a ∈ s.world.answered, a ∈ w'.answered := by
  have hmoves := moves_step h.inv h.running hs hp'
  have hgrows : ∀ a ∈ s.world.answered, a ∈ w'.answered := by
    intro a ha
    cases hs with
    | complete k b p ok hk => exact mem_append_left _ ha
    | _ => exact ha
  have hcounts := counts_step hs (by rw [h.running]; exact h.counts)
  rw [hp'] at hcounts
  refine ⟨⟨hs.inv_synced h.inv, hp', hcounts, fun a ha => hgrows a (h.told a ha), ?_⟩, hmoves, hgrows⟩
  intro id q st hread
  obtain ⟨hq, hr⟩ := h.reads id q st hread
  exact ⟨hq, hr.moves hq hmoves⟩

/-- The VM is fenced and nothing behind the fence is in flight. -/
def ReadRequest.Settled (q : ReadRequest) (j : Journal) (wr : Writer) : Prop :=
  q.Fenced j ∧ q.Cleared wr

/-- No commit behind the fence of `q` is completed between two states of a session. -/
def ReadRequest.NoneBehind (q : ReadRequest) (s s' : Session) : Prop :=
  ∀ a ∈ s'.world.answered, a.entry.vm = q.vm → a.entry.epoch < q.reader → a ∈ s.world.answered

theorem Moves.settled (h : Moves w j wr w' j' wr') (hq : q.Settled j wr) : q.Settled j' wr' :=
  ⟨UInt64.le_trans hq.1 (h.fences q.vm), h.cleared q hq.1 hq.2⟩

theorem Moves.noneBehind (h : Moves w j wr w' j' wr') (hq : q.Settled j wr) :
    ∀ a ∈ w'.answered, a.entry.vm = q.vm → a.entry.epoch < q.reader → a ∈ w.answered := by
  intro a ha hvm hlt
  rcases h.answered a ha with ha | ⟨b, p, rfl, ha⟩
  · exact ha
  · exact absurd ⟨hvm, hlt⟩ (hq.2 a ha)

/-- A step of a session keeps what holds of it, and once a read is settled nothing behind its fence
is completed. -/
theorem SessionInv.step (h : SessionInv sum s j wr) (hs : SessionStep sum size s s') :
    ∃ j' wr', SessionInv sum s' j' wr' ∧
      ∀ q : ReadRequest, q.Settled j wr → q.Settled j' wr' ∧ q.NoneBehind s s' := by
  cases hs with
  | world w' k k' x x' hk hk' hstep =>
    obtain ⟨hinv, hmoves, -⟩ := h.world hstep hk'
    exact ⟨k', x', hinv, fun q hq => ⟨hmoves.settled hq, hmoves.noneBehind hq⟩⟩
  | tell a ha =>
    refine ⟨j, wr, { h with told := fun b hb => ?_ }, fun q hq => ⟨hq, fun b hb _ _ => hb⟩⟩
    rcases mem_append.mp hb with hb | hb
    · exact h.told b hb
    · rw [mem_singleton] at hb
      rw [hb]
      exact ha
  | readStart id q k x hk hfree hgen hreader hr =>
    cases hk.symm.trans h.running
    have hcall : Step sum size s.world _ := .call j _ wr hk (.fence q.vm q.reader hr)
    obtain ⟨hinv, hmoves, -⟩ := h.world hcall rfl
    refine ⟨_, _, { hinv with reads := fun id' q' st hread => ?_ },
      fun q hq => ⟨hmoves.settled hq, hmoves.noneBehind hq⟩⟩
    by_cases hid : id' = id
    · subst hid
      cases (update_self ..).symm.trans hread
      refine ⟨hreader, fence_fenced j q, Nat.le_refl _, fun hle => ?_⟩
      -- As many batches are completed as were placed, so none is in flight.
      have hcounts := h.counts
      have hcompleted : (j.fence q.vm q.reader).completed = j.completed := rfl
      exact q.cleared_of_inFlight (by omega)
    · refine hinv.reads id' q' st ?_
      exact (update_of_ne hid _ _).symm.trans hread
  | read id q st st' k x hk hread hstep =>
    cases hk.symm.trans h.running
    obtain ⟨hq, hr⟩ := h.reads id q st hread
    refine ⟨j, wr, { h with reads := fun id' q' st'' hread' => ?_ },
      fun q hq => ⟨hq, fun b hb _ _ => hb⟩⟩
    by_cases hid : id' = id
    · subst hid
      cases (update_self ..).symm.trans hread'
      exact ⟨hq, hr.step h.inv h.running hstep⟩
    · refine h.reads id' q' st'' ?_
      exact (update_of_ne hid _ _).symm.trans hread'

theorem SessionInv.run (h : SessionInv sum s j wr) (hrun : SessionRun sum size s s') :
    ∃ j' wr', SessionInv sum s' j' wr' ∧
      ∀ q : ReadRequest, q.Settled j wr → q.Settled j' wr' ∧ q.NoneBehind s s' := by
  induction hrun with
  | refl => exact ⟨j, wr, h, fun q hq => ⟨hq, fun a ha _ _ => ha⟩⟩
  | tail _ hs ih =>
    obtain ⟨j₁, wr₁, h₁, hsettled⟩ := ih
    obtain ⟨j₂, wr₂, h₂, hsettled'⟩ := h₁.step hs
    refine ⟨j₂, wr₂, h₂, fun q hq => ?_⟩
    obtain ⟨hq₁, hnone⟩ := hsettled q hq
    obtain ⟨hq₂, hnone'⟩ := hsettled' q hq₁
    exact ⟨hq₂, fun a ha hvm hlt => hnone a (hnone' a ha hvm hlt) hvm hlt⟩

end Sproutfs.JournalDisk
