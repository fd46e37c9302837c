import Sproutfs.Journal.Proofs.PositionProofs
import Sproutfs.Journal.Proofs.RingSafetyProofs

/-!
# The history of a journal disk

What holds from one world to a later one: answered positions only grow, and so do the counter and the
lease of the durable header. `Traced` ties the history to the durable header of `Inv`, and `Onward`
carries it along a step.
-/

namespace Sproutfs.JournalDisk

open List ByteCodec TornDisk Tiling

variable {sum : Checksum} {size : Nat} {w w' : World} {h : Slot} {c : Fin 2} {l : List Stored}
  {b : Nat} {j : Journal} {s h' : Slot} {i : Fin 2} {config : Config} {generation : UInt64}

/-! ## The process -/

/-- A batch is answered in the order of its positions, and a slot is written under the journal's
lease. -/
def Writer.Sane (j : Journal) : Writer → Prop
  | .header s _ _ => s.lease = j.lease
  | .writing b p | .syncing b p | .completing b p _ =>
    (answers b p).Pairwise fun x y => x.position < y.position
  | .idle | .capturing _ | .stopped => True

/-- The header an open journal holds is under its own lease, which is no older than the one `Open`
found. -/
def Proc.Sane : Proc → Prop
  | .closed => True
  | .opening j _ => j.header.lease.assigned ≤ j.lease.assigned
  | .readingBack j => j.header.lease = j.lease
  | .running j wr => j.header.lease = j.lease ∧ wr.Sane j

theorem openHeader_lease {d : Disk} (hj : openHeader sum config size generation d = .ok j) :
    j.header.lease.assigned ≤ j.lease.assigned := by
  unfold openHeader at hj
  split at hj
  · cases hj
  split at hj
  · cases hj
    exact UInt64.zero_le
  · cases hj
  · split_ifs at hj with h1 h2 h3
    cases hj
    simp only [Slot.leasedAway, Bool.decide_or, Bool.or_eq_true, decide_eq_true_eq, not_or] at h3
    exact UInt64.not_lt.mp h3.1

theorem Step.sane (hs : Step sum size w w') (hw : w.proc.Sane) : w'.proc.Sane := by
  cases hs with
  | openRead config generation j hp hg hj hf => exact openHeader_lease hj
  | openSlot _ _ _ _ hp | trim _ _ _ _ hp | headerSlot _ _ _ _ _ _ hp =>
    rw [hp] at hw
    exact hw
  | openSynced j hp => exact rfl
  | openDone j hp hg =>
    rw [hp] at hw
    exact ⟨hw, trivial⟩
  | call j j' wr hp hcall =>
    rw [hp] at hw
    cases hcall <;> exact hw
  | batch j j' wr wr' d hp hbatch =>
    rw [hp] at hw
    cases hbatch with
    | take | takePad => exact ⟨hw.1, trivial⟩
    | tear | written | writeFails | synced | syncFails => exact hw
  | place j batch made p hp hlen hpl hfit =>
    rw [hp] at hw
    refine ⟨hw.1, ?_⟩
    have hsorted := answers_sorted (j := j) batch (batch.zipWith capture made)
    rw [← hpl] at hsorted
    unfold placedWriter
    split
    · exact hsorted
    · exact hsorted
  | complete j bt p ok hp =>
    rw [hp] at hw
    refine ⟨?_, trivial⟩
    cases ok <;> exact hw.1
  | headerStart _ _ _ hp | closeStart _ _ _ hp =>
    rw [hp] at hw
    exact ⟨hw.1, rfl⟩
  | headerSynced j s closing hp =>
    rw [hp] at hw
    cases closing with
    | true => trivial
    | false => exact ⟨hw.2, trivial⟩
  | headerFails j s st closing hp =>
    rw [hp] at hw
    cases closing with
    | true => trivial
    | false => exact ⟨hw.1, trivial⟩
  | stop j hp hr =>
    rw [hp] at hw
    exact ⟨hw.1, trivial⟩
  | ends => trivial

/-! ## What a step adds to the history -/

theorem Step.answered (hs : Step sum size w w') : w'.answered = w.answered ∨
    ∃ j bt p, w.proc = .running j (.completing bt p true) ∧
      w'.answered = w.answered ++ answers bt p ∧ w'.owed = w.owed ++ answers bt p := by
  cases hs with
  | complete j bt p ok hp =>
    cases ok with
    | false => exact .inl (append_nil _)
    | true => exact .inr ⟨j, bt, p, hp, rfl, rfl⟩
  | _ => exact .inl rfl

/-- A slot set out on is the journal's own, and goes into the slot that does not hold its header. -/
theorem Step.slots (hs : Step sum size w w') : w'.slots = w.slots ∨
    ∃ j s, w'.slots = w.slots ++ [(j.other, s)] ∧ s.lease = j.lease ∧
      ((∃ st, w'.proc = .opening j st) ∨ ∃ wr, w'.proc = .running j wr) := by
  cases hs with
  | openRead config generation j hp hg hj hf =>
    exact .inr ⟨j, j.leaseSlot, rfl, rfl, .inl ⟨_, rfl⟩⟩
  | headerStart j s i hp hr hmoved hlease hs hf =>
    exact .inr ⟨j, j.tailSlot false, rfl, rfl, .inr ⟨_, rfl⟩⟩
  | closeStart j s i hp hclosed hfailed hlease hs hf =>
    exact .inr ⟨j, j.tailSlot j.live.isEmpty, rfl, rfl, .inr ⟨_, rfl⟩⟩
  | _ => exact .inl rfl

/-- The history as the durable header `h`, in slot `c`, and the durable records up to `b` show it. -/
structure Traced (w : World) (h : Slot) (c : Fin 2) (b : Nat) : Prop where
  below : ∀ a ∈ w.answered, a.position < b
  sorted : w.answered.Pairwise fun x y => x.position < y.position
  /-- A slot that may come to be the header is under no older lease. -/
  lease : ∀ s, (1 - c, s) ∈ w.slots → s.counter < h.counter ∨ h.lease.assigned ≤ s.lease.assigned

theorem ProcInv.holds (hinv : ProcInv sum w h c l b)
    (hp : (∃ st, w.proc = .opening j st) ∨ ∃ wr, w.proc = .running j wr) : j.Holds h c := by
  rcases hp with ⟨st, hp⟩ | ⟨wr, hp⟩
  · exact (hinv.of_proc hp).1
  · exact (hinv.of_proc hp).1

theorem Proc.Sane.lease_le (hw : w.proc.Sane)
    (hp : (∃ st, w.proc = .opening j st) ∨ ∃ wr, w.proc = .running j wr) :
    j.header.lease.assigned ≤ j.lease.assigned := by
  rcases hp with ⟨st, hp⟩ | ⟨wr, hp⟩
  · rw [hp] at hw
    exact hw
  · rw [hp] at hw
    have heq : j.header.lease = j.lease := hw.1
    rw [heq]
    exact UInt64.le_refl _

/-- A slot this step sets out on is under no older lease than the durable header after it. -/
theorem Step.slots_lease (hs : Step sum size w w') (hsane : w.proc.Sane) (hinv : ProcInv sum w' h c l b)
    (hmem : (i, s) ∈ w'.slots) : (i, s) ∈ w.slots ∨ h.lease.assigned ≤ s.lease.assigned := by
  rcases hs.slots with heq | ⟨j, t, heq, hlease, hp⟩
  · rw [heq] at hmem
    exact .inl hmem
  · rw [heq] at hmem
    rcases mem_append.mp hmem with hmem | hmem
    · exact .inl hmem
    · rw [mem_singleton, Prod.mk.injEq] at hmem
      obtain ⟨-, rfl⟩ := hmem
      have hle := (hs.sane hsane).lease_le hp
      rw [(hinv.holds hp).header] at hle
      exact .inr (by rw [hlease]; exact hle)

/-- The entries a batch answers with lie from the durable records' end on. -/
theorem answers_ge {bt : Batch} {p : Placement} (hinv : ProcInv sum w h c l b)
    (hp : w.proc = .running j (.completing bt p true)) : ∀ x ∈ answers bt p, b ≤ x.position := by
  obtain ⟨-, hi, -, -, hb, -⟩ := hinv.of_proc hp
  intro x hx
  have hmem := hb.answers x hx
  have hne : p.image ≠ [] := ne_nil_of_mem hmem
  have hbounds := (hb.ring hne).tiles.mem_bounds Stored.position_le_stop hmem
  rw [← hi.written]
  exact hbounds.1

theorem Anchored.owed_below (ha : Anchored sum w.disk w.slots w.images w.owed h c l b) {x : Answer}
    (hx : x ∈ w.owed) : x.position < b := by
  have hmem := ha.owed x hx
  have hbounds := (ha.ring.tiles.mem_bounds Stored.position_le_stop hmem).2
  have hsize := (ha.ring.each _ hmem).wellFormed.size_ge
  have hstop : (x.record h.generation).stop = x.position + (x.record h.generation).item.size := rfl
  rw [minEntryBytes_eq] at hsize
  omega

theorem Traced.step {c' : Fin 2} {l' : List Stored} {b' : Nat} (ht : Traced w h c b)
    (ha : Anchored sum w.disk w.slots w.images w.owed h c l b) (hinv : ProcInv sum w h c l b)
    (hsane : w.proc.Sane) (hs : Step sum size w w') (hon : Onward w.slots h c b h' c' b')
    (ha' : Anchored sum w'.disk w'.slots w'.images w'.owed h' c' l' b')
    (hinv' : ProcInv sum w' h' c' l' b') : Traced w' h' c' b' := by
  have hstop := hon.stop
  have holder : ∀ s, (1 - c', s) ∈ w.slots →
      s.counter < h'.counter ∨ h'.lease.assigned ≤ s.lease.assigned := by
    intro s hmem
    rcases hon.header with ⟨rfl, rfl⟩ | ⟨hfollows, rfl, -⟩
    · exact ht.lease s hmem
    · -- the slot the header was in holds nothing newer than that header
      rw [other_other] at hmem
      have := ha.current s hmem
      have := hfollows.counter
      exact .inl (by omega)
  refine ⟨?_, ?_, ?_⟩
  · intro a hmem
    rcases hs.answered with heq | ⟨j, bt, p, hp, heq, howed⟩
    · rw [heq] at hmem
      exact Nat.lt_of_lt_of_le (ht.below a hmem) hstop
    · rw [heq] at hmem
      rcases mem_append.mp hmem with hmem | hmem
      · exact Nat.lt_of_lt_of_le (ht.below a hmem) hstop
      · exact ha'.owed_below (by rw [howed]; exact mem_append_right _ hmem)
  · rcases hs.answered with heq | ⟨j, bt, p, hp, heq, -⟩
    · rw [heq]
      exact ht.sorted
    · rw [heq]
      have hge := answers_ge hinv hp
      rw [hp] at hsane
      refine pairwise_append.mpr ⟨ht.sorted, hsane.2, fun a hmem x hx => ?_⟩
      exact Nat.lt_of_lt_of_le (ht.below a hmem) (hge x hx)
  · intro s hmem
    rcases hs.slots_lease hsane hinv' hmem with hmem | hle
    · exact holder s hmem
    · exact .inr hle

/-! ## Runs -/

/-- A disk with a durable header `h`, in slot `c`, and durable records up to `b`, and its history. -/
structure HistoryAt (sum : Checksum) (w : World) (h : Slot) (c : Fin 2) (b : Nat) : Prop where
  anchored : ∃ l, Anchored sum w.disk w.slots w.images w.owed h c l b ∧ ProcInv sum w h c l b
  traced : Traced w h c b
  sane : w.proc.Sane

/-- The invariant of the history: there is no durable header and nothing was answered, or there
is one. -/
def History (sum : Checksum) (w : World) : Prop :=
  (Fresh sum w ∧ w.answered = [] ∧ w.proc.Sane) ∨ ∃ h c b, HistoryAt sum w h c b

/-- What a step or a whole run leaves: a durable header no older than `h` in counter and lease, the
same answers, and after them some that lie from `b` on. -/
structure Ahead (w : World) (h : Slot) (b : Nat) (w' : World) (h' : Slot) (b' : Nat) : Prop where
  counter : h.counter ≤ h'.counter
  lease : h.lease.assigned ≤ h'.lease.assigned
  stop : b ≤ b'
  answered : ∃ more, w'.answered = w.answered ++ more ∧ ∀ x ∈ more, b ≤ x.position

theorem Ahead.refl : Ahead w h b w h b :=
  ⟨Nat.le_refl _, UInt64.le_refl _, Nat.le_refl _, [], (append_nil _).symm, nofun⟩

theorem Ahead.trans {w'' : World} {h'' : Slot} {b' b'' : Nat} (h₁ : Ahead w h b w' h' b')
    (h₂ : Ahead w' h' b' w'' h'' b'') : Ahead w h b w'' h'' b'' := by
  obtain ⟨more, heq, hge⟩ := h₁.answered
  obtain ⟨more', heq', hge'⟩ := h₂.answered
  have hstop := h₁.stop
  refine ⟨h₁.counter.trans h₂.counter, UInt64.le_trans h₁.lease h₂.lease, hstop.trans h₂.stop,
    more ++ more', by rw [heq', heq, append_assoc], fun x hx => ?_⟩
  rcases mem_append.mp hx with hx | hx
  · exact hge x hx
  · exact hstop.trans (hge' x hx)

theorem Traced.lease_le (ht : Traced w h c b) (hmem : (1 - c, s) ∈ w.slots) (hfollows : h.Follows s) :
    h.lease.assigned ≤ s.lease.assigned := by
  have := hfollows.counter
  rcases ht.lease s hmem with hlt | hle
  · omega
  · exact hle

theorem HistoryAt.step (hw : HistoryAt sum w h c b) (hs : SteadyStep sum size w w') :
    ∃ h' c' b', HistoryAt sum w' h' c' b' ∧ Ahead w h b w' h' b' := by
  obtain ⟨⟨l, ha, hinv⟩, ht, hsane⟩ := hw
  obtain ⟨hs, hsteady⟩ := hs
  cases hs with
  | step w' hs =>
    obtain ⟨h', c', l', b', hon, ha', hinv'⟩ := inv_step_anchored ha hinv hs hsteady
    refine ⟨h', c', b', ⟨⟨l', ha', hinv'⟩, ht.step ha hinv hsane hs hon ha' hinv', hs.sane hsane⟩, ?_⟩
    have hmore : ∃ more, w'.answered = w.answered ++ more ∧ ∀ x ∈ more, b ≤ x.position := by
      rcases hs.answered with heq | ⟨j, bt, p, hp, heq, -⟩
      · exact ⟨[], by rw [heq, append_nil], nofun⟩
      · exact ⟨_, heq, answers_ge hinv hp⟩
    rcases hon.header with ⟨rfl, rfl⟩ | ⟨hfollows, rfl, hmem⟩
    · exact ⟨Nat.le_refl _, UInt64.le_refl _, hon.stop, hmore⟩
    · exact ⟨by rw [hfollows.counter]; omega, ht.lease_le hmem hfollows, hon.stop, hmore⟩
  | powerLoss d hcrash => exact ⟨h, c, b, ⟨⟨l, ha.crash hcrash, trivial⟩, { ht with }, trivial⟩, { Ahead.refl with }⟩

theorem HistoryAt.run (hw : HistoryAt sum w h c b)
    (hrun : Relation.ReflTransGen (SteadyStep sum size) w w') :
    ∃ h' c' b', HistoryAt sum w' h' c' b' ∧ Ahead w h b w' h' b' := by
  induction hrun with
  | refl => exact ⟨h, c, b, hw, .refl⟩
  | tail _ hs ih =>
    obtain ⟨h₁, c₁, b₁, hw₁, hahead₁⟩ := ih
    obtain ⟨h₂, c₂, b₂, hw₂, hahead₂⟩ := hw₁.step hs
    exact ⟨h₂, c₂, b₂, hw₂, hahead₁.trans hahead₂⟩

theorem Fresh.step_answered (hw : Fresh sum w) (hs : Step sum size w w') :
    w'.answered = w.answered := by
  rcases hs.answered with heq | ⟨j, bt, p, hp, -⟩
  · exact heq
  · exact absurd hp hw.not_running

theorem Fresh.traced (hw : Fresh sum w) (hnone : w.answered = []) (hsane : w.proc.Sane)
    (hs : Step sum size w w') (hinv : ProcInv sum w' h 0 l b) : Traced w' h 0 b := by
  have hsame : w'.answered = [] := by
    rw [hw.step_answered hs, hnone]
  refine ⟨?_, ?_, fun s hmem => ?_⟩
  · intro a hmem
    rw [hsame] at hmem
    cases hmem
  · rw [hsame]
    exact List.Pairwise.nil
  · rcases hs.slots_lease hsane hinv hmem with hmem | hle
    · exact absurd (hw.slots _ s hmem).1 (by decide)
    · exact .inr hle

theorem Fresh.step_history (hw : Fresh sum w) (hnone : w.answered = []) (hsane : w.proc.Sane)
    (hs : SteadyStep sum size w w') : History sum w' := by
  obtain ⟨hs, hsteady⟩ := hs
  cases hs with
  | step w' hs =>
    rcases inv_step_fresh hw hs hsteady with hw' | ⟨h, l, b, ha, hinv⟩
    · exact .inl ⟨hw', (hw.step_answered hs).trans hnone, hs.sane hsane⟩
    · exact .inr ⟨h, 0, b, ⟨l, ha, hinv⟩, hw.traced hnone hsane hs hinv, hs.sane hsane⟩
  | powerLoss d hcrash =>
    refine .inl ⟨{ hw with pending := ?_, proc := .inl rfl }, hnone, trivial⟩
    intro x hx
    rw [hcrash.1] at hx
    cases hx

theorem History.step (hw : History sum w) (hs : SteadyStep sum size w w') : History sum w' := by
  rcases hw with ⟨hf, hnone, hsane⟩ | ⟨h, c, b, hw⟩
  · exact hf.step_history hnone hsane hs
  · obtain ⟨h', c', b', hw', -⟩ := hw.step hs
    exact .inr ⟨h', c', b', hw'⟩

theorem SteadyReaches.history (hw : SteadyReaches sum size w) : History sum w := by
  obtain ⟨d, hrun⟩ := hw
  induction hrun with
  | refl => exact .inl ⟨fresh_blank d, rfl, trivial⟩
  | tail _ hs ih => exact ih.step hs

/-! ## The header and the lease -/

/-- The sync that ends the write of the header `s`: the one `Open` takes the lease with, or one
`writeHeader` writes. -/
inductive SyncsHeader (w : World) : World → Slot → Prop where
  | opens (j : Journal) (hp : w.proc = .opening j .sync) :
      SyncsHeader w
        { w with disk := w.disk.sync, proc := .readingBack (j.tookSlot j.leaseSlot) } j.leaseSlot
  | writes (j : Journal) (s : Slot) (closing : Bool)
      (hp : w.proc = .running j (.header s .sync closing)) :
      SyncsHeader w { w with disk := w.disk.sync, proc := afterHeader (j.tookSlot s) closing } s

/-- `Open` up to the lease, over the world: one that is refused returns before it writes. -/
def World.open (sum : Checksum) (config : Config) (size : Nat) (generation : UInt64) (w : World) :
    Except OpenError Journal × World :=
  match openHeader sum config size generation w.disk with
  | .error err => (.error err, w)
  | .ok j => (.ok j, { w with proc := .opening j .write
                              slots := w.slots ++ [(j.other, j.leaseSlot)] })

theorem SyncsHeader.step (hs : SyncsHeader w w' s) : Step sum size w w' := by
  cases hs with
  | opens j hp => exact .openSynced j hp
  | writes j s closing hp => exact .headerSynced j s closing hp

/-- The header whose write was synced is the durable one. -/
theorem SyncsHeader.historyAt (hs : SyncsHeader w w' s) (hw : History sum w) :
    ∃ c b, HistoryAt sum w' s c b := by
  have hstep : Step sum 0 w w' := hs.step
  rcases hw with ⟨hf, hnone, hsane⟩ | ⟨h, c, b, ⟨⟨l, ha, hinv⟩, ht, hsane⟩⟩
  · cases hs with
    | opens j hp =>
      obtain ⟨hj, ha⟩ := hf.openSynced hp
      have hinv : ProcInv sum
          { w with disk := w.disk.sync, proc := .readingBack (j.tookSlot j.leaseSlot) }
          j.leaseSlot 0 [] j.leaseSlot.tail := ⟨hj.tookSlot hj.leaseSlot.1, rfl⟩
      exact ⟨0, _, ⟨[], ha, hinv⟩, hf.traced hnone hsane hstep hinv, hstep.sane hsane⟩
    | writes j s closing hp => exact absurd hp hf.not_running
  · have hnext : ∃ l', h.Follows s ∧ (1 - c, s) ∈ w.slots ∧
        Anchored sum w'.disk w'.slots w'.images w'.owed s (1 - c) l' b ∧
        ProcInv sum w' s (1 - c) l' b := by
      cases hs with
      | opens j hp =>
        obtain ⟨hj, hmem, hread⟩ := hinv.of_proc hp
        obtain ⟨hfollows, hmem', l', hnew⟩ := inv_openSynced ha hj hmem (hread rfl)
        exact ⟨l', hfollows, hmem', hnew⟩
      | writes j s closing hp =>
        obtain ⟨hfollows, hmem, l', hnew⟩ := inv_headerSynced ha hp hinv
        exact ⟨l', hfollows, hmem, hnew⟩
    obtain ⟨l', hfollows, hmem, ha', hinv'⟩ := hnext
    exact ⟨1 - c, b, ⟨l', ha', hinv'⟩,
      ht.step ha hinv hsane hstep (.next hfollows hmem) ha' hinv', hstep.sane hsane⟩

/-- What a later `Open` reads is no older than the durable header. -/
theorem HistoryAt.readHeader (hw : HistoryAt sum w h c b) (hg : GenuineSlots sum w.disk w.slots)
    (hr : readHeader sum w.disk = .ok (s, i)) :
    h.counter ≤ s.counter ∧ h.lease.assigned ≤ s.lease.assigned := by
  obtain ⟨⟨l, ha, -⟩, ht, -⟩ := hw
  rcases ha.readHeader_eq hg hr with ⟨rfl, -⟩ | ⟨rfl, hmem, hfollows, -⟩
  · exact ⟨Nat.le_refl _, UInt64.le_refl _⟩
  · exact ⟨by rw [hfollows.counter]; omega, ht.lease_le hmem hfollows⟩

/-- What a header that was read says of the disk: it was written, and its tail is at or before every
answered entry that no trim has covered. -/
theorem History.readHeader_tail (hw : History sum w) (hg : GenuineSlots sum w.disk w.slots)
    (hr : JournalDisk.readHeader sum w.disk = .ok (s, i)) : ∀ x ∈ w.owed, s.tail ≤ x.position := by
  intro x hx
  rcases hw with ⟨hf, -⟩ | ⟨h, c, b, ⟨⟨l, ha, -⟩, -⟩⟩
  · rw [hf.owed] at hx
    cases hx
  · have hbound : ∀ {t l'}, Tiles Stored.position Stored.stop l' t b →
        x.record h.generation ∈ l' → t ≤ x.position := by
      intro t l' htiles hmem
      exact (htiles.mem_bounds Stored.position_le_stop hmem).1
    rcases ha.readHeader_eq hg hr with ⟨rfl, -⟩ | ⟨rfl, hmem, hfollows, -⟩
    · exact hbound ha.ring.tiles (ha.owed x hx)
    · rcases ha.other s hmem with hlt | ⟨-, l₁, l₂, -, -, htiles, howed⟩
      · have := hfollows.counter
        omega
      · exact hbound htiles (howed x hx)

theorem openHeader_older {d : Disk} (hne : readHeader sum d ≠ .error .noSlot)
    (hnewer : ∀ s i, readHeader sum d = .ok (s, i) → config.lease.assigned < s.lease.assigned)
    (size : Nat) (generation : UInt64) : ∃ err, openHeader sum config size generation d = .error err := by
  unfold openHeader
  by_cases hsize : size < ringOffset + minRingSize
  · exact ⟨_, if_pos hsize⟩
  rw [if_neg hsize]
  split
  · next hr => exact absurd hr hne
  · exact ⟨_, rfl⟩
  · next s i hr =>
    have haway : s.leasedAway config.lease = true := by
      simp [Slot.leasedAway, hnewer s i hr]
    by_cases hidentity : s.identity ≠ config.identity
    · exact ⟨_, if_pos hidentity⟩
    by_cases hring : ¬ s.ringFits size
    · exact ⟨_, (if_neg hidentity).trans (if_pos hring)⟩
    · exact ⟨.leased, (if_neg hidentity).trans ((if_neg hring).trans (if_pos haway))⟩

theorem World.open_error {err : OpenError} (h : openHeader sum config size generation w.disk = .error err) :
    w.open sum config size generation = (.error err, w) := by
  unfold World.open
  rw [h]

theorem World.open_ok (h : openHeader sum config size generation w.disk = .ok j) :
    (w.open sum config size generation).1 = .ok j := by
  unfold World.open
  rw [h]

/-- A header that a later `Open` may read after `s` was synced: no older than `s`, and an `Open` under
an assignment older than that of `s` is refused and leaves the disk as it is. -/
structure KeepsHeader (sum : Checksum) (size : Nat) (s : Slot) (w : World) : Prop where
  found : readHeader sum w.disk ≠ .error .noSlot
  newer : ∀ t i, readHeader sum w.disk = .ok (t, i) →
    s.counter ≤ t.counter ∧ s.lease.assigned ≤ t.lease.assigned
  refused : ∀ config generation, config.lease.assigned < s.lease.assigned →
    ∃ err, w.open sum config size generation = (.error err, w)

theorem Inv.slot_fits (hw : Inv sum w) (hs : (i, s) ∈ w.slots) : s.Fits := by
  rcases hw with hf | ⟨h, c, l, b, ha, -⟩
  · exact (hf.slots i s hs).2.fits
  · exact ha.fits i s hs

theorem Inv.readHeader_mem (hw : Inv sum w) (hg : GenuineSlots sum w.disk w.slots)
    (hr : JournalDisk.readHeader sum w.disk = .ok (s, i)) : (i, s) ∈ w.slots := by
  have hs := (readHeader_ok hr).1
  obtain ⟨t, ht, hread⟩ := hg i s hs
  obtain rfl : t = s := by simpa using (slotAt_of_read (hw.slot_fits ht) hread).symm.trans hs
  exact ht

theorem Inv.header_stable (hw : Inv sum w) {wr : Writer} (hp : w.proc = .running j wr) :
    w.disk.Stable (slotOffset j.current) (slotImage sum j.header) := by
  obtain ⟨h, c, l, b, ha, hholds, -⟩ := hw.running hp
  rw [hholds.header, hholds.current]
  exact ha.header

/-- In every run in which each `Open` finds a durable header: a header that is read was written, and
its tail is at or before every answered entry that no trim has covered; once a header's write is
synced, every later one that is read is no older, in counter and in assignment, and an `Open` under
an older assignment is refused and changes nothing; and the header an open journal holds is durable,
with its tail at or before every live entry. -/
theorem durable_header_and_lease (hw : SteadyReaches sum size w) :
    (∀ s i, GenuineSlots sum w.disk w.slots → readHeader sum w.disk = .ok (s, i) →
      (i, s) ∈ w.slots ∧ ∀ x ∈ w.owed, s.tail ≤ x.position) ∧
    (∀ w₁ s w₂, SyncsHeader w w₁ s → Relation.ReflTransGen (SteadyStep sum size) w₁ w₂ →
      GenuineSlots sum w₂.disk w₂.slots → KeepsHeader sum size s w₂) ∧
    ∀ j wr, w.proc = .running j wr → w.disk.Stable (slotOffset j.current) (slotImage sum j.header) ∧
      ∀ e ∈ j.live, j.header.tail ≤ e.position := by
  have hhist := hw.history
  refine ⟨fun s i hg hr => ⟨hw.inv.readHeader_mem hg hr, hhist.readHeader_tail hg hr⟩, ?_, ?_⟩
  · intro w₁ s w₂ hsync hrun hg
    obtain ⟨c, b, hw₁⟩ := hsync.historyAt hhist
    obtain ⟨h, c', b', hw₂, hahead⟩ := hw₁.run hrun
    obtain ⟨l, ha, -⟩ := hw₂.anchored
    have hnewer : ∀ t i, readHeader sum w₂.disk = .ok (t, i) →
        s.counter ≤ t.counter ∧ s.lease.assigned ≤ t.lease.assigned := by
      intro t i hr
      obtain ⟨hcounter, hlease⟩ := hw₂.readHeader hg hr
      exact ⟨hahead.counter.trans hcounter, UInt64.le_trans hahead.lease hlease⟩
    refine ⟨ha.readHeader_ne, hnewer, fun config generation hlt => ?_⟩
    obtain ⟨err, herr⟩ := openHeader_older ha.readHeader_ne
      (fun t i hr => UInt64.lt_of_lt_of_le hlt (hnewer t i hr).2) size generation
    exact ⟨err, World.open_error herr⟩
  · intro j wr hp
    obtain ⟨horder, -⟩ := inOrder_of_inv hw.inv hp
    exact ⟨hw.inv.header_stable hp, fun e he => (horder.entries e he).1⟩

/-! ### A disk that is taken over

The first header of a new disk, a second one under a newer lease, and a loss of power after which
only the first is left.
-/

theorem sampleDisk_noSlot : slotAt sum (sampleDisk sum) 1 = .error .noSlot :=
  slotAt_noSlot (by rw [sampleDisk_slots.2]; decide)

theorem sampleDisk_genuine : GenuineSlots sum (sampleDisk sum) [(0, sampleSlot 1 7)] :=
  genuineSlots_of (.inr ⟨_, mem_cons_self, sampleDisk_slots.1⟩) (.inl sampleDisk_noSlot)

theorem sampleDisk_header : readHeader sum (sampleDisk sum) = .ok (sampleSlot 1 7, 0) :=
  readHeader_sampleSlot sampleDisk_slots.1 sampleDisk_noSlot

/-- The theorem at the header of a disk just formatted. -/
theorem durable_header_and_lease_sample : KeepsHeader sampleSum sampleSize (sampleSlot 1 7)
    (sampleWorld (sampleDisk sampleSum) (sampleJournal 7) .idle [] []) := by
  have hwritten : SteadyReaches sampleSum sampleSize _ :=
    ⟨fun _ => 0, sample_formatting (w := .blank fun _ => 0) (g := 7) rfl (blank_slot 0)
      (blank_slot 1)⟩
  obtain ⟨-, hkeeps, -⟩ := durable_header_and_lease hwritten
  have hback : Step sampleSum sampleSize _ _ := sample_readBack
    (w := ⟨sampleDisk sampleSum, .readingBack ((sampleFound 7).tookSlot (sampleSlot 1 7)),
      [(0, sampleSlot 1 7)], [], [], []⟩) rfl fun _ _ hstart position => sampleDisk_ring hstart position
  exact hkeeps _ _ _ (.opens (sampleFound 7) rfl) (.single (.of_ne hback (by simp)))
    sampleDisk_genuine

/-- The member the disk is assigned to next. -/
def takeoverConfig : Config := ⟨⟨zeros 16, length_sixteen⟩, ⟨2, ⟨zeros 16, length_sixteen⟩⟩⟩

/-- The header it takes the lease with. -/
def takeoverSlot : Slot := { sampleSlot 2 7 with lease := takeoverConfig.lease }

theorem takeoverSlot_opens : takeoverSlot.Opens takeoverConfig sampleSize :=
  ⟨rfl, (sampleSlot_opens 2).ring, rfl, rfl⟩

theorem takeoverSlot_fits {n : Nat} (hn : 2 + n < 2 ^ 64) : (takeoverSlot.after n).Fits := by
  have hf := sampleSlot_fits hn 7
  exact { hf with }

/-- The journal `Open` holds before it takes the lease. -/
def takeoverJournal : Journal := found takeoverConfig (sampleSlot 1 7) 0 false

/-- The disk with the second header on it. -/
def takeoverDisk (sum : Checksum) : Disk := slotWritten sum (sampleDisk sum) 1 takeoverSlot

def takeoverWorld (d : Disk) (proc : Proc) : World :=
  ⟨d, proc, [(0, sampleSlot 1 7), (1, takeoverSlot)], [], [], []⟩

theorem takeover_reaches :
    Reaches sum sampleSize (takeoverWorld (takeoverDisk sum) (.opening takeoverJournal .sync)) := by
  have hclosed : Reaches sum sampleSize
      ⟨sampleDisk sum, .closed, [(0, sampleSlot 1 7)], [], [], []⟩ := sample_opened.reaches.tail .ends
  have hopen : openHeader sum takeoverConfig sampleSize 0 (sampleDisk sum) = .ok takeoverJournal :=
    openHeader_found (by decide) rfl (sampleSlot_opens 1).ring (by decide) sampleDisk_header 0
  have hread := hclosed.tail (.openRead takeoverConfig 0 takeoverJournal rfl sampleDisk_genuine hopen
    (takeoverSlot_fits (n := 0) (by decide)))
  exact hread.tail (.openSlot takeoverJournal .write .sync _ rfl .written)

/-- What a loss of power leaves as the second header is written over. -/
def rolledBackDisk (sum : Checksum) : Disk := tornAt (takeoverDisk sum).sync 1 4

theorem takeoverDisk_slots :
    (takeoverDisk sum).read (slotOffset 0) slotLength = slotImage sum (sampleSlot 1 7) ∧
      (takeoverDisk sum).read (slotOffset 1) slotLength = slotImage sum takeoverSlot := by
  constructor
  · exact (slotWritten_read _ 0 _).trans sampleDisk_slots.1
  · exact read_slotWrites _ _ _

theorem rolledBackDisk_slots :
    (rolledBackDisk sampleSum).read (slotOffset 0) slotLength = slotImage sampleSum (sampleSlot 1 7) ∧
      slotAt sampleSum (rolledBackDisk sampleSum) 1 = .error .noSlot := by
  constructor
  · rw [rolledBackDisk, tornAt_read_of_ne rfl (.inl (by decide)), Disk.read_sync]
    exact takeoverDisk_slots.1
  · rw [slotAt_eq, rolledBackDisk, tornAt_read rfl, Disk.read_sync, takeoverDisk_slots.2]
    decide +kernel

theorem rolledBackDisk_header :
    readHeader sampleSum (rolledBackDisk sampleSum) = .ok (sampleSlot 1 7, 0) :=
  readHeader_sampleSlot rolledBackDisk_slots.1 rolledBackDisk_slots.2

/-- A run in which a header whose write was synced is lost, and with it the lease: the disk is left
with the header before it, and an `Open` under the older assignment goes on. -/
theorem synced_header_lost : ∃ w w₁ w₂ s t i config j, Reaches sampleSum sampleSize w ∧
    SyncsHeader w w₁ s ∧ Relation.ReflTransGen (Event sampleSum sampleSize) w₁ w₂ ∧
    GenuineSlots sampleSum w₂.disk w₂.slots ∧ readHeader sampleSum w₂.disk = .ok (t, i) ∧
    t.counter < s.counter ∧ t.lease.assigned < s.lease.assigned ∧
    config.lease.assigned < s.lease.assigned ∧
    (w₂.open sampleSum config sampleSize 0).1 = .ok j := by
  obtain ⟨hslot0, hslot1⟩ := @takeoverDisk_slots sampleSum
  have hok0 : slotAt sampleSum (takeoverDisk sampleSum).sync 0 = .ok (sampleSlot 1 7) :=
    (slotAt_sync _ _).trans (slotAt_of_read (sampleSlot_fits (by decide) 7) hslot0)
  have hok1 : slotAt sampleSum (takeoverDisk sampleSum).sync 1 = .ok takeoverSlot :=
    (slotAt_sync _ _).trans (slotAt_of_read (takeoverSlot_fits (n := 0) (by decide)) hslot1)
  have hgenuine : GenuineSlots sampleSum (takeoverDisk sampleSum).sync
      [(0, sampleSlot 1 7), (1, takeoverSlot)] :=
    genuineSlots_of (.inr ⟨_, mem_cons_self, (Disk.read_sync _ _ _).trans hslot0⟩)
      (.inr ⟨_, mem_cons_of_mem _ mem_cons_self, (Disk.read_sync _ _ _).trans hslot1⟩)
  have hheader : readHeader sampleSum (takeoverDisk sampleSum).sync = .ok (takeoverSlot, 1) :=
    readHeader_of_slots (c := 0) hok0 hok1 (by decide)
  have hbyte : (slotOffset 1 + 8, (4 : UInt8)) ∈
      writesAt (slotOffset 1) (encodeSlot sampleSum (takeoverSlot.after 2)) :=
    mem_writesAt.mpr ⟨8, by rw [length_encodeSlot]; decide, rfl, rfl⟩
  have htorn := header_torn (w := takeoverWorld (takeoverDisk sampleSum).sync .closed)
    takeoverSlot_opens (by decide) (takeoverSlot_fits (by decide)) hbyte rfl hgenuine hheader
  have hopen : openHeader sampleSum sampleConfig sampleSize 0 (rolledBackDisk sampleSum) = _ :=
    openHeader_found (by decide) rfl (sampleSlot_opens 1).ring (by decide) rolledBackDisk_header 0
  refine ⟨_, _, _, takeoverSlot, sampleSlot 1 7, 0, sampleConfig,
    found sampleConfig (sampleSlot 1 7) 0 false, @takeover_reaches sampleSum,
    .opens takeoverJournal rfl, .head (.step _ .ends) htorn, ?_, rolledBackDisk_header, by decide,
    by decide, by decide, ?_⟩
  · exact genuineSlots_of (.inr ⟨_, mem_cons_self, rolledBackDisk_slots.1⟩) (.inl rolledBackDisk_slots.2)
  · exact World.open_ok hopen

end Sproutfs.JournalDisk
