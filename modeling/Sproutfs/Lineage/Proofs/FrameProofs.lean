import Sproutfs.Lineage.Invariant
import Sproutfs.Lineage.Proofs.RecordProofs

/-!
# Primitive changes of a lineage

Every step of a VM is made of a few changes of the state: a handle, a record, a pin, a fork point, an
index or a decided sweep. Each keeps the invariant under a condition of its own, which the steps then
meet.
-/

namespace Sproutfs.Lineage

open Machine Control

/-! ## What only grows -/

/-- The later of two states as far as handles and points refer to it. -/
structure Grows (s t : System) : Prop where
  settled : ∀ i, s.Settled i → t.Settled i
  indexes : ∀ i ∈ s.indexes, i ∈ t.indexes
  pins : ∀ p ∈ s.pins, p ∈ t.pins
  points : ∀ (k : Nat) pt, s.points[k]? = some pt → ∃ pt', t.points[k]? = some pt' ∧
    pt'.index = pt.index
  nonces : ∀ n ∈ s.nonces, n ∈ t.nonces
  lives : ∀ id, s.lives id ≤ t.lives id

variable {s t : System} {r r' : Record} {v v' : VM} {id : List Char} {i : Index}

theorem Grows.of_eq (hn : ∀ n ∈ s.nonces, n ∈ t.nonces := by exact fun _ h => h)
    (hl : ∀ id, s.lives id ≤ t.lives id := by exact fun _ => le_rfl)
    (hi : t.indexes = s.indexes := by rfl) (hc : t.creating = s.creating := by rfl)
    (hp : t.pins = s.pins := by rfl) (hpt : t.points = s.points := by rfl) : Grows s t where
  settled i h := by
    unfold System.Settled at h ⊢
    rwa [hi, hc]
  indexes i h := by rwa [hi]
  pins p h := by rwa [hp]
  points k pt h := ⟨pt, by rwa [hpt], rfl⟩
  nonces := hn
  lives := hl

section

variable (g : Grows s t)

include g

theorem Grows.pinned {r : Ref} (h : s.Pinned r) : t.Pinned r := by
  obtain ⟨p, hp, hvm, j, hj, hjp⟩ := h
  exact ⟨p, g.pins p hp, hvm, j, g.indexes j hj, hjp⟩

theorem Publication.Tracks.mono {p : Publication} (h : p.Tracks s v) :
    p.Tracks t v where
  parent := g.settled _ h.parent
  next := h.next
  below := h.below
  own := h.own
  fork hr := g.pins _ (h.fork hr)
  point k hk := by
    obtain ⟨hr, pt, hpt, hidx⟩ := h.point k hk
    obtain ⟨pt', hpt', hidx'⟩ := g.points k pt hpt
    exact ⟨hr, pt', hpt', hidx'.trans hidx⟩
  committed i hi := by
    obtain ⟨hset, href, hnamed⟩ := h.committed i hi
    exact ⟨g.settled i hset, href, hnamed⟩

theorem Waiting.Tracks.mono {w : Waiting} (h : w.Tracks s v) :
    w.Tracks t v where
  parent := g.settled _ h.parent
  next := h.next
  below := h.below
  own := h.own
  root := h.root
  point := by
    obtain ⟨pt, hpt, hidx⟩ := h.point
    obtain ⟨pt', hpt', hidx'⟩ := g.points w.point pt hpt
    exact ⟨pt', hpt', hidx'.trans hidx⟩
  before := h.before

theorem VM.Tracks.mono (h : v.Tracks s) : v.Tracks t where
  nonce := g.nonces _ h.nonce
  lived := h.lived.trans_le (g.lives v.id)
  base := g.settled _ h.base
  below := h.below
  own := h.own
  fork hr := by
    obtain ⟨k, pt, hk, hpt, hidx, hne⟩ := h.fork hr
    obtain ⟨pt', hpt', hidx'⟩ := g.points k pt hpt
    exact ⟨k, pt', hk, hpt', hidx'.trans hidx, hne⟩
  owned o ho := ⟨g.settled o (h.owned o ho).1, (h.owned o ho).2⟩
  publishing p hp := (h.publishing p hp).mono g
  waiting w hw := (h.waiting w hw).mono g
  landing k hk := by
    obtain ⟨hr, pt, hpt, hvm, hnamed⟩ := h.landing k hk
    obtain ⟨pt', hpt', hidx⟩ := g.points k pt hpt
    exact ⟨hr, pt', hpt', by rw [hidx]; exact hvm, by rw [hidx]; exact hnamed⟩

theorem ForkPoint.Tracks.mono {pt : ForkPoint} (h : pt.Tracks s) :
    pt.Tracks t where
  index := g.settled _ h.index
  pinned := g.pins _ h.pinned
  published i hi := by
    obtain ⟨hset, hpin, hvm, hnamed⟩ := h.published i hi
    exact ⟨g.settled i hset, g.pins _ hpin, hvm, hnamed⟩

theorem Index.Tracks.mono (h : i.Tracks s) : i.Tracks t where
  published r hr := by
    obtain ⟨j, hj, hjr⟩ := h.published r hr
    exact ⟨j, g.indexes j hj, hjr⟩
  foreign r hr hvm := g.pinned (h.foreign r hr hvm)
  ordered := h.ordered

end

/-! ## What a sweep must not reach -/

/-- A state in which no more has gone and no other sweep is decided. -/
structure Calm (s t : System) : Prop where
  gone : t.gone = s.gone
  sweeps : t.sweeps = s.sweeps

theorem Calm.whole (c : Calm s t) (h : s.Whole i) : t.Whole i := by
  unfold System.Whole System.Gone at h ⊢
  rwa [c.gone, c.sweeps]

theorem Calm.stands (c : Calm s t) (g : Grows s t) {r : Ref} (h : s.Stands r) : t.Stands r := by
  obtain ⟨i, hset, href, hw⟩ := h
  exact ⟨i, g.settled i hset, href, c.whole hw⟩

theorem VM.Sound.mono (hw : ∀ i, s.Whole i → t.Whole i) (hle : r.selected ≤ r'.selected) (h : v.Sound s r) :
    v.Sound t r' where
  base := hw _ h.base
  publishing p hp := by
    rcases h.publishing p hp with hlt | ⟨hparent, hcommitted⟩
    · exact .inl (hlt.trans_le hle)
    · exact .inr ⟨hparent, fun i hi => hw i (hcommitted i hi)⟩
  waiting w hw' := (h.waiting w hw').imp_left (·.trans_le hle)

theorem Recorded.mono (g : Grows s t) (c : Calm s t) (hpins : t.pins = s.pins) (h : Recorded s id r) :
    Recorded t id r where
  vm := h.vm
  lived := h.lived.trans_le (g.lives id)
  epoch := h.epoch
  nonce := g.nonces _ h.nonce
  pinned q := by rw [hpins]; exact h.pinned q
  kept k hk := ⟨(h.kept k hk).1, c.stands g (h.kept k hk).2⟩
  selected hc := c.stands g (h.selected hc)
  undeleted := by
    unfold System.Undeleted
    rw [c.sweeps]
    exact h.undeleted

theorem held_iff : s.held v = some r ↔ s.records v.id = some r ∧ r.epoch = v.epoch ∧ r.nonce = v.nonce := by
  simp [System.held, Option.filter_eq_some_iff, Record.mine_iff]

theorem Inv.stands_iff (hi : Inv s) (hmem : i ∈ s.indexes) : s.Stands i.ref → s.Whole i := by
  rintro ⟨j, hset, href, hw⟩
  rw [← hi.refs j hset.1 i hmem href]
  exact hw

/-! ## Handles -/

theorem Inv.held_unique (hi : Inv s) {h h' : Nat} (hv : s.vms h = some v) (hv' : s.vms h' = some v')
    (hid : v.id = v'.id) (hr : s.held v = some r) (hr' : s.held v' = some r') : h = h' := by
  obtain ⟨hrec, -, hn⟩ := held_iff.mp hr
  obtain ⟨hrec', -, hn'⟩ := held_iff.mp hr'
  rw [hid, hrec'] at hrec
  cases hrec
  exact hi.alone h h' v v' hv hv' (hn.symm.trans hn')

/-- A change that puts no index and decides no sweep: what a table has is what it had, or is as it
should be. -/
structure Change (s t : System) : Prop where
  grows : Grows s t := by exact .of_eq
  calm : Calm s t := by exact ⟨rfl, rfl⟩
  indexes : t.indexes = s.indexes := by rfl
  pins : ∀ p ∈ t.pins, p ∈ s.pins ∨ t.Stands p ∧ 0 < t.lives p.vm := by exact fun _ => .inl
  points : ∀ pt ∈ t.points, pt ∈ s.points ∨ pt.Tracks t := by exact fun _ => .inl
  records : ∀ id r, t.records id = some r →
    t.pins = s.pins ∧ s.records id = some r ∨ Recorded t id r := by exact fun _ _ hr => .inl ⟨rfl, hr⟩
  vms : ∀ k v, t.vms k = some v → s.vms k = some v ∨ v.Tracks t := by exact fun _ _ => .inl
  alone : ∀ k k' v v', t.vms k = some v → t.vms k' = some v' → v.nonce = v'.nonce →
    s.vms k = some v ∧ s.vms k' = some v' ∨ k = k' := by exact fun _ _ _ _ hv hv' _ => .inl ⟨hv, hv'⟩
  sound : ∀ k v r, t.vms k = some v → t.held v = some r → v.Sound t r ∨
    s.vms k = some v ∧ ∃ r', s.held v = some r' ∧ r'.selected ≤ r.selected := by
      exact fun _ _ r hv hr => .inr ⟨hv, r, hr, le_rfl⟩
  creating : t.creating = s.creating ∨ ∀ n c, t.creating n = some c → c.Tracks t n := by exact .inl rfl

theorem Inv.change (hi : Inv s) (h : Change s t) : Inv t where
  refs := by
    rw [h.indexes]
    exact hi.refs
  indexes := by
    rw [h.indexes]
    exact fun i hmem => (hi.indexes i hmem).mono h.grows
  pins p hp := (h.pins p hp).elim (fun hp => h.calm.stands h.grows (hi.pins p hp)) And.left
  points pt hpt := (h.points pt hpt).elim (fun hpt => (hi.points pt hpt).mono h.grows) id
  records i r hr := (h.records i r hr).elim (fun hr => (hi.records i r hr.2).mono h.grows h.calm hr.1) id
  vms k v hv := (h.vms k v hv).elim (fun hv => (hi.vms k v hv).mono h.grows) id
  alone k k' v v' hv hv' heq :=
    (h.alone k k' v v' hv hv' heq).elim (fun hv => hi.alone k k' v v' hv.1 hv.2 heq) id
  sound k v r hv hr := by
    rcases h.sound k v r hv hr with hs | ⟨hv, r', hr', hle⟩
    · exact hs
    · exact (hi.sound k v r' hv hr').mono (fun _ => h.calm.whole) hle
  creating := by
    rcases h.creating with hc | hc
    · rw [hc]
      refine fun n c hn => ⟨fun i hroot => ?_⟩
      rw [h.indexes, hc]
      exact (hi.creating n c hn).root i hroot
    · exact hc
  sweeps := by
    rw [h.calm.sweeps, h.indexes]
    exact fun x hx r hk => (hi.sweeps x hx r hk).imp_left (·.trans_le (h.grows.lives _))
  gone := by
    unfold System.Gone
    rw [h.calm.gone, h.indexes]
    exact fun r hr => (hi.gone r hr).imp_left (·.trans_le (h.grows.lives _))
  lived p hp := (h.pins p hp).elim (fun hp => (hi.lived p hp).trans_le (h.grows.lives _)) And.right

theorem Inv.setVM (hi : Inv s) {h : Nat} (hv : s.vms h = some v) (hnonce : v'.nonce = v.nonce)
    (htracks : v'.Tracks s) (hsound : ∀ r, s.held v' = some r → v'.Sound s r) : Inv (s.setVM h v') := by
  refine hi.change
    { vms := fun k w hw => ?_, alone := fun k k' w w' hw hw' heq => ?_, sound := fun k w r hw hr => ?_ }
  · rcases update_some hw with ⟨-, rfl⟩ | ⟨-, hw⟩
    · exact .inr (htracks.mono .of_eq)
    · exact .inl hw
  · rcases update_some hw with ⟨rfl, rfl⟩ | ⟨-, hold⟩
    · rcases update_some hw' with ⟨rfl, -⟩ | ⟨-, hold'⟩
      · exact .inr rfl
      · exact .inr (hi.alone _ _ v w' hv hold' (hnonce.symm.trans heq))
    · rcases update_some hw' with ⟨rfl, rfl⟩ | ⟨-, hold'⟩
      · exact .inr (hi.alone _ _ w v hold hv (heq.trans hnonce))
      · exact .inl ⟨hold, hold'⟩
  · rcases update_some hw with ⟨-, rfl⟩ | ⟨-, hw⟩
    · exact .inl { hsound r hr with }
    · exact .inr ⟨hw, r, hr, le_rfl⟩

/-! ## Records and pins -/

theorem Inv.setRecord (hi : Inv s) (hr : s.records id = some r) (hepoch : r'.epoch = r.epoch)
    (hnonce : r'.nonce = r.nonce) (hle : r.selected ≤ r'.selected) (hrec : Recorded s id r') :
    Inv (s.setRecord id (some r')) := by
  refine hi.change { records := fun id' q hq => ?_, sound := fun k w q hw hq => .inr ⟨hw, ?_⟩ }
  · rcases update_some hq with ⟨rfl, rfl⟩ | ⟨-, hq⟩
    · exact .inr { hrec with }
    · exact .inl ⟨rfl, hq⟩
  · obtain ⟨hq, he, hn⟩ := held_iff.mp hq
    rcases update_some hq with ⟨rfl, rfl⟩ | ⟨-, hq⟩
    · exact ⟨r, held_iff.mpr ⟨hr, hepoch.symm.trans he, hnonce.symm.trans hn⟩, hle⟩
    · exact ⟨q, held_iff.mpr ⟨hq, he, hn⟩, le_rfl⟩

/-- The state with one more pin in a record. -/
def System.pinned (s : System) (id : List Char) (q : Nat) (r : Record) : System :=
  { s.setRecord id (some (pinNext q r)) with pins := ⟨id, q⟩ :: s.pins }

theorem Grows.pinned_state (id : List Char) (q : Nat) (r : Record) : Grows s (s.pinned id q r) where
  settled _ h := h
  indexes _ h := h
  pins _ h := List.mem_cons_of_mem _ h
  points _ pt h := ⟨pt, h, rfl⟩
  nonces _ h := h
  lives _ := le_rfl

theorem Inv.pinned (hi : Inv s) {q : Nat} (hr : s.records id = some r) (hst : s.Stands ⟨id, q⟩) :
    Inv (s.pinned id q r) := by
  refine hi.change
    { grows := .pinned_state id q r, pins := fun p hp => ?_, records := fun id' r' hr' => .inr ?_,
      sound := fun k w r' hw hr' => .inr ⟨hw, ?_⟩ }
  · rcases List.mem_cons.mp hp with rfl | hp
    · exact .inr ⟨hst, (hi.records id r hr).lived⟩
    · exact .inl hp
  · rcases update_some hr' with ⟨rfl, rfl⟩ | ⟨hid, hr'⟩
    · have h := hi.records id' r hr
      refine { h with pinned := fun x => ?_ }
      show x ∈ r.withPin q ↔ _ ∈ _ :: s.pins
      simp [Record.mem_withPin, h.pinned x]
    · have h := hi.records id' r' hr'
      refine { h with pinned := fun x => ?_ }
      show x ∈ r'.pinned ↔ _ ∈ _ :: s.pins
      simp [h.pinned x, hid]
  · obtain ⟨hr', he, hn⟩ := held_iff.mp hr'
    rcases update_some hr' with ⟨rfl, rfl⟩ | ⟨-, hr'⟩
    · exact ⟨r, held_iff.mpr ⟨hr, he, hn⟩, le_refl r.selected⟩
    · exact ⟨r', held_iff.mpr ⟨hr', he, hn⟩, le_rfl⟩

end Sproutfs.Lineage
