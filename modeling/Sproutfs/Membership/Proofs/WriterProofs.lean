import Sproutfs.Membership.JournalFleet
import Sproutfs.Membership.Proofs.LetGoProofs

/-!
# Who may still write a journal disk

A machine writes a journal disk while it has a live entry on it, or a handle of it as its own disk, or is
about to open it as such, and nobody reported the disk empty under that assignment. A disk the membership
does not list, lists as a cache disk, marks empty or is deleting has no writer; any other is reserved for
its writer's machine or for none.
-/

namespace Sproutfs.Cluster

variable {m m' : Membership} {id : Identity} {d d' : Disk} {u : Updates}

/-! ## Numbers of assignments -/

/-- The number is not above the disk's assignment, nor the generation. -/
def Membership.Older (m : Membership) (id : Identity) (n : Nat) : Prop :=
  n ≤ m.generation ∧ ∀ d, m.Assigned id d → n ≤ d.assigned

/-- What the next generation makes of an assigned disk: it was assigned under the same number, or this
generation assigned it. -/
theorem step_assigned (h : step m m' = .ok ()) (hd' : m'.Assigned id d') :
    (∃ d, m.Assigned id d ∧ d'.assigned = d.assigned ∧ d'.kind = d.kind) ∨
      d'.assigned = m'.generation ∧ d'.state = .attaching ∧ ∀ d ∈ m.disk id, d.state = .released := by
  have hmoved := step_moved h id
  have hassigned := hd'.2
  rw [hd'.1] at hmoved
  generalize hwas : m.disk id = was at hmoved
  cases hmoved with
  | assigned _ _ hs hrel hg => exact .inr ⟨hg, hs, fun d hd => (hrel d hd).1⟩
  | kept d _ hw hs hm hg hle hk => exact .inl ⟨d, ⟨hwas, hw⟩, hg, hk⟩
  | added _ hs | letGo _ _ _ hs | rests _ _ _ hs | deleted _ _ _ _ hs | deleting _ _ _ hs =>
    simp [hs, DiskState.assigned] at hassigned

theorem Membership.Older.step {n : Nat} (ho : m.Older id n) (h : step m m' = .ok ()) :
    m'.Older id n := by
  have hgen := (step_ok h).1
  have hle := ho.1
  refine ⟨by omega, fun d' hd' => ?_⟩
  rcases step_assigned h hd' with ⟨d, hd, heq, -⟩ | ⟨heq, -⟩
  · rw [heq]
    exact ho.2 d hd
  · omega

/-- An earlier generation, in which an assignment is for the machine it is for now. -/
def Membership.Precedes (m m' : Membership) : Prop :=
  m.generation ≤ m'.generation ∧ ∀ id d d', m.Assigned id d → m'.Assigned id d' →
    d'.assigned = d.assigned → d'.machine = d.machine ∧ d'.kind = d.kind

theorem Membership.Precedes.refl (m : Membership) : m.Precedes m := by
  refine ⟨le_rfl, fun id d d' hd hd' _ => ?_⟩
  cases hd.1.symm.trans hd'.1
  exact ⟨rfl, rfl⟩

/-- A reservation changes only while its disk is released, and a disk is not assigned marked. -/
theorem step_reserved (h : step m m' = .ok ()) (hd : m.disk id = some d) (hd' : m'.disk id = some d') :
    (d.state ≠ .released → d'.machine = d.machine) ∧
      (d.state = .released → d'.state = .attaching → d'.empty = false) := by
  have hok := (step_ok h).2.1 d' (Membership.disk_mem hd')
  rw [Membership.disk_id hd', hd] at hok
  have hjournal : stepJournal (some d) d' = .ok () := by
    unfold stepDisk at hok
    split at hok
    · cases hok
    · assumption
  simp only [stepJournal] at hjournal
  split_ifs at hjournal with h1 h2 h3 h4 h5
  refine ⟨fun hs => ?_, fun hs hs' => ?_⟩
  · by_contra hne
    exact h5 ⟨hne, hs⟩
  · by_contra he
    exact h3 ⟨hs', hs, by simpa using he⟩

theorem Membership.Precedes.step {first : Membership} (hp : first.Precedes m) (h : step m m' = .ok ()) :
    first.Precedes m' := by
  have hgen := (step_ok h).1
  refine ⟨hp.1.trans (by omega), fun id d d' hd hd' hn => ?_⟩
  rcases step_assigned h hd' with ⟨was, hwas, heq, hk⟩ | ⟨heq, -⟩
  · obtain ⟨hm, hk'⟩ := hp.2 id d was hd hwas (heq.symm.trans hn)
    have hs : was.state ≠ .released := by
      intro hs
      have := hwas.2
      simp [hs, DiskState.assigned] at this
    exact ⟨((step_reserved h hwas.1 hd'.1).1 hs).trans hm, hk.trans hk'⟩
  · have := (Membership.assigned_ok hd.1 hd.2).2.2
    have := hp.1
    omega

namespace JournalFleet

open Fleet

variable {c : Config} {size : Membership → Nat} {s s' : JournalFleet} {disk : Identity} {x : String}

/-! ## Writers -/

def Writes (c : Config) (s : JournalFleet) (disk : Identity) (x : String) : Prop :=
  x ∈ s.live disk ∨
    (∃ p, s.fleet.devices x disk = some p ∧ s.own x disk ∧ (disk, p.2) ∉ s.emptied) ∨
    ∃ host n, c.machine host = x ∧ s.fleet.opening host = some (disk, n) ∧ s.opensOwn host ∧
      s.lease disk ≤ n ∧ (disk, n) ∉ s.emptied

def Quiet (c : Config) (s : JournalFleet) (disk : Identity) : Prop := ∀ x, ¬ s.Writes c disk x

/-- What the membership says of each disk is true of its writers. -/
structure Disks (c : Config) (s : JournalFleet) : Prop where
  /-- A report counts for the assignment it was made under. -/
  said : ∀ disk d, s.fleet.newest.Assigned disk d → (disk, d.assigned) ∈ s.emptied → s.Quiet c disk
  quiet : ∀ disk, (∀ d ∈ s.fleet.newest.disk disk, d.kind = .cache ∨ d.empty) → s.Quiet c disk
  deleting : ∀ disk d, s.fleet.newest.disk disk = some d → d.state = .deleting → s.Quiet c disk
  marked : ∀ disk d, s.fleet.newest.Assigned disk d → d.empty → (disk, d.assigned) ∈ s.emptied
  writers : ∀ disk d x, s.fleet.newest.disk disk = some d → s.Writes c disk x →
    d.machine = "" ∨ d.machine = x

/-- The numbers of handles, openings and reports, and what the hosts hold. -/
structure Numbers (s : JournalFleet) : Prop where
  handles : ∀ machine disk p, s.fleet.devices machine disk = some p →
    s.fleet.cloud disk = some (some machine) ∧ p.2 = s.lease disk
  leases : ∀ disk, s.fleet.newest.Older disk (s.lease disk)
  opening : ∀ host disk n, s.fleet.opening host = some (disk, n) → s.fleet.newest.Older disk n
  emptied : ∀ disk n, (disk, n) ∈ s.emptied → n ≤ s.fleet.newest.generation
  copies : ∀ host, (s.fleet.copies host).Precedes s.fleet.newest

structure Passes (c : Config) (s : JournalFleet) : Prop where
  ready : ∀ p ∈ s.fleet.updates.made, s.fleet.Ready c p.1 ∧
    ∀ sh ∈ (c.want p.1).shards, sh.disk.kind = .cache
  listed : ∀ k disk, (s.fleet.listed k disk).isSome →
    (∃ sh ∈ (c.want k).journals, sh.disk.id = disk) → s.made disk
  reported : ∀ k host, s.fleet.reported k host → ∀ h ∈ (c.want k).host host, ∀ p ∈ empties c h,
    p ∈ s.emptied

/-- A generation that had the disk deleting is the newest one to say so, or the disk is no more. -/
def Ended (s : JournalFleet) (disk : Identity) : Prop :=
  s.fleet.newest.In disk .deleting ∨ s.fleet.cloud disk = none ∧ s.made disk

structure Clouds (c : Config) (s : JournalFleet) : Prop where
  made : ∀ disk, s.fleet.cloud disk ≠ none → s.made disk
  disks : ∀ disk, s.made disk → disk ∈ c.disks
  journal : ∀ disk d, s.fleet.newest.disk disk = some d → d.kind = .journal → s.made disk
  deleted : ∀ disk, s.fleet.cloud disk = none → s.live disk = []
  versions : ∀ v ∈ s.fleet.updates.store.versions, ∀ disk, v.value.In disk .deleting → s.Ended disk
  unchanged : ∀ call m, s.fleet.updates.calls call = .done (.unchanged m) →
    m = Membership.empty ∨ ∃ v ∈ s.fleet.updates.store.versions, v.value = m

structure Inv (c : Config) (s : JournalFleet) : Prop where
  updates : Updates.Inv (fun k => (c.want k).reconcile) s.fleet.updates
  disks : s.Disks c
  numbers : s.Numbers
  passes : s.Passes c
  clouds : s.Clouds c

/-! ## A new generation -/

/-- What the pass whose write lands made of the membership. -/
structure Landed (c : Config) (s : JournalFleet) (next : Membership) (call : Nat) : Prop where
  follows : Cluster.step s.fleet.newest next = .ok ()
  turned : ∀ disk d', next.disk disk = some d' →
    (c.want call).Turned d' (s.fleet.newest.disk disk)
  ready : s.fleet.Ready c call
  shards : ∀ sh ∈ (c.want call).shards, sh.disk.kind = .cache

variable {next : Membership} {call : Nat}

theorem kind_journal {kind : DiskKind} (h : kind ≠ .cache) : kind = .journal := by
  cases kind with
  | cache => exact absurd rfl h
  | journal => rfl

theorem cache_plain {m : Membership} (hd : m.disk disk = some d) (hk : d.kind = .cache) :
    d.machine = "" ∧ d.empty = false := by
  obtain ⟨-, hm, he, -⟩ := (m.listable (Membership.disk_mem hd)).cache hk
  exact ⟨hm, he⟩

/-- What the pass read of a disk it marks was reported under the disk's assignment. -/
theorem Inv.reported_empty (h : Inv c s) (hl : Landed c s next call) {held : Disk} {host : Host}
    (hd : s.fleet.newest.disk disk = some d) (hk : d.kind = .journal)
    (hh : (c.want call).host d.member = some host) (hheld : held ∈ host.disks) (hid : held.id = disk)
    (hn : held.assigned = d.assigned) (he : held.empty) : (disk, d.assigned) ∈ s.emptied := by
  obtain ⟨hmem, hhid⟩ := Want.host_mem hh
  have hrep := hl.ready.2.2 host hmem
  rw [hhid] at hrep
  refine h.passes.reported call d.member hrep host hh _ ?_
  have hdisks := h.clouds.disks disk (h.clouds.journal disk d hd hk)
  refine List.mem_map.mpr ⟨held, List.mem_filter.mpr ⟨hheld, ?_⟩, by rw [hid, hn]⟩
  simp [hid, hdisks, he]

/-- A journal disk the next generation marks was marked, or was reported empty; or is new. -/
theorem Inv.lands_marked (h : Inv c s) (hl : Landed c s next call) (hd' : next.disk disk = some d')
    (he : d'.empty) : s.Quiet c disk := by
  have hk' : d'.kind ≠ .cache := by
    intro hk
    rw [(cache_plain hd' hk).2] at he
    cases he
  have hturned := hl.turned disk d' hd'
  generalize hwas : s.fleet.newest.disk disk = was at hturned
  have hnone : was = none → s.Quiet c disk := by
    rintro rfl
    exact h.disks.quiet disk (by simp [hwas])
  have hempty : ∀ d, was = some d → d.empty → s.Quiet c disk := by
    rintro d rfl hd
    refine h.disks.quiet disk fun x hx => .inr ?_
    cases hwas.symm.trans hx
    exact hd
  cases hturned with
  | added => exact hnone rfl
  | addedShard => exact hnone rfl
  | joined hk => exact absurd hk hk'
  | kept _ hd => exact hempty _ rfl (hd he)
  | @marked d held host _ hs _ _ hh hheld hid hn hsaid =>
    have hmoved := step_moved hl.follows disk
    rw [hwas, hd'] at hmoved
    have hk : d.kind = .journal := hmoved.kind.symm.trans (kind_journal hk')
    exact h.disks.said disk d ⟨hwas, hs⟩
      (h.reported_empty hl hwas hk hh hheld (hid.trans (Membership.disk_id hd')) hn hsaid)
  | reserved hd => exact hempty _ rfl hd
  | freed _ hd => exact hempty _ rfl (hd he)

theorem Inv.lands_quiet (h : Inv c s) (hl : Landed c s next call)
    (hq : ∀ d ∈ next.disk disk, d.kind = .cache ∨ d.empty) : s.Quiet c disk := by
  have hmoved := step_moved hl.follows disk
  cases hd' : next.disk disk with
  | none =>
    rw [hd'] at hmoved
    generalize hwas : s.fleet.newest.disk disk = was at hmoved
    cases hmoved with
    | absent => exact h.disks.quiet disk (by simp [hwas])
    | removed d hw =>
      rcases hw with ⟨-, hk⟩ | hw
      · exact h.disks.quiet disk fun x hx => .inl (by cases hwas.symm.trans hx; exact hk)
      · exact h.disks.deleting disk d hwas hw
  | some d' =>
    rcases hq d' hd' with hk | he
    · cases hwas : s.fleet.newest.disk disk with
      | none => exact h.disks.quiet disk (by simp [hwas])
      | some d =>
        rw [hwas, hd'] at hmoved
        exact h.disks.quiet disk fun x hx =>
          .inl (by cases hwas.symm.trans hx; exact hmoved.kind.symm.trans hk)
    · exact h.lands_marked hl hd' he

theorem Inv.lands_reported (h : Inv c s) (hl : Landed c s next call) (hd' : next.Assigned disk d')
    (he : d'.empty) : (disk, d'.assigned) ∈ s.emptied := by
  have hk' : d'.kind ≠ .cache := by
    intro hk
    rw [(cache_plain hd'.1 hk).2] at he
    cases he
  rcases step_assigned hl.follows hd' with ⟨d, hd, hn, hk⟩ | ⟨-, hs', hrel⟩
  · -- the disk stays with its member, so it was marked before or is marked now
    have hd1 := hd.1
    have hassigned := hd.2
    have hturned := hl.turned disk d' hd'.1
    rw [hd1] at hturned
    rw [hn]
    cases hturned with
    | joined hk => exact absurd hk hk'
    | kept _ hempty => exact h.disks.marked disk d hd (hempty he)
    | marked _ _ _ _ hh hheld hid hn hempty =>
      have hkj : d.kind = .journal := hk.symm.trans (kind_journal hk')
      exact h.reported_empty hl hd1 hkj hh hheld (hid.trans (Membership.disk_id hd'.1)) hn hempty
    | reserved _ hs => simp [hs, DiskState.assigned] at hassigned
    | freed _ _ hs => simp [hs, DiskState.assigned] at hassigned
  · -- a disk assigned now is not marked, nor is one that comes with it
    exfalso
    cases hwas : s.fleet.newest.disk disk with
    | some d =>
      have := (step_reserved hl.follows hwas hd'.1).2 (hrel d hwas) hs'
      rw [this] at he
      cases he
    | none =>
      have hturned := hl.turned disk d' hd'.1
      rw [hwas] at hturned
      cases hturned with
      | added _ _ _ _ hs =>
        rw [hs'] at hs
        cases hs
      | addedShard hsh hk => exact hk' (hk.trans (hl.shards _ hsh))
      | joined hk => exact hk' hk

theorem Inv.lands_writers (h : Inv c s) (hl : Landed c s next call) (hd' : next.disk disk = some d')
    (hx : s.Writes c disk x) : d'.machine = "" ∨ d'.machine = x := by
  by_cases hk' : d'.kind = .cache
  · exact .inl (cache_plain hd' hk').1
  have hturned := hl.turned disk d' hd'
  generalize hwas : s.fleet.newest.disk disk = was at hturned
  cases hturned with
  | added _ _ hm => exact .inl hm
  | addedShard hsh hk => exact absurd (hk.trans (hl.shards _ hsh)) hk'
  | joined hk => exact absurd hk hk'
  | kept hm | marked hm =>
    rw [hm]
    exact h.disks.writers disk _ x hwas hx
  | reserved he =>
    refine absurd hx (h.disks.quiet disk (fun y hy => .inr ?_) x)
    cases hwas.symm.trans hy
    exact he
  | freed hm => exact .inl hm

theorem Inv.lands_disks (h : Inv c s) (hl : Landed c s u.read.1 call) :
    Disks c { s with fleet := { s.fleet with updates := u } } where
  said disk d hd he := by
    rcases step_assigned hl.follows hd with ⟨was, hwas, hn, -⟩ | ⟨hn, -⟩
    · exact h.disks.said disk was hwas (hn ▸ he)
    · have := h.numbers.emptied disk _ he
      have := (step_ok hl.follows).1
      omega
  quiet disk hq := h.lands_quiet hl hq
  deleting disk d hd hs := by
    have hmoved := step_moved hl.follows disk
    rw [show u.read.1.disk disk = some d from hd] at hmoved
    generalize hwas : s.fleet.newest.disk disk = was at hmoved
    cases hmoved with
    | deleted was _ hw he =>
      exact h.disks.quiet disk fun y hy => .inr (by cases hwas.symm.trans hy; exact he)
    | deleting was _ hw => exact h.disks.deleting disk was hwas hw
    | kept _ _ _ hs' =>
      rw [hs] at hs'
      cases hs'
    | added _ hs' | assigned _ _ hs' | letGo _ _ _ hs' | rests _ _ _ hs' =>
      rw [hs] at hs'
      cases hs'
  marked disk d hd he := h.lands_reported hl hd he
  writers disk d x hd hx := h.lands_writers hl hd hx

theorem Numbers.lands (h : s.Numbers) (hf : Cluster.step s.fleet.newest u.read.1 = .ok ()) :
    Numbers { s with fleet := { s.fleet with updates := u } } where
  handles := h.handles
  leases disk := (h.leases disk).step hf
  opening host disk n hn := (h.opening host disk n hn).step hf
  emptied disk n hn := by
    have hle := h.emptied disk n hn
    have hgen : u.read.1.generation = s.fleet.newest.generation + 1 := (step_ok hf).1
    show n ≤ u.read.1.generation
    omega
  copies host := (h.copies host).step hf

theorem Inv.lands_journal (h : Inv c s) (hl : Landed c s next call) (hd' : next.disk disk = some d')
    (hk : d'.kind = .journal) : s.made disk := by
  cases hwas : s.fleet.newest.disk disk with
  | some d =>
    have hmoved := step_moved hl.follows disk
    rw [hwas, hd'] at hmoved
    exact h.clouds.journal disk d hwas (hmoved.kind.symm.trans hk)
  | none =>
    have hturned := hl.turned disk d' hd'
    rw [hwas] at hturned
    cases hturned with
    | @added sh hs hid =>
      have hid : sh.disk.id = disk := hid.trans (Membership.disk_id hd')
      have hlisted := hl.ready.2.1 sh (List.mem_append_right _ hs)
      rw [hid] at hlisted
      exact h.passes.listed call disk hlisted ⟨sh, hs, hid⟩
    | addedShard hsh hk' =>
      rw [hk, hl.shards _ hsh] at hk'
      cases hk'
    | joined hk' =>
      rw [hk] at hk'
      cases hk'

/-- A deleting disk is deleting in the next generation too, or the cloud does not have it. -/
theorem Inv.lands_ended (h : Inv c s) (hl : Landed c s u.read.1 call)
    (hgone : ∀ d ∈ s.fleet.newest.disks, d.kind = .journal → u.read.1.disk d.id = none → s.fleet.cloud d.id = none)
    (he : s.Ended disk) : Ended { s with fleet := { s.fleet with updates := u } } disk := by
  rcases he with ⟨d, hd, hs⟩ | he
  · have hk := Membership.deleting_journal hd hs
    have hmoved := step_moved hl.follows disk
    rw [hd] at hmoved
    generalize hnext : u.read.1.disk disk = now at hmoved
    cases hmoved with
    | deleting _ d' _ hs' => exact .inl ⟨d', hnext, hs'⟩
    | removed _ _ =>
      have hid := Membership.disk_id hd
      refine .inr ⟨?_, h.clouds.journal disk d hd hk⟩
      rw [← hid]
      exact hgone d (Membership.disk_mem hd) hk (hid ▸ hnext)
    | assigned _ _ _ hwas =>
      rw [(hwas d rfl).1] at hs
      cases hs
    | kept _ _ hw =>
      rw [hs] at hw
      cases hw
    | letGo _ _ hw | rests _ _ hw | deleted _ _ hw =>
      rw [hs] at hw
      cases hw
  · exact .inr he

end JournalFleet

end Sproutfs.Cluster
