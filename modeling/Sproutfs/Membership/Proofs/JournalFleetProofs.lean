import Sproutfs.Membership.Proofs.WriterProofs

/-!
# No live journal is reused or deleted

As long as a journal disk leaves the membership only once the cloud does not have it, a disk with a live
entry is kept for its writer's machine. A pass whose listing is older than the disk takes a deleting disk
out of the membership while the cloud has it: the next pass adds it again, a host writes it, and the delete
that was asked for before lands on what was written.
-/

namespace Sproutfs.Cluster

open Machine List Option Function

namespace JournalFleet

open Fleet

variable {c : Config} {size : Membership → Nat} {s s' : JournalFleet} {disk : Identity} {m : Membership}
  {held : Identity × Nat} {pass : Nat} {f : Fleet}

/-! ## Steps that leave the membership as it is -/

theorem Disks.frame (h : s.Disks c) (hw : ∀ disk x, s'.Writes c disk x → s.Writes c disk x)
    (hnew : s'.fleet.newest = s.fleet.newest := by rfl) (he : s'.emptied = s.emptied := by rfl) :
    s'.Disks c := by
  have hquiet : ∀ disk, s.Quiet c disk → s'.Quiet c disk := fun disk hq x hx => hq x (hw disk x hx)
  constructor
  · rw [hnew, he]
    exact fun disk d hd hn => hquiet disk (h.said disk d hd hn)
  · rw [hnew]
    exact fun disk hd => hquiet disk (h.quiet disk hd)
  · rw [hnew]
    exact fun disk d hd hs => hquiet disk (h.deleting disk d hd hs)
  · rw [hnew, he]
    exact h.marked
  · rw [hnew]
    exact fun disk d x hd hx => h.writers disk d x hd (hw disk x hx)

/-- The object of the membership changes, and what it reads does not. -/
theorem Inv.rereads_same (h : Inv c s) {u : Updates}
    (hi : Updates.Inv (fun k => (c.want k).reconcile) u) (hread : u.read.1 = s.fleet.newest)
    (hready : ∀ p ∈ u.made, s.fleet.Ready c p.1 ∧ ∀ sh ∈ (c.want p.1).shards, sh.disk.kind = .cache)
    (hversions : ∀ v ∈ u.store.versions, ∀ disk, v.value.In disk .deleting → s.Ended disk)
    (hunchanged : ∀ call m, u.calls call = .done (.unchanged m) →
      m = Membership.empty ∨ ∃ v ∈ u.store.versions, v.value = m) :
    Inv c { s with fleet := { s.fleet with updates := u } } := by
  have hnew : Fleet.newest { s.fleet with updates := u } = s.fleet.newest := hread
  refine ⟨hi, h.disks.frame (fun _ _ hw => hw) hnew, ⟨h.numbers.handles, ?_, ?_, ?_, ?_⟩,
    ⟨hready, h.passes.listed, h.passes.reported⟩,
    ⟨h.clouds.made, h.clouds.disks, ?_, h.clouds.deleted, ?_, hunchanged⟩⟩
  · rw [hnew]
    exact h.numbers.leases
  · rw [hnew]
    exact h.numbers.opening
  · rw [hnew]
    exact h.numbers.emptied
  · rw [hnew]
    exact h.numbers.copies
  · rw [hnew]
    exact h.clouds.journal
  · unfold Ended
    rw [hnew]
    exact hversions

/-! ## Updates -/

theorem Inv.turns (h : Inv c s) {a : UpdateAction} {u : Updates} {call : Nat} {p : Phase}
    (hallow : s.Allows c (.updates a)) (hready : ∀ pass nonce, a = .read pass nonce → s.fleet.Ready c pass)
    (hu : s.fleet.updates.step (fun k => (c.want k).reconcile) size a = some u)
    (ht : Updates.Turns s.fleet.updates u a call p) :
    Inv c { s with fleet := { s.fleet with updates := u } } := by
  have hread : u.read = s.fleet.updates.read := by
    unfold Updates.read
    rw [ht.store]
  refine h.rereads_same (h.updates.step hu) (congrArg Prod.fst hread) ?_ (ht.store ▸ h.clouds.versions) ?_
  · intro q hq
    rcases ht.made q hq with hq | ⟨nonce, ha⟩
    · exact h.passes.ready q hq
    · refine ⟨hready q.1 nonce ha, ?_⟩
      subst ha
      exact hallow.1
  · intro call' m hm
    rw [ht.store]
    rw [ht.calls] at hm
    by_cases hc : call' = call
    · subst hc
      rw [update_self] at hm
      rw [ht.unchanged m hm]
      exact h.updates.read_stored
    · rw [update_of_ne hc] at hm
      exact h.clouds.unchanged call' m hm

theorem Inv.landed (h : Inv c s) {index tag : Nat} {u : Updates}
    (hgone : s.RemovesDeleted (.fleet (.updates (.lands index tag))))
    (hu : s.fleet.updates.step (fun k => (c.want k).reconcile) size (.lands index tag) = some u) :
    Inv c { s with fleet := { s.fleet with updates := u } } := by
  obtain ⟨hcalls, hmade, v, hversions, hv⟩ := h.updates.lands_versions hu
  have hready : ∀ p ∈ u.made, s.fleet.Ready c p.1 ∧ ∀ sh ∈ (c.want p.1).shards, sh.disk.kind = .cache := by
    rw [hmade]
    exact h.passes.ready
  have hunchanged : ∀ call m, u.calls call = .done (.unchanged m) →
      m = Membership.empty ∨ ∃ v ∈ u.store.versions, v.value = m := by
    intro call m hm
    rw [hcalls] at hm
    rcases h.clouds.unchanged call m hm with hm | ⟨x, hx, hval⟩
    · exact .inl hm
    · rw [hversions]
      exact .inr ⟨x, mem_append_left _ hx, hval⟩
  -- the version that lands is the newest, so what it has deleting is
  have hended : ∀ {P : Identity → Prop}, (∀ disk, u.read.1.In disk .deleting → P disk) →
      (∀ disk, s.Ended disk → P disk) →
      ∀ v ∈ u.store.versions, ∀ disk, v.value.In disk .deleting → P disk := by
    intro P hnow hold x hx disk hd
    rw [hversions] at hx
    rcases mem_append.mp hx with hx | hx
    · exact hold disk (h.clouds.versions x hx disk hd)
    · rw [mem_singleton.mp hx, hv] at hd
      exact hnow disk hd
  rcases updates_newest h.updates hu with hnew | ⟨_, _, call, w, heq, hp, hread, hnext, hf, next, nonce,
    hrec, hnonce⟩
  · have hread : u.read.1 = s.fleet.newest := hnew
    exact h.rereads_same (h.updates.step hu) hread hready
      (hended (fun disk hd => .inl (hread ▸ hd)) fun _ he => he) hunchanged
  · cases heq
    have hu' : u.read.1 = w.next := hnext
    have hpass := h.passes.ready _ (mem_of_getElem? hp)
    have hl : Landed c s u.read.1 call := by
      refine ⟨?_, fun disk d' hd' => ?_, hpass.1, hpass.2⟩
      · rw [hu', ← hread]
        exact hf
      · rw [hu', hnonce] at hd'
        rw [← hread]
        exact Want.reconcile_turned hrec hd'
    refine ⟨h.updates.step hu, h.lands_disks hl, h.numbers.lands hl.follows,
      ⟨hready, h.passes.listed, h.passes.reported⟩,
      ⟨h.clouds.made, h.clouds.disks, fun disk d hd hk => h.lands_journal hl hd hk, h.clouds.deleted,
        hended (fun _ => .inl) fun disk he => h.lands_ended hl ?_ he, hunchanged⟩⟩
    intro d hd hk hnone
    refine hgone (call, w) hp d ?_ hk (hu' ▸ hnone)
    rw [show (call, w).2.read = s.fleet.newest from hread]
    exact hd

theorem Inv.updates_step (h : Inv c s) {a : UpdateAction} (hallow : s.Allows c (.updates a))
    (hgone : s.RemovesDeleted (.fleet (.updates a)))
    (hs : Fleet.step c size s.fleet (.updates a) = some f) : Inv c { s with fleet := f } := by
  have hready : ∀ pass nonce, a = .read pass nonce → s.fleet.Ready c pass := by
    rintro pass nonce rfl
    simp only [Fleet.step] at hs
    split_ifs at hs with hr
    exact hr
  obtain ⟨u, hu, rfl⟩ := step_updates hs
  rcases Updates.step_turns hu with ⟨index, tag, rfl⟩ | ⟨call, p, ht⟩
  · exact h.landed hgone hu
  · exact h.turns hallow hready hu ht

/-! ## What the passes read -/

theorem Inv.begins (h : Inv c s) (pass : Nat) :
    Inv c { s with fleet := { s.fleet with begun := update s.fleet.begun pass true } } := by
  refine ⟨h.updates, { h.disks with },
    { h.numbers with }, ⟨fun p hp => ?_,
    h.passes.listed, h.passes.reported⟩, { h.clouds with }⟩
  obtain ⟨⟨hb, hl, hr⟩, hshards⟩ := h.passes.ready p hp
  refine ⟨⟨?_, hl, hr⟩, hshards⟩
  dsimp only
  by_cases hk : p.1 = pass
  · rw [hk, update_self]
  · rw [update_of_ne hk]
    exact hb

theorem shard_mem_journals {w : Want} {sh : Shard} (hj : ∃ j ∈ w.journals, j.disk.id = disk)
    (hsh : w.shard disk = some sh) : sh ∈ w.journals := by
  unfold Want.shard at hsh
  rw [reverse_append, find?_append] at hsh
  cases hf : w.journals.reverse.find? (·.disk.id = disk) with
  | none =>
    obtain ⟨j, hmem, hid⟩ := hj
    have := find?_eq_none.mp hf j (mem_reverse.mpr hmem)
    simp [hid] at this
  | some j =>
    rw [hf, some_or] at hsh
    cases hsh
    exact mem_reverse.mp (mem_of_find?_eq_some hf)

theorem Inv.lists (h : Inv c s) {sh : Shard} (hallow : s.Allows c (.lists pass disk))
    (hsh : (c.want pass).shard disk = some sh) (htrue : s.fleet.Truthful sh) :
    Inv c { s with fleet := { s.fleet with
      listed := update s.fleet.listed pass
        (update (s.fleet.listed pass) disk (some s.fleet.newest)) } } := by
  have hlisted : ∀ k i, ((update s.fleet.listed pass
      (update (s.fleet.listed pass) disk (some s.fleet.newest))) k i).isSome ↔
      k = pass ∧ i = disk ∨ (s.fleet.listed k i).isSome := by
    intro k i
    rw [update_two]
    split_ifs with hki
    · simp [hki]
    · simp [hki]
  refine ⟨h.updates, { h.disks with },
    { h.numbers with }, ⟨fun p hp => ?_, ?_,
    h.passes.reported⟩, { h.clouds with }⟩
  · obtain ⟨⟨hb, hl, hr⟩, hshards⟩ := h.passes.ready p hp
    exact ⟨⟨hb, fun x hx => (hlisted _ _).mpr (.inr (hl x hx)), hr⟩, hshards⟩
  · intro k i hi hj
    rcases (hlisted k i).mp hi with ⟨rfl, rfl⟩ | hi
    · have hid : sh.disk.id = i := by simpa using find?_some hsh
      obtain ⟨at_, hat, -⟩ := htrue (hallow sh (shard_mem_journals hj hsh) hid)
      rw [hid] at hat
      exact h.clouds.made i (by simp [hat])
    · exact h.passes.listed k i hi hj

theorem reported_handle {h : Host} {n : Nat} (hr : s.fleet.Reports c h) (hp : (disk, n) ∈ empties c h) :
    s.fleet.devices (c.machine h.id) disk = some (h.id, n) := by
  obtain ⟨d, hd, heq⟩ := mem_map.mp hp
  cases heq
  obtain ⟨hd, hok⟩ := mem_filter.mp hd
  simp only [Bool.and_eq_true] at hok
  have hin : (d.id, d.assigned, d.state) ∈ s.fleet.report c h.id := by
    rw [← hr.2.2]
    exact mem_map.mpr ⟨d, mem_filter.mpr ⟨hd, hok.1⟩, rfl⟩
  obtain ⟨i, -, hi⟩ := mem_filterMap.mp hin
  obtain ⟨held, hheld, hi⟩ := bind_eq_some_iff.mp hi
  split_ifs at hi with hh
  simp only [Option.some.injEq, Prod.mk.injEq] at hi
  obtain ⟨rfl, hn, -⟩ := hi
  rw [hheld, ← hh, ← hn]

/-- A disk reported empty now has no writer: its handle is leased to the assignment of the report, and
an opening that may still follow is under the same one. -/
theorem Inv.said_now (h : Inv c s) {x : Host} {d : Disk} (hr : s.fleet.Reports c x)
    (hd : s.fleet.newest.Assigned disk d) (hp : (disk, d.assigned) ∈ empties c x)
    (hlive : s.live disk = []) {emptied : List (Identity × Nat)} (he : (disk, d.assigned) ∈ emptied)
    (y : String) : ¬ Writes c { s with emptied := emptied } disk y := by
  have hlease : d.assigned = s.lease disk := (h.numbers.handles _ _ _ (reported_handle hr hp)).2
  rintro (hy | ⟨p, hdev, -, hnot⟩ | ⟨host, n, -, hopen, -, hle, hnot⟩)
  · rw [show s.live disk = [] from hlive] at hy
    cases hy
  · have hn := (h.numbers.handles y disk p hdev).2
    rw [hn, ← hlease] at hnot
    exact hnot he
  · have hn := (h.numbers.opening host disk n hopen).2 d hd
    have hle : s.lease disk ≤ n := hle
    have heq : n = d.assigned := by omega
    rw [heq] at hnot
    exact hnot he

theorem Inv.reports (h : Inv c s) {host : Identity} {x : Host} (hx : (c.want pass).host host = some x)
    (hr : s.fleet.Reports c x) (htrue : ∀ p ∈ empties c x, s.live p.1 = []) :
    Inv c { s with
      fleet := { s.fleet with
        reported := update s.fleet.reported pass
          (update (s.fleet.reported pass) host true) }
      emptied := empties c x ++ s.emptied } := by
  have hreported : ∀ k i, (update s.fleet.reported pass
      (update (s.fleet.reported pass) host true)) k i ↔
      k = pass ∧ i = host ∨ s.fleet.reported k i := by
    intro k i
    rw [update_two]
    split_ifs with hki
    · simp [hki]
    · simp [hki]
  have hw : ∀ i y, Writes c { s with emptied := empties c x ++ s.emptied } i y → s.Writes c i y := by
    have hnot : ∀ {p}, p ∉ empties c x ++ s.emptied → p ∉ s.emptied :=
      fun hp hin => hp (mem_append_right _ hin)
    rintro i y (hy | ⟨p, hdev, hown, hp⟩ | ⟨host, n, hm, hopen, hown, hle, hp⟩)
    · exact .inl hy
    · exact .inr (.inl ⟨p, hdev, hown, hnot hp⟩)
    · exact .inr (.inr ⟨host, n, hm, hopen, hown, hle, hnot hp⟩)
  refine ⟨h.updates, ?_, ?_, ⟨fun p hp => ?_, h.passes.listed, ?_⟩,
    { h.clouds with }⟩
  · refine ⟨fun i d hd hin => ?_, fun i hq y hy => h.disks.quiet i hq y (hw i y hy),
      fun i d hd hs y hy => h.disks.deleting i d hd hs y (hw i y hy),
      fun i d hd he => mem_append_right _ (h.disks.marked i d hd he),
      fun i d y hd hy => h.disks.writers i d y hd (hw i y hy)⟩
    rcases mem_append.mp hin with hin | hin
    · exact h.said_now hr hd hin (htrue _ hin) (mem_append_left _ hin)
    · exact fun y hy => h.disks.said i d hd hin y (hw i y hy)
  · refine { h.numbers with emptied := fun i n hin => ?_ }
    rcases mem_append.mp hin with hin | hin
    · have hlease := (h.numbers.handles _ _ _ (reported_handle hr hin)).2
      dsimp only at hlease
      rw [hlease]
      exact (h.numbers.leases i).1
    · exact h.numbers.emptied i n hin
  · obtain ⟨⟨hb, hl, hrep⟩, hshards⟩ := h.passes.ready p hp
    exact ⟨⟨hb, hl, fun y hy => (hreported _ _).mpr (.inr (hrep y hy))⟩, hshards⟩
  · intro k i hi y hy p hp
    rcases (hreported k i).mp hi with ⟨rfl, rfl⟩ | hi
    · cases hx.symm.trans hy
      exact mem_append_left _ hp
    · exact mem_append_right _ (h.passes.reported k i hi y hy p hp)

/-! ## The cloud -/

/-- Handles and openings end, and no live entry, handle or opening comes. -/
structure Shrinks (s s' : JournalFleet) : Prop where
  live : ∀ disk x, x ∈ s'.live disk → x ∈ s.live disk := by exact fun _ _ h => h
  devices : ∀ machine disk p, s'.fleet.devices machine disk = some p →
    s.fleet.devices machine disk = some p := by exact fun _ _ _ h => h
  opening : ∀ host p, s'.fleet.opening host = some p → s.fleet.opening host = some p := by
    exact fun _ _ h => h
  own : s'.own = s.own := by rfl
  opensOwn : s'.opensOwn = s.opensOwn := by rfl
  lease : ∀ disk, s.lease disk ≤ s'.lease disk := by exact fun _ => le_rfl
  emptied : s'.emptied = s.emptied := by rfl

theorem Shrinks.writes (h : s.Shrinks s') (disk : Identity) (x : String) (hw : s'.Writes c disk x) :
    s.Writes c disk x := by
  rcases hw with hx | ⟨p, hdev, hown, hp⟩ | ⟨host, n, hm, hopen, hown, hle, hp⟩
  · exact .inl (h.live disk x hx)
  · rw [h.own] at hown
    rw [h.emptied] at hp
    exact .inr (.inl ⟨p, h.devices x disk p hdev, hown, hp⟩)
  · rw [h.opensOwn] at hown
    rw [h.emptied] at hp
    exact .inr (.inr ⟨host, n, hm, h.opening host _ hopen, hown, (h.lease disk).trans hle, hp⟩)

/-- A step of the fleet that ends handles and openings only, and leaves the membership, what the passes
read and what the cloud has. -/
theorem Inv.shrinks (h : Inv c s) {cloud : Identity → Option (Option String)}
    {devices : String → Identity → Option (Identity × Nat)} {opening : Identity → Option (Identity × Nat)}
    (hcloud : ∀ disk, cloud disk = none ↔ s.fleet.cloud disk = none)
    (hdev : ∀ machine disk p, devices machine disk = some p → s.fleet.devices machine disk = some p ∧ (s.fleet.cloud disk = some (some machine) → cloud disk = some (some machine)))
    (ho : ∀ host p, opening host = some p → s.fleet.opening host = some p) :
    Inv c { s with fleet := { s.fleet with cloud, devices, opening } } := by
  have hs : s.Shrinks { s with fleet := { s.fleet with cloud, devices, opening } } :=
    { devices := fun machine disk p hp => (hdev machine disk p hp).1, opening := ho }
  refine ⟨h.updates, h.disks.frame hs.writes, { h.numbers with
      handles := fun machine disk p hp => ?_
      opening := fun host disk n hn => h.numbers.opening host disk n (ho host _ hn) },
    { h.passes with }, { h.clouds with
      made := fun disk hd => h.clouds.made disk fun hn => hd ((hcloud disk).mpr hn)
      deleted := fun disk hn => h.clouds.deleted disk ((hcloud disk).mp hn)
      versions := fun v hv disk hd => ?_ }⟩
  · obtain ⟨hp, hc⟩ := hdev machine disk p hp
    exact (h.numbers.handles machine disk p hp).imp_left hc
  · exact (h.clouds.versions v hv disk hd).imp_right fun he => ⟨(hcloud disk).mpr he.1, he.2⟩

theorem Inv.carries (h : Inv c s) (a : Action) : Inv c { s with fleet := s.fleet.carry a } := by
  rw [carry_eq s.fleet a]
  exact h.shrinks (carry_cloud a) (fun _ _ _ => carry_devices) fun _ _ hp => hp

theorem Inv.creates (h : Inv c s) (hdisk : disk ∈ c.disks) (hnone : s.fleet.cloud disk = none)
    (hmade : s.made disk = false) :
    Inv c { s with
      fleet := { s.fleet with cloud := update s.fleet.cloud disk (some none) }
      made := update s.made disk true } := by
  have hmono : ∀ i, s.made i → update s.made disk true i := by
    intro i hi
    by_cases heq : i = disk
    · rw [heq, update_self]
    · rw [update_of_ne heq]
      exact hi
  refine ⟨h.updates, { h.disks with }, { h.numbers with handles := fun machine i p hp => ?_ },
    { h.passes with listed := fun k i hi hsh => hmono i (h.passes.listed k i hi hsh) }, ?_⟩
  · obtain ⟨hon, hn⟩ := h.numbers.handles machine i p hp
    exact ⟨cloud_update hon (by simp [hnone]), hn⟩
  · constructor
    · intro i hi
      by_cases heq : i = disk
      · rw [heq]
        exact update_self ..
      · exact hmono i (h.clouds.made i (by simpa [heq] using hi))
    · intro i hi
      by_cases heq : i = disk
      · exact heq ▸ hdisk
      · exact h.clouds.disks i (by simpa [heq] using hi)
    · exact fun i d hd hk => hmono i (h.clouds.journal i d hd hk)
    · intro i hi
      by_cases heq : i = disk
      · simp [heq] at hi
      · exact h.clouds.deleted i (by simpa [heq] using hi)
    · intro v hv i hi
      rcases h.clouds.versions v hv i hi with he | ⟨he, hm⟩
      · exact .inl he
      · have hne : i ≠ disk := by
          rintro rfl
          rw [hmade] at hm
          cases hm
        exact .inr ⟨by simpa [hne] using he, hmono i hm⟩
    · exact h.clouds.unchanged

theorem Inv.passed_ended (h : Inv c s) (hp : s.fleet.passed pass = some m) (hd : m.In disk .deleting) :
    s.Ended disk := by
  have hstored : m = Membership.empty ∨ ∃ v ∈ s.fleet.updates.store.versions, v.value = m := by
    unfold Fleet.passed at hp
    split at hp
    · next m' hcall =>
      cases hp
      obtain ⟨w, -, rfl, v, hv, hval⟩ := h.updates.done pass m hcall
      exact .inr ⟨v, hv, hval⟩
    · next m' hcall =>
      cases hp
      exact h.clouds.unchanged pass m hcall
    · cases hp
  rcases hstored with rfl | ⟨v, hv, rfl⟩
  · obtain ⟨d, hd, -⟩ := hd
    cases hd
  · exact h.clouds.versions v hv disk hd

/-- A disk is deleted only while the membership has it deleting, so it has no live entry. -/
theorem Inv.deletes (h : Inv c s) (hp : s.fleet.passed pass = some m) (hd : m.In disk .deleting)
    (hcloud : s.fleet.cloud disk = some none) :
    Inv c { s with fleet := { s.fleet with cloud := update s.fleet.cloud disk none } } := by
  have hlive : s.live disk = [] := by
    rcases h.passed_ended hp hd with ⟨d, hd, hs⟩ | ⟨hnone, -⟩
    · refine eq_nil_iff_forall_not_mem.mpr fun x hx => ?_
      exact h.disks.deleting disk d hd hs x (.inl hx)
    · rw [hcloud] at hnone
      cases hnone
  have hmade : s.made disk := h.clouds.made disk (by simp [hcloud])
  refine ⟨h.updates, { h.disks with }, { h.numbers with handles := fun machine i p hp => ?_ },
    { h.passes with }, ?_⟩
  · obtain ⟨hon, hn⟩ := h.numbers.handles machine i p hp
    exact ⟨cloud_update hon (by simp [hcloud]), hn⟩
  · refine { h.clouds with made := fun i hi => ?_, deleted := fun i hi => ?_, versions := fun v hv i
      hi => ?_ }
    · by_cases heq : i = disk
      · exact heq ▸ hmade
      · exact h.clouds.made i (by simpa [heq] using hi)
    · by_cases heq : i = disk
      · exact heq ▸ hlive
      · exact h.clouds.deleted i (by simpa [heq] using hi)
    · rcases h.clouds.versions v hv i hi with he | ⟨he, hm⟩
      · exact .inl he
      · refine .inr ⟨?_, hm⟩
        by_cases heq : i = disk
        · simp [heq]
        · simpa [heq] using he

/-! ## The hosts -/

theorem Inv.refreshes (h : Inv c s) (host : Identity) :
    Inv c { s with
      fleet := { s.fleet with copies := update s.fleet.copies host s.fleet.newest } } := by
  refine ⟨h.updates, { h.disks with }, { h.numbers with copies := fun i => ?_ }, { h.passes with },
    { h.clouds with }⟩
  by_cases hi : i = host
  · subst hi
    dsimp only
    rw [update_self]
    exact .refl _
  · dsimp only
    rw [update_of_ne hi]
    exact h.numbers.copies i

theorem assignedHere_some {host : Identity} {d : Disk} (h : m.assignedHere host disk = some d) :
    m.Assigned disk d := by
  obtain ⟨hd, hok⟩ := filter_eq_some_iff.mp h
  refine ⟨hd, ?_⟩
  simp only [decide_eq_true_eq] at hok
  rcases hok.2 with hs | hs | ⟨-, hs⟩ <;> rw [hs] <;> rfl

/-- A host that is about to open its own disk, under an assignment nobody reported the disk empty
under: the disk is not marked, and is reserved for the host's machine. -/
theorem Inv.rereads (h : Inv c s) {host : Identity} {d again : Disk}
    (hd : (s.fleet.copies host).assignedHere host disk = some d)
    (hagain : s.fleet.newest.assignedHere host disk = some again) (hn : again.assigned = d.assigned) :
    Inv c { s with
      fleet := { s.fleet with
        copies := update s.fleet.copies host s.fleet.newest
        opening := update s.fleet.opening host (some (disk, d.assigned)) }
      opensOwn := update s.opensOwn host (owns c host d) } := by
  have hA := assignedHere_some hagain
  obtain ⟨hmachine, hkind⟩ := (h.numbers.copies host).2 disk d again (assignedHere_some hd) hA hn
  -- a writer was one before, or is this host with its own disk
  have hw : ∀ i x, Writes c { s with
      fleet := { s.fleet with
        copies := update s.fleet.copies host s.fleet.newest
        opening := update s.fleet.opening host (some (disk, d.assigned)) }
      opensOwn := update s.opensOwn host (owns c host d) } i x → s.Writes c i x ∨
        i = disk ∧ c.machine host = x ∧ owns c host d ∧ (disk, again.assigned) ∉ s.emptied := by
    rintro i x (hx | ⟨p, hdev, hown, hp⟩ | ⟨host', n, hm, hopen, hown, hle, hp⟩)
    · exact .inl (.inl hx)
    · exact .inl (.inr (.inl ⟨p, hdev, hown, hp⟩))
    · by_cases hh : host' = host
      · subst hh
        simp only [update_self] at hopen hown
        cases hopen
        exact .inr ⟨rfl, hm, hown, hn ▸ hp⟩
      · simp only [update_of_ne hh] at hopen hown
        exact .inl (.inr (.inr ⟨host', n, hm, hopen, hown, hle, hp⟩))
  refine ⟨h.updates, ⟨?_, ?_, ?_, h.disks.marked, ?_⟩, { h.numbers with opening := ?_, copies := fun
      i => ?_ }, { h.passes with },
    { h.clouds with }⟩
  · intro i e he hin x hx
    rcases hw i x hx with hx | ⟨rfl, -, -, hnot⟩
    · exact h.disks.said i e he hin x hx
    · cases hA.1.symm.trans he.1
      exact hnot hin
  · intro i hq x hx
    rcases hw i x hx with hx | ⟨rfl, -, hown, hnot⟩
    · exact h.disks.quiet i hq x hx
    · simp only [owns, decide_eq_true_eq] at hown
      rcases hq again hA.1 with hk | he
      · rw [hkind, hown.1] at hk
        cases hk
      · exact hnot (h.disks.marked i again hA he)
  · intro i e he hs x hx
    rcases hw i x hx with hx | ⟨rfl, -⟩
    · exact h.disks.deleting i e he hs x hx
    · have hassigned := hA.2
      cases hA.1.symm.trans he
      simp [hs, DiskState.assigned] at hassigned
  · intro i e x he hx
    rcases hw i x hx with hx | ⟨rfl, hx, hown, -⟩
    · exact h.disks.writers i e x he hx
    · cases hA.1.symm.trans he
      simp only [owns, decide_eq_true_eq] at hown
      exact .inr (hmachine.trans (hown.2.2.trans hx))
  · intro host' i n hopen
    by_cases hh : host' = host
    · subst hh
      simp only [update_self] at hopen
      cases hopen
      refine ⟨?_, fun e he => ?_⟩
      · rw [← hn]
        exact (Membership.assigned_ok hA.1 hA.2).2.2
      · cases hA.1.symm.trans he.1
        exact hn.ge
    · simp only [update_of_ne hh] at hopen
      exact h.numbers.opening host' i n hopen
  · exact (h.refreshes host).numbers.copies i

/-- Nobody has a handle of a disk on this machine, and so nobody has one at all. -/
theorem Numbers.no_handle (h : s.Numbers) {machine : String}
    (hon : s.fleet.cloud disk = some (some machine)) (hfree : s.fleet.devices machine disk = none)
    (machine' : String) : s.fleet.devices machine' disk ≠ some held := by
  intro hheld
  have heq := (h.handles machine' disk held hheld).1
  rw [hon] at heq
  cases heq
  rw [hfree] at hheld
  cases hheld

section

variable (h : Inv c s)

include h

section

variable {host : Identity} {n : Nat} (hopen : s.fleet.opening host = some (disk, n))

include hopen

/-- An open that takes the disk's lease, and has the handle or not. -/
theorem Inv.leased (hle : s.lease disk ≤ n) (i : Identity) :
    s.lease i ≤ update s.lease disk n i ∧
      s.fleet.newest.Older i (update s.lease disk n i) := by
  by_cases hi : i = disk
  · rw [hi, update_self]
    exact ⟨hle, h.numbers.opening host disk n hopen⟩
  · rw [update_of_ne hi]
    exact ⟨le_rfl, h.numbers.leases i⟩

theorem Inv.leases (hle : s.lease disk ≤ n) (hon : s.fleet.cloud disk = some (some (c.machine host)))
    (hfree : s.fleet.devices (c.machine host) disk = none) :
    Inv c { s with
      fleet := { s.fleet with opening := update s.fleet.opening host none }
      lease := update s.lease disk n } := by
  have hs : s.Shrinks { s with
      fleet := { s.fleet with opening := update s.fleet.opening host none }
      lease := update s.lease disk n } :=
    { opening := fun _ _ hp => (update_none hp).2, lease := fun i => (h.leased hopen hle i).1 }
  refine ⟨h.updates, h.disks.frame hs.writes, ⟨fun machine i p hp => ?_,
    fun i => (h.leased hopen hle i).2, fun host' i m hm => h.numbers.opening host' i m (hs.opening _ _ hm),
    h.numbers.emptied, h.numbers.copies⟩, { h.passes with },
    { h.clouds with }⟩
  have hne : i ≠ disk := by
    rintro rfl
    exact h.numbers.no_handle hon hfree machine hp
  dsimp only
  rw [update_of_ne hne]
  exact h.numbers.handles machine i p hp

theorem Inv.opens (hle : s.lease disk ≤ n) (hon : s.fleet.cloud disk = some (some (c.machine host)))
    (hfree : s.fleet.devices (c.machine host) disk = none) :
    Inv c { s with
      fleet := { s.fleet.setDevice (c.machine host) disk (some (host, n)) with
        opening := update s.fleet.opening host none }
      lease := update s.lease disk n
      own := update s.own (c.machine host)
        (update (s.own (c.machine host)) disk (s.opensOwn host)) } := by
  -- the opening becomes the handle
  have hw : ∀ i x, Writes c { s with
      fleet := { s.fleet.setDevice (c.machine host) disk (some (host, n)) with
        opening := update s.fleet.opening host none }
      lease := update s.lease disk n
      own := update s.own (c.machine host)
        (update (s.own (c.machine host)) disk (s.opensOwn host)) } i x → s.Writes c i x := by
    rintro i x (hx | ⟨p, hdev, hown, hp⟩ | ⟨host', n', hm, hopen', hown, hle', hp⟩)
    · exact .inl hx
    · have hdev' : (s.fleet.setDevice (c.machine host) disk (some (host, n))).devices x i = some p := hdev
      rw [devices_setDevice] at hdev'
      dsimp only at hown
      rw [update_two] at hown
      split_ifs at hdev' hown with heq
      · cases hdev'
        obtain ⟨rfl, rfl⟩ := heq
        exact .inr (.inr ⟨host, n, rfl, hopen, hown, hle, hp⟩)
      · exact .inr (.inl ⟨p, hdev', hown, hp⟩)
    · exact .inr (.inr ⟨host', n', hm, (update_none hopen').2, hown,
        (h.leased hopen hle i).1.trans hle', hp⟩)
  refine ⟨h.updates, h.disks.frame hw, ⟨fun machine i p hp => ?_,
    fun i => (h.leased hopen hle i).2,
    fun host' i m hm => h.numbers.opening host' i m (update_none hm).2,
    h.numbers.emptied, h.numbers.copies⟩, { h.passes with },
    { h.clouds with }⟩
  have hp' : (s.fleet.setDevice (c.machine host) disk (some (host, n))).devices machine i = some p := hp
  rw [devices_setDevice] at hp'
  split_ifs at hp' with heq
  · cases hp'
    obtain ⟨rfl, rfl⟩ := heq
    refine ⟨hon, ?_⟩
    dsimp only
    rw [update_self]
  · have hne : i ≠ disk := by
      rintro rfl
      exact h.numbers.no_handle hon hfree machine hp'
    dsimp only
    rw [update_of_ne hne]
    exact h.numbers.handles machine i p hp'

end

theorem Inv.writes {machine : String} (hheld : s.fleet.devices machine disk = some held)
    (hown : s.own machine disk) (hn : (disk, held.2) ∉ s.emptied) :
    Inv c { s with live := update s.live disk (machine :: s.live disk) } := by
  have hw : ∀ i x, Writes c { s with live := update s.live disk (machine :: s.live disk) } i x →
      s.Writes c i x := by
    rintro i x (hx | hx | hx)
    · by_cases hi : i = disk
      · subst hi
        simp only [update_self] at hx
        rcases mem_cons.mp hx with rfl | hx
        · exact .inr (.inl ⟨held, hheld, hown, hn⟩)
        · exact .inl hx
      · simp only [update_of_ne hi] at hx
        exact .inl hx
    · exact .inr (.inl hx)
    · exact .inr (.inr hx)
  refine ⟨h.updates, h.disks.frame hw,
    { h.numbers with },
    { h.passes with }, { h.clouds with deleted := fun i hi => ?_ }⟩
  have hne : i ≠ disk := by
    rintro rfl
    rw [(h.numbers.handles machine i held hheld).1] at hi
    cases hi
  dsimp only
  rw [update_of_ne hne]
  exact h.clouds.deleted i hi

theorem Inv.trims (machine : String) :
    Inv c { s with live := update s.live disk ((s.live disk).erase machine) } := by
  have hlive : ∀ i x, x ∈ update s.live disk ((s.live disk).erase machine) i → x ∈ s.live i := by
    intro i x hx
    by_cases hi : i = disk
    · subst hi
      rw [update_self] at hx
      exact mem_of_mem_erase hx
    · rw [update_of_ne hi] at hx
      exact hx
  have hs : s.Shrinks { s with live := update s.live disk ((s.live disk).erase machine) } :=
    { live := hlive }
  refine ⟨h.updates, h.disks.frame hs.writes, { h.numbers with }, { h.passes with },
    { h.clouds with deleted := fun i hi => eq_nil_iff_forall_not_mem.mpr fun x hx => ?_ }⟩
  have := hlive i x hx
  rw [h.clouds.deleted i hi] at this
  cases this

theorem Inv.leaves (machine : String) : Inv c { s with fleet := s.gone c machine } := by
  refine h.shrinks (fun i => ?_) (fun x i p hp => ?_) fun host p hp => ?_
  · split_ifs with hi
    · simp [hi]
    · rfl
  · by_cases hx : x = machine
    · subst hx
      rw [update_self] at hp
      cases hp
    · rw [update_of_ne hx] at hp
      refine ⟨hp, fun hon => ?_⟩
      rw [if_neg]
      · exact hon
      · intro heq
        rw [hon] at heq
        cases heq
        exact hx rfl
  · split_ifs at hp
    exact hp

/-! ## Every run -/

theorem Inv.closes (machine : String) : Inv c { s with fleet := s.fleet.setDevice machine disk none } := by
  refine h.shrinks (fun _ => Iff.rfl) (fun x i p hp => ?_) fun _ _ hp => hp
  rw [update_two] at hp
  split_ifs at hp
  exact ⟨hp, id⟩

theorem Inv.crashes (host : Identity) :
    Inv c { s with fleet := { s.fleet with
      devices := fun machine disk =>
        (s.fleet.devices machine disk).filter fun held => ¬ (machine = c.machine host ∧ held.1 = host)
      opening := update s.fleet.opening host none } } :=
  h.shrinks (fun _ => Iff.rfl)
    (fun _ _ _ hp => ⟨(filter_eq_some_iff.mp hp).1, id⟩) fun _ _ hp => (update_none hp).2

theorem Inv.fleet_step {a : FleetAction} (hallow : s.Allows c a) (hhonest : s.Honest c (.fleet a))
    (hgone : s.RemovesDeleted (.fleet a)) (hs : Fleet.step c size s.fleet a = some f) :
    Inv c (s.after c f a) := by
  obtain ⟨a, rfl⟩ | hnot := em (∃ u, a = .updates u)
  · exact h.updates_step hallow hgone hs
  revert hs
  fun_cases Fleet.step c size s.fleet a <;> first | rintro ⟨⟩ | exact absurd ⟨_, rfl⟩ hnot
  next pass _ => exact h.begins pass
  next sh hsh hok => exact h.lists hallow hsh hok.2.2
  next x hx hok =>
    have := h.reports hx hok.2 (hhonest x hx)
    simpa only [after, hx, map_some, getD_some] using this
  next a _ _ _ => exact h.carries a
  next hok => exact h.creates hok.1 hok.2 hallow
  next m hm hok =>
    obtain ⟨d, hd, hstate⟩ := (any_eq_true _ _).mp hok.2.1
    exact h.deletes hm ⟨d, hd, of_decide_eq_true hstate⟩ hok.2.2
  next host => exact h.refreshes host
  next again hagain hd hn =>
    have := h.rereads hd hagain hn
    simpa only [after, hd, any_some] using this
  next disk n hopen hok =>
    have := h.opens hopen (hallow _ hopen) hok.1 hok.2
    simpa only [after, hopen] using this
  next host _ _ => exact h.closes (c.machine host)
  next host => exact h.crashes host

theorem Inv.step {a : JournalAction} (hhonest : s.Honest c a) (hgone : s.RemovesDeleted a)
    (hs : step c size s a = some s') : Inv c s' := by
  cases a with
  | fleet a =>
    obtain ⟨hallow, hs⟩ := ite_none_right_eq_some.mp hs
    obtain ⟨f, hf, rfl⟩ := map_eq_some_iff.mp hs
    exact h.fleet_step hallow hhonest hgone hf
  | misses pass disk =>
    obtain ⟨-, rfl⟩ := ite_some_none_eq_some.mp hs
    exact ⟨h.updates, { h.disks with },
      { h.numbers with },
      { h.passes with },
      { h.clouds with }⟩
  | leases host =>
    simp only [JournalFleet.step] at hs
    split at hs
    · cases hs
    · next disk n hopen =>
      obtain ⟨⟨hon, hfree, hle⟩, rfl⟩ := ite_some_none_eq_some.mp hs
      exact h.leases hopen hle hon hfree
  | writes host disk =>
    obtain ⟨⟨hheld, hown⟩, rfl⟩ := ite_some_none_eq_some.mp hs
    obtain ⟨held, hheld, -⟩ := (any_eq_true _ _).mp hheld
    exact h.writes hheld hown (hhonest held hheld)
  | trims disk machine =>
    cases hs
    exact h.trims machine
  | leaves machine =>
    cases hs
    exact h.leaves machine

end

theorem Inv.init : Inv c {} where
  updates := Updates.inv_init
  disks := by
    have hq : ∀ disk, Quiet c {} disk := by
      rintro disk x (hx | ⟨p, hp, -⟩ | ⟨host, n, -, hp, -⟩)
      · cases hx
      · cases hp
      · cases hp
    exact ⟨fun disk _ _ _ => hq disk, fun disk _ => hq disk, fun disk _ _ _ => hq disk,
      fun _ _ hd => (by cases hd.1), nofun⟩
  numbers := ⟨nofun, fun _ => ⟨Nat.zero_le _, fun d hd => by cases hd.1⟩,
    nofun, nofun, fun _ => Membership.Precedes.refl _⟩
  passes := ⟨nofun, nofun, nofun⟩
  clouds := ⟨fun _ hp => absurd rfl hp, nofun, nofun, fun _ _ => rfl, nofun, nofun⟩

theorem Inv.of_runs
    (h : Runs (JournalFleet.step c size) (fun s a => s.Honest c a ∧ s.RemovesDeleted a) {} s) :
    Inv c s :=
  h.invariant (fun _ _ _ hi hok hs => hi.step hok.1 hok.2 hs) Inv.init

/-- The one journal disk, as a listing has it while it is on no machine. -/
def sampleJournal : Shard := { disk := { id := 5, kind := .journal }, known := true }

def sampleHost : Host := { id := 1, address := "a", machine := "ma" }

/-- The first pass finds no journal disk. The second adds the disk and the third, which the disk has
expired for, marks it deleting; the others find it and a host. -/
def sampleConfig : Config where
  machine _ := "ma"
  disks := [5]
  want k :=
    { hosts := if k < 3 then [] else [sampleHost]
      journals := if k = 0 then [] else [sampleJournal]
      journalsKnown := true
      pool := ["ma"]
      expired := if k = 2 then [5] else []
      journalsAfter := if k < 3 then k - 1 else k }

end JournalFleet

end Sproutfs.Cluster
