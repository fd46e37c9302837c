import Sproutfs.Membership.Proofs.DecideProofs
import Sproutfs.Membership.Proofs.NewProofs

/-!
# Every change `Next` decides on can be made

`New` accepts what a change of `Next` builds, and `Step` that it follows, as long as the want is well formed
and no disk that a host reports as its cache is listed as a journal disk.
-/

namespace Sproutfs.Cluster

open List

/-- A cache disk `New` would take in any membership that lists its member. -/
structure Disk.Usable (d : Disk) : Prop where
  id : d.id ≠ 0
  weight : d.weight ≠ 0
  kind : d.kind = .cache
  machine : d.machine = ""
  empty : d.empty = false

namespace Want

/-- What a controller may want: codes that make a list, hosts and disks with identities of their own,
addresses and weights. -/
structure WellFormed (w : Want) : Prop where
  codes : newList w.code w.earlier = .ok ()
  hostIds : (w.hosts.map Host.id).Nodup
  host : ∀ h ∈ w.hosts, h.id ≠ 0 ∧ h.address ≠ ""
  reportIds : ∀ h ∈ w.hosts, (h.disks.map Disk.id).Nodup
  report : ∀ h ∈ w.hosts, ∀ d ∈ h.disks, d.kind = .cache → d.Usable
  shardIds : (w.shards.map (·.disk.id)).Nodup
  shard : ∀ s ∈ w.shards, s.disk.Usable
  journal : ∀ s ∈ w.journals, s.disk.id ≠ 0
  apart : ∀ s ∈ w.shards, ∀ t ∈ w.journals, s.disk.id ≠ t.disk.id

/-- A disk a host reports as its own cache is not listed as a journal disk. -/
def Agrees (w : Want) (m : Membership) : Prop :=
  ∀ h ∈ w.hosts, ∀ d ∈ h.disks, d.kind = .cache → w.shard d.id = none →
    ∀ found ∈ m.disk d.id, found.kind = .cache

end Want

variable {w : Want} {m : Membership} {change : Change} {d x : Disk} {y : Member} {member id : Identity}
  {members : List Member}

/-! ## One disk -/

theorem Membership.put_disk_follows (hd : d ∈ m.disks) (hid : x.id = d.id)
    (hok : x.Listable (m.generation + 1) m.members)
    (hstep : ∀ next : Membership, next.generation = m.generation + 1 → next.member = m.member →
      stepDisk next (some d) x = .ok ()) :
    ∃ next, m.next m.members (put m.disks x) = .ok next ∧ step m next = .ok () := by
  refine m.put_follows hd hid rfl m.memberOk hok fun next hgen hm => hstep next hgen ?_
  funext i
  rw [Membership.member, Membership.member, hm, sorted_eq m.memberOrder]

theorem Membership.listable_later (hd : d ∈ m.disks) : d.Listable (m.generation + 1) m.members :=
  (m.listable hd).later fun _ hi _ => hi

theorem Disk.Listable.held {generation : Nat} {state : DiskState} (h : d.Listable generation members)
    (hd : d.state.assigned) (hs : state.assigned) :
    { d with state := state }.Listable generation members where
  id := h.id
  cache hk := by
    obtain ⟨hw, hm, he, -⟩ := h.cache hk
    refine ⟨hw, hm, he, ?_⟩
    rintro (rfl : state = .deleting)
    cases hs
  state := by
    rintro (rfl : state = .unset)
    cases hs
  holder _ := h.holder hd
  rests hn := by
    have hn : state.assigned = false := hn
    simp [hs] at hn

theorem stepDisk_moves {next : Membership} (hj : stepJournal (some d) x = .ok ())
    (hm : x.member = d.member) (ha : x.assigned = d.assigned) (hs : d.state.toNat ≤ x.state.toNat)
    (hr : x.state = .released → d.state = .releasing ∨ d.state = .released) :
    stepDisk next (some d) x = .ok () := by
  have hnot : assigning (some d) x = false := by simp [assigning, hm]
  rw [stepDisk, hj]
  rw [if_neg (by simp [hnot])]
  split_ifs with h1 h2 h3 h4 h5
  · rcases hr h1 with h | h
    · exact absurd h h2.1
    · exact absurd h h2.2
  · rfl
  · rfl
  · exact absurd h4 (by simp [hm, ha])
  · omega
  · rfl

theorem stepDisk_assigns {next : Membership} (hj : stepJournal (some d) x = .ok ())
    (hd : d.state = .released) (hx : x.state = .attaching) (hm : x.member ≠ d.member)
    (ha : x.assigned = next.generation) (hn : next.memberState x.member ≠ .draining) :
    stepDisk next (some d) x = .ok () := by
  have hyes : assigning (some d) x = true := by simp [assigning, hx, Ne.symm hm]
  rw [stepDisk, hj]
  have hfree : (some d).filter (·.state ≠ .released) = none := by simp [Option.filter, hd]
  rw [if_pos hyes, stepAssigned, hfree]
  simp [hn, ha]

theorem Membership.weigh_follows {weight : Nat} (hd : d ∈ m.disks) (hw : d.weight ≠ weight)
    (hk : d.kind = .cache → weight ≠ 0) :
    ∃ next, m.weigh d.id weight = .ok next ∧ step m next = .ok () := by
  have hok := m.listable_later hd
  rw [m.weigh_eq hd hw]
  refine m.put_disk_follows hd rfl ?_ fun next _ _ => stepDisk_moves ?_ rfl rfl le_rfl .inr
  · exact { hok with cache := fun h => ⟨hk h, (hok.cache h).2⟩ }
  · cases hs : d.state <;> simp [stepJournal, hs]

theorem Membership.release_follows (hd : d ∈ m.disks) (hs : d.state = .serving) :
    ∃ next, m.release d.id = .ok next ∧ step m next = .ok () := by
  have hok := m.listable_later hd
  rw [m.release_eq hd hs]
  refine m.put_disk_follows hd rfl ?_ fun next _ _ => stepDisk_moves ?_ rfl rfl ?_ nofun
  · exact hok.held (by rw [hs]; rfl) rfl
  · simp [stepJournal, hs]
  · simp [hs, DiskState.toNat]

theorem Membership.letGo_follows (hd : d ∈ m.disks) (hs : d.state = .releasing) :
    ∃ next, m.letGo d.id d.member = .ok next ∧ step m next = .ok () := by
  have hok := m.listable_later hd
  rw [m.letGo_eq hd hs]
  refine m.put_disk_follows hd rfl ?_ fun next _ _ => ?_
  · refine { hok with cache := fun h => ?_, state := nofun, holder := nofun, rests := fun _ => ⟨rfl, rfl⟩ }
    exact ⟨(hok.cache h).1, (hok.cache h).2.1, (hok.cache h).2.2.1, nofun⟩
  · simp [stepDisk, stepJournal, assigning, hs]

theorem Want.mem_takers (h : member ∈ w.takers m) :
    ∃ x host, m.member member = some x ∧ x.state ≠ .draining ∧ w.host member = some host ∧
      host.leaving = false ∧ host.machine ≠ "" := by
  obtain ⟨x, hx, rfl⟩ := mem_map.mp h
  obtain ⟨hx, hok⟩ := mem_filter.mp hx
  simp only [Bool.and_eq_true, decide_eq_true_eq, Option.any_eq_true, Bool.not_eq_true'] at hok
  obtain ⟨hs, host, hhost, hl, hm⟩ := hok
  exact ⟨x, host, Membership.member_eq_some.mpr ⟨hx, rfl⟩, hs, hhost, hl, hm⟩

section

variable (hd : d ∈ m.disks)

include hd

theorem Membership.assign_follows (hs : d.state = .released) (hy : m.member member = some y)
    (hdrain : y.state ≠ .draining) : ∃ next, m.assign d.id member = .ok next ∧ step m next = .ok () := by
  have hok := m.listable_later hd
  have hzero : d.member = 0 := (hok.rests (by rw [hs]; rfl)).1
  rw [m.assign_eq hd hs]
  refine m.put_disk_follows hd rfl ?_ fun next hgen hmem => ?_
  · refine { hok with cache := fun h => ?_, state := nofun, holder := fun _ => ?_, rests := nofun }
    · obtain ⟨hw, hm, he, -⟩ := hok.cache h
      refine ⟨hw, hm, ?_, nofun⟩
      split_ifs
      · rfl
      · exact he
    · refine ⟨?_, Nat.succ_pos _, le_rfl⟩
      have : find Member.id m.members member = some y := hy
      simp [this]
  · refine stepDisk_assigns ?_ hs rfl ?_ hgen.symm ?_
    · have hempty : (if d.kind = .journal then false else d.empty) = false := by
        split_ifs with hk
        · rfl
        · refine (hok.cache ?_).2.2.1
          cases h : d.kind
          · rfl
          · exact absurd h hk
      simp [stepJournal, hs, hempty]
    · rw [hzero]
      exact Membership.member_id_ne_zero hy
    · simpa [Membership.memberState, hmem, hy] using hdrain

theorem Membership.changeJournal_follows {done : Disk → Bool} {f : Disk → Disk} (hk : d.kind = .journal)
    (hdone : done d = false) (hid : (f d).id = d.id) (hok : (f d).Listable (m.generation + 1) m.members)
    (hstep : ∀ next, stepDisk next (some d) (f d) = .ok ()) :
    ∃ next, m.changeJournal d.id done f = .ok next ∧ step m next = .ok () := by
  rw [m.changeJournal_eq hd hk hdone]
  exact m.put_disk_follows hd hid hok fun next _ _ => hstep next

theorem Membership.reserve_follows {machine : String} (hk : d.kind = .journal) (hs : d.state = .released)
    (hm : d.machine ≠ machine) : ∃ next, m.reserve d.id machine = .ok next ∧ step m next = .ok () := by
  have hok := m.listable_later hd
  refine m.changeJournal_follows hd hk (by simpa using hm) rfl ?_ fun next => ?_
  · exact { hok with cache := fun h => by simp [hk] at h }
  · refine stepDisk_moves ?_ rfl rfl le_rfl .inr
    simp [stepJournal, hs]

theorem Membership.markEmpty_follows {empty : Bool} (hk : d.kind = .journal)
    (hs : d.state = .serving ∨ d.state = .releasing) (he : d.empty ≠ empty) :
    ∃ next, m.markEmpty d.id empty = .ok next ∧ step m next = .ok () := by
  have hok := m.listable_later hd
  refine m.changeJournal_follows hd hk (by simpa using he) rfl ?_ fun next => ?_
  · exact { hok with cache := fun h => by simp [hk] at h }
  · refine stepDisk_moves ?_ rfl rfl le_rfl .inr
    rcases hs with hs | hs <;> simp [stepJournal, hs]

theorem Membership.delete_follows (hk : d.kind = .journal) (hs : d.state = .released) (he : d.empty) :
    ∃ next, m.delete d.id = .ok next ∧ step m next = .ok () := by
  have hok := m.listable_later hd
  refine m.changeJournal_follows hd hk (by simp [hs]) rfl ?_ fun next => ?_
  · refine { hok with cache := fun h => by simp [hk] at h, state := nofun, holder := nofun, rests := ?_ }
    exact fun _ => hok.rests (by rw [hs]; rfl)
  · refine stepDisk_moves ?_ rfl rfl (by simp [hs, DiskState.toNat]) nofun
    simp [stepJournal, hs, he]

end

/-! ## Members -/

theorem changeMember_ids {f : Member → Member} (hf : ∀ x, (f x).id = x.id) :
    (changeMember members id f).map Member.id = members.map Member.id := by
  rw [changeMember, map_map]
  refine map_congr_left fun x _ => ?_
  simp only [Function.comp_apply]
  split_ifs
  · exact hf x
  · rfl

theorem mem_changeMember {f : Member → Member} :
    y ∈ changeMember members id f ↔ ∃ x ∈ members, (if x.id = id then f x else x) = y :=
  mem_map

theorem Membership.serve_follows (hd : d ∈ m.disks) (hs : d.state = .attaching) :
    ∃ next, m.serve d.id d.member = .ok next ∧ step m next = .ok () := by
  have hok := m.listable_later hd
  rw [m.serve_eq hd hs]
  refine m.put_follows hd rfl (changeMember_ids ?_) ?_ ?_ fun next _ _ => stepDisk_moves ?_ rfl rfl ?_ nofun
  · intro x
    split_ifs <;> rfl
  · intro y hy
    obtain ⟨x, hx, rfl⟩ := mem_changeMember.mp hy
    have hx := m.memberOk x hx
    unfold checkMember at hx ⊢
    split_ifs at hx ⊢ <;> simp_all
  · exact hok.held (by rw [hs]; rfl) rfl
  · simp [stepJournal, hs]
  · simp [hs, DiskState.toNat]

/-- The members change and keep their identities, and every disk is as it was or moves on. -/
theorem Membership.members_follow {f : Disk → Disk}
    (hids : members.map Member.id = m.members.map Member.id)
    (hmembers : ∀ y ∈ members, checkMember false y = .ok ()) (hf : ∀ d, (f d).id = d.id)
    (hok : ∀ d ∈ m.disks, (f d).Listable (m.generation + 1) m.members)
    (hstep : ∀ next, ∀ d ∈ m.disks, stepDisk next (some d) (f d) = .ok ()) :
    ∃ next, m.next members (m.disks.map f) = .ok next ∧ step m next = .ok () := by
  have hdisks : (m.disks.map f).map Disk.id = m.disks.map Disk.id := by
    rw [map_map]
    exact map_congr_left fun d _ => hf d
  refine m.new_follows m.codes ⟨hids ▸ ids_nodup m.memberOrder, hmembers,
    hdisks ▸ ids_nodup m.diskOrder, ?_⟩ ?_ ?_ ?_
  · intro y hy
    obtain ⟨d, hd, rfl⟩ := mem_map.mp hy
    refine checkDisk_ok_iff.mpr { hok d hd with holder := fun ha => ?_ }
    obtain ⟨hfind, hassigned⟩ := (hok d hd).holder ha
    refine ⟨?_, hassigned⟩
    rw [find_ne_none, hids, ← find_ne_none]
    exact hfind
  · intro next _ _ y hy
    obtain ⟨d, hd, rfl⟩ := mem_map.mp hy
    rw [hf, Membership.disk_of_mem hd]
    exact hstep next d hd
  · intro d hd
    rw [hdisks]
    exact .inl (mem_map_of_mem hd)
  · intro y hy
    rw [hids]
    exact .inl (mem_map_of_mem hy)

theorem Membership.move_follows {address : String} (hy : y ∈ m.members) (hne : y.address ≠ address)
    (ha : address ≠ "") : ∃ next, m.move y.id address = .ok next ∧ step m next = .ok () := by
  rw [m.move_eq hy hne, ← map_id m.disks]
  refine m.members_follow (changeMember_ids fun _ => rfl) ?_ (fun _ => rfl)
    (fun d hd => m.listable_later hd) fun next d _ => stepDisk_same
  intro z hz
  obtain ⟨x, hx, rfl⟩ := mem_changeMember.mp hz
  have hx := m.memberOk x hx
  unfold checkMember at hx ⊢
  split_ifs at hx ⊢ <;> simp_all

theorem Membership.drain_follows (hy : y ∈ m.members) (hs : y.state ≠ .draining) :
    ∃ next, m.drain y.id = .ok next ∧ step m next = .ok () := by
  rw [m.drain_eq hy hs]
  refine m.members_follow (changeMember_ids fun _ => rfl) ?_ ?_ ?_ ?_
  · intro z hz
    obtain ⟨x, hx, rfl⟩ := mem_changeMember.mp hz
    have hx := m.memberOk x hx
    unfold checkMember at hx ⊢
    split_ifs at hx ⊢ <;> simp_all
  · intro d
    unfold Membership.drained
    split_ifs <;> rfl
  · intro d hd
    have hok := m.listable_later hd
    unfold Membership.drained
    split_ifs with hmine
    · have ha : d.state.assigned := by
        rcases hmine.2 with h | h
        · rw [h]
          rfl
        · rw [h]
          rfl
      exact hok.held ha rfl
    · exact hok
  · intro next d _
    unfold Membership.drained
    split_ifs with hmine
    · refine stepDisk_moves ?_ rfl rfl ?_ nofun
      · rcases hmine.2 with h | h <;> simp [stepJournal, h]
      · rcases hmine.2 with h | h <;> simp [h, DiskState.toNat]
    · exact stepDisk_same

theorem Membership.leave_follows (hy : y ∈ m.members) (hs : y.state = .draining)
    (hn : ∀ d ∈ m.disks, d.member ≠ y.id) : ∃ next, m.leave y.id = .ok next ∧ step m next = .ok () := by
  rw [m.leave_eq hy]
  have hsub : (m.members.eraseP (·.id = y.id)).Sublist m.members := eraseP_sublist
  refine m.new_follows m.codes ⟨ids_nodup (m.memberOrder.sublist hsub), ?_, ids_nodup m.diskOrder,
    ?_⟩ ?_ ?_ ?_
  · exact fun x hx => m.memberOk x (hsub.subset hx)
  · intro d hd
    refine checkDisk_ok_iff.mpr ((m.listable hd).later ?_)
    intro i hi hmem
    rw [find_ne_none, mem_map] at hi ⊢
    obtain ⟨x, hx, hid⟩ := hi
    refine ⟨x, (mem_eraseP_id (ids_nodup m.memberOrder)).mpr ⟨hx, ?_⟩, hid⟩
    rw [hid, hmem]
    exact hn d hd
  · intro next _ _ d hd
    rw [Membership.disk_of_mem hd]
    exact stepDisk_same
  · exact fun d hd => .inl (mem_map_of_mem hd)
  · intro x hx
    by_cases hid : x.id = y.id
    · have : some x = some y := by
        rw [← Membership.member_eq_some.mpr ⟨hx, rfl⟩, ← Membership.member_eq_some.mpr ⟨hy, rfl⟩, hid]
      cases this
      exact .inr hs
    · exact .inl (mem_map_of_mem ((mem_eraseP_id (ids_nodup m.memberOrder)).mpr ⟨hx, hid⟩))

theorem Membership.recode_follows {code : Code} {earlier : List Code}
    (hc : newList code earlier = .ok ()) (hne : code ≠ m.code ∨ earlier ≠ m.earlier) :
    ∃ next, m.recode code earlier = .ok next ∧ step m next = .ok () := by
  rw [m.recode_eq hne]
  refine m.new_follows hc ⟨ids_nodup m.memberOrder, m.memberOk, ids_nodup m.diskOrder,
    fun d hd => checkDisk_ok_iff.mpr (m.listable_later hd)⟩ ?_ ?_ ?_
  · intro next _ _ d hd
    rw [Membership.disk_of_mem hd]
    exact stepDisk_same
  · exact fun d hd => .inl (mem_map_of_mem hd)
  · exact fun x hx => .inl (mem_map_of_mem hx)

/-! ## Disks that come and go -/

theorem Membership.add_follows (hn : m.disk x.id = none) (hid : x.id ≠ 0)
    (hk : x.kind = .cache → x.weight ≠ 0 ∧ x.machine = "" ∧ x.empty = false) :
    ∃ next, m.add x = .ok next ∧ step m next = .ok () := by
  rw [m.add_eq hn]
  refine m.new_follows m.codes ⟨ids_nodup m.memberOrder, m.memberOk, ?_, ?_⟩ ?_ ?_ ?_
  · exact append_nodup (ids_nodup m.diskOrder) hn
  · intro d hd
    rcases mem_append.mp hd with hd | hd
    · exact checkDisk_ok_iff.mpr (m.listable_later hd)
    · rw [mem_singleton] at hd
      subst hd
      refine checkDisk_ok_iff.mpr ⟨hid, fun h => ?_, nofun, nofun, fun _ => ⟨rfl, rfl⟩⟩
      exact ⟨(hk h).1, (hk h).2.1, (hk h).2.2, nofun⟩
  · intro next _ _ d hd
    rcases mem_append.mp hd with hd | hd
    · rw [Membership.disk_of_mem hd]
      exact stepDisk_same
    · rw [mem_singleton] at hd
      subst hd
      rw [hn]
      simp [stepDisk, stepJournal, assigning]
  · intro d hd
    rw [map_append]
    exact .inl (mem_append_left _ (mem_map_of_mem hd))
  · exact fun y hy => .inl (mem_map_of_mem hy)

theorem Membership.remove_follows (hd : d ∈ m.disks)
    (hs : d.state = .released ∧ d.kind = .cache ∨ d.state = .deleting) :
    ∃ next, m.remove d.id = .ok next ∧ step m next = .ok () := by
  rw [m.remove_eq hd]
  have hsub : (m.disks.eraseP (·.id = d.id)).Sublist m.disks := eraseP_sublist
  refine m.new_follows m.codes ⟨ids_nodup m.memberOrder, m.memberOk,
    ids_nodup (m.diskOrder.sublist hsub), ?_⟩ ?_ ?_ ?_
  · exact fun y hy => checkDisk_ok_iff.mpr (m.listable_later (hsub.subset hy))
  · intro next _ _ y hy
    rw [Membership.disk_of_mem (hsub.subset hy)]
    exact stepDisk_same
  · intro y hy
    by_cases hid : y.id = d.id
    · have : some y = some d := by
        rw [← Membership.disk_of_mem hy, ← Membership.disk_of_mem hd, hid]
      cases this
      exact .inr hs
    · exact .inl (mem_map_of_mem ((mem_eraseP_id (ids_nodup m.diskOrder)).mpr ⟨hy, hid⟩))
  · exact fun y hy => .inl (mem_map_of_mem hy)

theorem Membership.join_follows {disks : List Disk} (hn : m.member y.id = none) (hid : y.id ≠ 0)
    (ha : y.address ≠ "") (hdisks : (disks.map Disk.id).Nodup) (husable : ∀ d ∈ disks, d.Usable)
    (hfree : ∀ d ∈ disks, ∀ found ∈ m.disk d.id, found.state = .released ∧ found.kind = .cache) :
    ∃ next, m.join y disks = .ok next ∧ step m next = .ok () := by
  rw [m.join_eq hn]
  have hput := fun d => mem_foldl_put_iff (d := d) (f := m.taken y.id) (fun _ => rfl)
    (ids_nodup m.diskOrder) hdisks
  have hlisted : ∀ i, find Member.id m.members i ≠ none ∨ i = y.id →
      find Member.id (m.members ++ [{ y with state := .joining }]) i ≠ none := by
    intro i hi
    rw [find_ne_none, map_append, mem_append]
    rcases hi with hi | hi
    · exact .inl (find_ne_none.mp hi)
    · exact .inr (by simp [hi])
  refine m.new_follows m.codes ⟨?_, ?_, (hput { id := 0 }).1, ?_⟩ ?_ ?_ ?_
  · exact append_nodup (ids_nodup m.memberOrder) hn
  · intro x hx
    rcases mem_append.mp hx with hx | hx
    · exact m.memberOk x hx
    · rw [mem_singleton] at hx
      subst hx
      simp [checkMember, hid, ha]
  · intro d hd
    rcases (hput d).2.mp hd with ⟨z, hz, rfl⟩ | ⟨hd, -⟩
    · have hz := husable z hz
      refine checkDisk_ok_iff.mpr ⟨hz.id, fun _ => ⟨hz.weight, hz.machine, hz.empty, nofun⟩, nofun,
        fun _ => ⟨hlisted _ (.inr rfl), Nat.succ_pos _, le_rfl⟩, nofun⟩
    · exact checkDisk_ok_iff.mpr ((m.listable hd).later fun i hi _ => hlisted i (.inl hi))
  · intro next hgen hm d hd
    rcases (hput d).2.mp hd with ⟨z, hz, rfl⟩ | ⟨hd, -⟩
    · have hstate : next.memberState y.id ≠ .draining := by
        have hself : next.member y.id = some { y with state := .joining } := by
          rw [Membership.member_eq_some, hm, mem_sorted]
          exact ⟨mem_append_right _ (mem_singleton_self _), rfl⟩
        simp [Membership.memberState, hself]
      cases hfound : m.disk (m.taken y.id z).id with
      | none => simpa [stepDisk, stepJournal, assigning, stepAssigned, Membership.taken, hgen] using hstate
      | some found =>
        obtain ⟨hs, hk⟩ := hfree z hz found hfound
        have hzero := (Membership.released_ok hfound (by rw [hs]; rfl)).1
        refine stepDisk_assigns ?_ hs rfl (hzero ▸ hid) hgen.symm hstate
        have husable := husable z hz
        have hmachine := ((m.listable (Membership.disk_mem hfound)).cache hk).2.1
        simp [stepJournal, Membership.taken, husable.kind, husable.machine, husable.empty, hk, hs,
          hmachine]
    · rw [Membership.disk_of_mem hd]
      exact stepDisk_same
  · intro d hd
    by_cases hin : d.id ∈ disks.map Disk.id
    · obtain ⟨z, hz, hzid⟩ := mem_map.mp hin
      refine .inl (mem_map.mpr ⟨m.taken y.id z, (hput _).2.mpr (.inl ⟨z, hz, rfl⟩), hzid⟩)
    · exact .inl (mem_map_of_mem ((hput d).2.mpr (.inr ⟨hd, hin⟩)))
  · intro x hx
    rw [map_append]
    exact .inl (mem_append_left _ (mem_map_of_mem hx))

/-! ## What `Next` decides -/

namespace Want

theorem host_mem {h : Host} (hh : w.host id = some h) : h ∈ w.hosts ∧ h.id = id := by
  have hmem := mem_of_find?_eq_some hh
  rw [mem_reverse] at hmem
  exact ⟨mem_sorted.mp hmem, by simpa using find?_some hh⟩

theorem mem_joinDisks {h : Host} :
    d ∈ w.joinDisks m h ↔ d ∈ h.disks ∧ w.shard d.id = none ∧ d.kind = .cache ∧
      w.reported d.id = some h.id ∧ ∀ found ∈ m.disk d.id, found.state = .released := by
  simp [joinDisks, and_assoc, Option.all_eq_true]

theorem Decides.follows (hw : w.WellFormed) (ha : w.Agrees m) (h : w.Decides m change) :
    ∃ next, change.apply m = .ok next ∧ step m next = .ok () := by
  cases h with
  | recode hc => exact m.recode_follows hw.codes hc
  | drain hx hs _ => exact m.drain_follows hx hs
  | letGo hd hs _ => exact m.letGo_follows hd hs
  | remove hd _ _ hs hk => exact m.remove_follows hd (.inl ⟨hs, hk⟩)
  | add hs hn =>
    have hok := hw.shard _ hs
    exact m.add_follows hn hok.id fun _ => ⟨hok.weight, hok.machine, hok.empty⟩
  | leave hx hs hn => exact m.leave_follows hx hs hn
  | @join h hh hn hl =>
    refine m.join_follows hn (hw.host h hh).1 (hw.host h hh).2 ?_ ?_ ?_
    · exact (hw.reportIds h hh).sublist (filter_sublist.map Disk.id)
    · intro d hd
      obtain ⟨hd, -, hk, -⟩ := mem_joinDisks.mp hd
      exact hw.report h hh d hd hk
    · intro d hd found hfound
      obtain ⟨hd, hn, hk, -, hfree⟩ := mem_joinDisks.mp hd
      exact ⟨hfree found hfound, ha h hh d hd hk hn found hfound⟩
  | @move x h hx hh hne _ => exact m.move_follows hx hne.symm (hw.host h (host_mem hh).1).2
  | serve hd hs _ => exact m.serve_follows hd hs
  | @weigh h d found hh hd hf _ hk _ hne =>
    have hid := Membership.disk_id hf
    rw [← hid]
    exact m.weigh_follows (Membership.disk_mem hf) hne fun _ => (hw.report h hh d hd hk).weight
  | @weighShard s found hs hf hne =>
    have hid := Membership.disk_id hf
    rw [← hid]
    exact m.weigh_follows (Membership.disk_mem hf) hne fun _ => (hw.shard s hs).weight
  | journalAdd hs hn _ => exact m.add_follows hn (hw.journal _ hs) nofun
  | journalRemove hd _ hs _ _ => exact m.remove_follows hd (.inr hs)
  | delete hd hk hs _ he _ => exact m.delete_follows hd hk hs he
  | mark hd hk _ _ hs he _ => exact m.markEmpty_follows hd hk hs (Ne.symm he)
  | releaseRead hd _ hs _ _ _ => exact m.release_follows hd hs
  | unreserve hd hk hs hm _ => exact m.reserve_follows hd hk hs hm
  | @reserve d machine hd hk hs _ _ _ hn => exact m.reserve_follows hd hk hs (hn d hd hk)
  | own hd _ hs ht _ _ =>
    obtain ⟨x, -, hx, hdrain, -⟩ := mem_takers ht
    exact m.assign_follows hd hs hx hdrain
  | reader hd _ hs _ _ ht =>
    obtain ⟨x, -, hx, hdrain, -⟩ := mem_takers ht
    exact m.assign_follows hd hs hx hdrain
  | shard hd _ hs ht =>
    obtain ⟨x, -, hx, hdrain, -⟩ := mem_takers ht
    exact m.assign_follows hd hs hx hdrain
  | releaseShard hd _ hs _ => exact m.release_follows hd hs

end Want

end Sproutfs.Cluster
