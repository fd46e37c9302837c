import Mathlib.Data.Prod.Lex
import Sproutfs.Membership.Proofs.ChainProofs
import Sproutfs.Membership.Proofs.LifeProofs

/-!
# A controller that is left alone comes to rest

With one want, making the change `Next` returns again and again ends at a membership for which it
returns none. Every change lowers the membership: first in its codes, then in where its members stand,
then in where its disks do.
-/

namespace Sproutfs.Cluster

open List Function

variable {w : Want} {m m' : Membership} {change : Change} {d x : Disk} {I : Finset Identity} {id : Identity}
  {disks : List Disk} {members : List Member} {y : Member}

/-! ## What a change of the members lists -/

theorem Membership.next_changeMember {f : Member → Member} (hf : ∀ y, (f y).id = y.id)
    (h : m.next (changeMember m.members id f) disks = .ok m') :
    m'.member = update m.member id ((m.member id).map f) := by
  have hnodup := ids_nodup m.memberOrder
  refine (m.next_member h).trans (find_update hnodup ?_ ?_ ?_)
  · rw [changeMember_ids hf]
    exact hnodup
  · intro y
    rw [mem_changeMember, Option.map_eq_some_iff]
    constructor
    · rintro ⟨z, hz, rfl⟩
      by_cases hid : z.id = id
      · rw [if_pos hid]
        exact .inl ⟨⟨z, Membership.member_eq_some.mpr ⟨hz, hid⟩, rfl⟩, (hf z).trans hid⟩
      · rw [if_neg hid]
        exact .inr ⟨hz, hid⟩
    · rintro (⟨⟨z, hz, rfl⟩, -⟩ | ⟨hy, hne⟩)
      · obtain ⟨hz, hid⟩ := Membership.member_eq_some.mp hz
        exact ⟨z, hz, if_pos hid⟩
      · exact ⟨y, hy, if_neg hne⟩
  · intro y hy
    obtain ⟨z, hz, rfl⟩ := Option.map_eq_some_iff.mp hy
    exact (hf z).trans (Membership.member_eq_some.mp hz).2

theorem Membership.next_codes (h : m.next members disks = .ok m') :
    m'.code = m.code ∧ m'.earlier = m.earlier := by
  obtain ⟨-, hc, he, -⟩ := new_ok h
  exact ⟨hc, he⟩

namespace Want

/-- The identities the want names. -/
def ids (w : Want) : Finset Identity :=
  (w.hosts.map Host.id ++ w.hosts.flatMap (fun h => h.disks.map Disk.id) ++
    (w.shards ++ w.journals).map (·.disk.id)).toFinset

/-- The codes are as wanted, or are to be changed. -/
def recodes (w : Want) (m : Membership) : Nat :=
  if w.code = m.code ∧ w.earlier = m.earlier then 0 else 1

/-- How a change lowers a membership: it takes the codes, takes a member down, or takes one disk
down. -/
inductive Lowers (w : Want) (m m' : Membership) : Prop where
  | codes (hc : w.recodes m' < w.recodes m) (hd : m'.disk = m.disk) (hm : m'.member = m.member)
  | member {id o} (hc : w.recodes m' = w.recodes m) (hm : m'.member = Function.update m.member id o)
    (hlow : w.memberRung id o < w.memberRung id (m.member id))
    (hid : m.member id ≠ none ∨ id ∈ w.ids)
    (hd : ∀ i, ∀ x ∈ m'.disk i, m.disk i ≠ none ∨ x.kind = .cache ∧ i ∈ w.ids)
  | disk {id o} (hc : w.recodes m' = w.recodes m)
    (hm : ∀ i, w.memberRung i (m'.member i) = w.memberRung i (m.member i))
    (hlisted : ∀ i, m'.member i ≠ none → m.member i ≠ none)
    (hd : m'.disk = Function.update m.disk id o) (hlow : w.rung id o < w.rung id (m.disk id))
    (hid : m.disk id ≠ none ∨ w.shard id ≠ none)

theorem recodes_next (h : m.next members disks = .ok m') : w.recodes m' = w.recodes m := by
  obtain ⟨hc, he⟩ := Membership.next_codes h
  rw [recodes, recodes, hc, he]

/-! ## The changes of a disk -/

theorem Lowers.of_put (hd : d ∈ m.disks) (h : m.next m.members (put m.disks x) = .ok m')
    (hid : x.id = d.id) (hlow : w.rung d.id (some x) < w.rung d.id (some d)) : w.Lowers m m' := by
  have hdisk := m.next_put h
  have hmember : m'.member = m.member := m.next_member h
  rw [hid] at hdisk
  refine .disk (recodes_next h) (fun i => by rw [hmember]) (fun i => by rw [hmember]; exact id) hdisk ?_ ?_
  · rw [Membership.disk_of_mem hd]
    exact hlow
  · rw [Membership.disk_of_mem hd]
    exact .inl nofun

theorem rung_lt (hlow : w.life x < w.life d) (hid : x.id = d.id) (hweight : x.weight = d.weight)
    (id : Identity) : w.rung id (some x) < w.rung id (some d) := by
  simp only [rung, hid, hweight]
  omega

theorem Lowers.of_life (hd : d ∈ m.disks) (h : m.next m.members (put m.disks x) = .ok m')
    (hlow : w.life x < w.life d) (hid : x.id = d.id) (hweight : x.weight = d.weight) : w.Lowers m m' :=
  .of_put hd h hid (rung_lt hlow hid hweight d.id)

theorem WellFormed.unlisted_journal (hw : w.WellFormed) {s : Shard} (hs : s ∈ w.journals) :
    w.unlisted s.disk.id = 18 := by
  have hc : w.isCacheShard s.disk.id = false := by
    rw [Bool.eq_false_iff, Ne, isCacheShard_iff]
    rintro ⟨t, ht, hid⟩
    exact hw.apart t ht s hs hid
  have hj : w.journals.any (·.disk.id = s.disk.id) := by
    simpa using ⟨s, hs, rfl⟩
  simp [unlisted, hc, hj]

theorem misweighed_le (id : Identity) (weight : Nat) : w.misweighed id weight ≤ 1 := by
  unfold misweighed
  split_ifs <;> omega

theorem Lowers.of_add (h : m.add x = .ok m') (hn : m.disk x.id = none)
    (hlow : w.life { x with member := 0, state := .released, assigned := 0 } < w.unlisted x.id)
    (hs : w.shard x.id ≠ none) : w.Lowers m m' := by
  rw [m.add_eq hn] at h
  have hmember : m'.member = m.member := m.next_member h
  have hdisk := m.next_append h hn
  refine .disk (recodes_next h) (fun i => by rw [hmember]) (fun i => by rw [hmember]; exact id) hdisk
    ?_ (.inr hs)
  have := w.misweighed_le x.id x.weight
  rw [hn]
  simp only [rung]
  omega

theorem Lowers.of_remove (hd : d ∈ m.disks)
    (h : m.next m.members (m.disks.eraseP (·.id = d.id)) = .ok m')
    (hlow : w.unlisted d.id < w.life d) : w.Lowers m m' := by
  have hmember : m'.member = m.member := m.next_member h
  refine .disk (recodes_next h) (fun i => by rw [hmember]) (fun i => by rw [hmember]; exact id)
    (m.next_eraseP h) ?_ ?_
  · rw [Membership.disk_of_mem hd]
    simp only [rung]
    omega
  · rw [Membership.disk_of_mem hd]
    exact .inl nofun

/-! ## The changes of a member -/

theorem mem_ids :
    id ∈ w.ids ↔ (∃ h ∈ w.hosts, h.id = id) ∨ (∃ h ∈ w.hosts, ∃ d ∈ h.disks, d.id = id) ∨
      w.shard id ≠ none := by
  have hshard : w.shard id ≠ none ↔ ∃ s, (s ∈ w.shards ∨ s ∈ w.journals) ∧ s.disk.id = id := by
    rw [← Option.isSome_iff_ne_none, shard, find?_isSome]
    simp [or_comm]
  rw [hshard]
  simp only [ids, mem_toFinset, mem_append, mem_map, mem_flatMap, or_assoc]

theorem Lowers.of_member {o : Option Member} (h : m.next members m.disks = .ok m')
    (hm : m'.member = update m.member id o)
    (hlow : w.memberRung id o < w.memberRung id (m.member id)) (hid : m.member id ≠ none ∨ id ∈ w.ids) :
    w.Lowers m m' := by
  have hdisk : m'.disk = m.disk := m.next_disk h
  refine .member (recodes_next h) hm hlow hid fun i x hx => .inl ?_
  rw [hdisk] at hx
  exact Option.ne_none_iff_exists'.mpr ⟨x, hx⟩

theorem stays_eq_false (h : ∀ host, w.host id = some host → host.leaving) : w.stays id = false := by
  unfold stays
  cases hh : w.host id with
  | none => rfl
  | some host => simp [h host hh]

theorem Lowers.of_drain (hy : y ∈ m.members) (hs : y.state ≠ .draining)
    (hgone : ∀ h, w.host y.id = some h → h.leaving) (h : m.drain y.id = .ok m') : w.Lowers m m' := by
  rw [m.drain_eq hy hs] at h
  have hmember := Membership.member_eq_some.mpr ⟨hy, rfl⟩
  have hm := m.next_changeMember (f := fun x => { x with state := .draining }) (fun _ => rfl) h
  refine .member (recodes_next h) hm ?_ (.inl (by simp [hmember])) ?_
  · simp only [hmember, Option.map_some, memberRung, hs, stays_eq_false hgone, if_true, if_false,
      Bool.false_eq_true]
    omega
  · intro i x hx
    rw [m.next_disk h] at hx
    obtain ⟨hlisted, rfl⟩ := find_mem hx
    obtain ⟨d, hd, rfl⟩ := mem_map.mp hlisted
    have hid : (Membership.drained y.id d).id = d.id := by
      unfold Membership.drained
      split_ifs <;> rfl
    rw [hid, Membership.disk_of_mem hd]
    exact .inl nofun

theorem Lowers.of_leave (hy : y ∈ m.members) (hs : y.state = .draining) (h : m.leave y.id = .ok m') :
    w.Lowers m m' := by
  rw [m.leave_eq hy] at h
  have hmember := Membership.member_eq_some.mpr ⟨hy, rfl⟩
  have hm : m'.member = update m.member y.id none :=
    (m.next_member h).trans (find_eraseP (ids_nodup m.memberOrder))
  refine .of_member h hm ?_ (.inl (by simp [hmember]))
  simp only [hmember, memberRung, hs, if_true]
  split_ifs <;> omega

theorem Lowers.of_move {host : Host} (hy : y ∈ m.members) (hh : w.host y.id = some host)
    (ha : host.address ≠ y.address) (hs : y.state ≠ .draining) (h : m.move y.id host.address = .ok m') :
    w.Lowers m m' := by
  rw [m.move_eq hy (Ne.symm ha)] at h
  have hmember := Membership.member_eq_some.mpr ⟨hy, rfl⟩
  have hm := m.next_changeMember (f := fun x => { x with address := host.address }) (fun _ => rfl) h
  refine .of_member h hm ?_ (.inl (by simp [hmember]))
  simp [hmember, memberRung, hs, elsewhere, hh, ha]

theorem WellFormed.lowers_join (hw : w.WellFormed) {host : Host} (hh : host ∈ w.hosts)
    (hn : m.member host.id = none) (hl : host.leaving = false)
    (h : m.join { id := host.id, address := host.address } (w.joinDisks m host) = .ok m') :
    w.Lowers m m' := by
  rw [m.join_eq hn] at h
  have hhost := hw.host_of_mem hh
  have hm := (m.next_member h).trans (find_append (ids_nodup m.memberOrder) hn)
  refine .member (recodes_next h) hm ?_ (.inr (mem_ids.mpr (.inl ⟨host, hh, rfl⟩))) ?_
  · have hnone : m.member host.id = none := hn
    simp [hnone, memberRung, stays, elsewhere, hhost, hl]
  · intro i x hx
    rw [m.next_disk h] at hx
    obtain ⟨hlisted, rfl⟩ := find_mem hx
    have hnodup : ((w.joinDisks m host).map Disk.id).Nodup :=
      (hw.reportIds host hh).sublist (filter_sublist.map Disk.id)
    rcases (mem_foldl_put_iff (f := m.taken host.id) (fun _ => rfl) (ids_nodup m.diskOrder)
      hnodup).2.mp hlisted with
      ⟨d, hd, rfl⟩ | ⟨hx, -⟩
    · obtain ⟨hd, -, hk, -⟩ := mem_joinDisks.mp hd
      exact .inr ⟨hk, mem_ids.mpr (.inr (.inl ⟨host, hh, d, hd, rfl⟩))⟩
    · rw [Membership.disk_of_mem hx]
      exact .inl nofun

/-! ## Every change lowers -/

theorem Lowers.of_serve (hw : w.WellFormed) (hd : d ∈ m.disks) (hs : d.state = .attaching)
    (hr : w.reported d.id = some d.member) (h : m.serve d.id d.member = .ok m') : w.Lowers m m' := by
  rw [m.serve_eq hd hs] at h
  have hm := m.next_changeMember
    (f := fun x => if x.state = .joining then { x with state := .active } else x)
    (fun y => by split_ifs <;> rfl) h
  refine .disk (recodes_next h) (fun i => ?_) (fun i => ?_) (m.next_put h) ?_ ?_
  · rw [hm]
    by_cases hi : i = d.member
    · subst hi
      rw [update_self]
      cases hy : m.member d.member with
      | none => rfl
      | some y =>
        rw [Option.map_some]
        split_ifs with hj
        · simp [memberRung, elsewhere, hj]
        · rfl
    · rw [update_of_ne hi]
  · rw [hm]
    by_cases hi : i = d.member
    · subst hi
      rw [update_self, Ne, Option.map_eq_none_iff]
      exact id
    · rw [update_of_ne hi]
      exact id
  · rw [Membership.disk_of_mem hd]
    exact rung_lt (hw.life_serve hs hr) rfl rfl _
  · rw [Membership.disk_of_mem hd]
    exact .inl nofun

theorem Lowers.of_weigh {weight : Nat} (hd : d ∈ m.disks) (hne : d.weight ≠ weight)
    (hwant : w.wantedWeight d.id = some weight) (h : m.weigh d.id weight = .ok m') : w.Lowers m m' := by
  rw [m.weigh_eq hd hne] at h
  refine .of_put hd h rfl ?_
  have hlife : w.life { d with weight := weight } = w.life d := rfl
  have hbefore : w.misweighed d.id d.weight = 1 := by simp [misweighed, hwant, Ne.symm hne]
  have hafter : w.misweighed d.id weight = 0 := by simp [misweighed, hwant]
  simp only [rung, hlife, hbefore, hafter]
  omega

theorem recodes_recode (hne : w.code ≠ m.code ∨ w.earlier ≠ m.earlier)
    (h : m.recode w.code w.earlier = .ok m') : w.Lowers m m' := by
  rw [m.recode_eq hne] at h
  obtain ⟨-, hc, he, -, hm, hd⟩ := new_ok h
  refine .codes ?_ ?_ ?_
  · rw [recodes, recodes, if_pos ⟨hc.symm, he.symm⟩, if_neg (by tauto)]
    exact Nat.one_pos
  · funext i
    rw [Membership.disk, hd, sorted_eq m.diskOrder, Membership.disk]
  · funext i
    rw [Membership.member, hm, sorted_eq m.memberOrder, Membership.member]

theorem Decides.lowers (hw : w.WellFormed) (hdec : w.Decides m change) (h : change.apply m = .ok m') :
    w.Lowers m m' := by
  cases hdec with
  | recode hc => exact recodes_recode hc h
  | drain hx hs hgone => exact .of_drain hx hs hgone h
  | letGo hd hs hgone =>
    exact .of_life hd ((m.letGo_eq hd hs).symm.trans h) (life_letGo hs hgone) rfl rfl
  | @remove d hd _ hn hs hk =>
    refine .of_remove hd ((m.remove_eq hd).symm.trans h) ?_
    have hc := isCacheShard_of_shard_none hn
    simp [unlisted_of_shard_none hn, life, hk, hc, cacheLife, hs]
  | @add s hs hn =>
    have hc : w.isCacheShard s.disk.id := isCacheShard_iff.mpr ⟨s, hs, rfl⟩
    have hshard : w.shard s.disk.id ≠ none := fun hnone => (shard_none.mp hnone).1 s hs rfl
    refine .of_add h hn ?_ hshard
    simp [life, hc, (hw.shard s hs).kind, shardLife, unlisted]
  | leave hx hs _ => exact .of_leave hx hs h
  | join hh hn hl => exact hw.lowers_join hh hn hl h
  | move hx hh ha hs => exact .of_move hx hh ha hs h
  | serve hd hs hr => exact .of_serve hw hd hs hr h
  | weigh hh hd hf hn _ hr hne =>
    have hwant := hw.wantedWeight_report hh hd hr hn
    rw [← Membership.disk_id hf] at hwant
    have h := Membership.disk_id hf ▸ h
    exact .of_weigh (Membership.disk_mem hf) hne hwant h
  | weighShard hs hf hne =>
    have hwant := hw.wantedWeight_shard hs
    rw [← Membership.disk_id hf] at hwant
    have h := Membership.disk_id hf ▸ h
    exact .of_weigh (Membership.disk_mem hf) hne hwant h
  | @journalAdd s hs hn _ =>
    have hc : w.isCacheShard s.disk.id = false := by
      rw [Bool.eq_false_iff, Ne, isCacheShard_iff]
      rintro ⟨t, ht, hid⟩
      exact hw.apart t ht s hs hid
    have hshard : w.shard s.disk.id ≠ none := fun hnone => (shard_none.mp hnone).2 s hs rfl
    refine .of_add h hn ?_ hshard
    simp [life, hc, journalLife, hw.unlisted_journal hs]
  | @journalRemove d hd hk hs _ hn =>
    refine .of_remove hd ((m.remove_eq hd).symm.trans h) ?_
    have hj : w.journals.any (·.disk.id = d.id) = false := by simpa using hn
    cases hc : w.isCacheShard d.id
    · simp [life, hk, hc, journalLife, hs, unlisted, hj]
    · simp [life, hk, hc, shardJournalLife, hs, unlisted]
  | delete hd hk hs hm he _ =>
    exact .of_life hd ((m.changeJournal_eq hd hk (by simp [hs])).symm.trans h)
      (life_delete hk hs hm he) rfl rfl
  | mark hd hk hh hf hs he hr =>
    exact .of_life hd ((m.changeJournal_eq hd hk (by simpa using Ne.symm he)).symm.trans h)
      (life_mark hk hh hf hs he hr) rfl rfl
  | releaseRead hd hk hs he hh hm =>
    exact .of_life hd ((m.release_eq hd hs).symm.trans h) (life_releaseRead hk hs he hh hm) rfl rfl
  | unreserve hd hk hs hm hp =>
    exact .of_life hd ((m.changeJournal_eq hd hk (by simpa using hm)).symm.trans h)
      (life_unreserve hk hs hm hp) rfl rfl
  | @reserve d machine hd hk hs hm he hp hn =>
    have hne := hn d hd hk
    exact .of_life hd ((m.changeJournal_eq hd hk (by simpa using hne)).symm.trans h)
      (life_reserve hk hs hm he hp (hm ▸ hne.symm)) rfl rfl
  | own hd hk hs ht hh hm =>
    obtain ⟨-, host, -, -, hhost, -, hmachine⟩ := mem_takers ht
    cases hh.symm.trans hhost
    exact .of_life hd ((m.assign_eq hd hs).symm.trans h)
      (life_assign hs hh hmachine (.inr ⟨hk, .inl hm⟩)) rfl rfl
  | reader hd hk hs hm he ht =>
    obtain ⟨-, host, -, -, hhost, -, hmachine⟩ := mem_takers ht
    exact .of_life hd ((m.assign_eq hd hs).symm.trans h)
      (life_assign hs hhost hmachine (.inr ⟨hk, .inr ⟨hm, he⟩⟩)) rfl rfl
  | shard hd hc hs ht =>
    obtain ⟨-, host, -, -, hhost, -, hmachine⟩ := mem_takers ht
    exact .of_life hd ((m.assign_eq hd hs).symm.trans h) (life_assign hs hhost hmachine (.inl hc))
      rfl rfl
  | releaseShard hd hc hs _ =>
    exact .of_life hd ((m.release_eq hd hs).symm.trans h) (life_releaseShard hs hc) rfl rfl

/-! ## The height of a membership -/

/-- `I` has every identity the membership lists or the want names. -/
structure Covers (w : Want) (I : Finset Identity) (m : Membership) : Prop where
  wanted : w.ids ⊆ I
  disk : ∀ i, m.disk i ≠ none → i ∈ I
  member : ∀ i, m.member i ≠ none → i ∈ I

/-- The codes, then the members, then the disks. -/
def height (w : Want) (I : Finset Identity) (m : Membership) : ℕ ×ₗ ℕ ×ₗ ℕ :=
  toLex (w.recodes m, toLex (∑ i ∈ I, w.memberRung i (m.member i), ∑ i ∈ I, w.rung i (m.disk i)))

theorem sum_update_lt {α : Type*} {f : Identity → α} {g : Identity → α → Nat} {o : α} (hid : id ∈ I)
    (hlow : g id o < g id (f id)) : ∑ i ∈ I, g i (update f id o i) < ∑ i ∈ I, g i (f i) := by
  refine Finset.sum_lt_sum (fun i _ => ?_) ⟨id, hid, by rw [update_self]; exact hlow⟩
  by_cases hi : i = id
  · subst hi
    rw [update_self]
    exact hlow.le
  · rw [update_of_ne hi]

theorem Lowers.height_lt (h : w.Lowers m m') (hI : w.Covers I m) : w.height I m' < w.height I m := by
  unfold height
  rw [Prod.Lex.toLex_lt_toLex]
  cases h with
  | codes hc _ _ => exact .inl hc
  | member hc hm hlow hid _ =>
    refine .inr ⟨hc, Prod.Lex.toLex_lt_toLex.mpr (.inl ?_)⟩
    rw [hm]
    exact sum_update_lt (hid.elim (hI.member _) fun h => hI.wanted h) hlow
  | disk hc hm _ hd hlow hid =>
    refine .inr ⟨hc, Prod.Lex.toLex_lt_toLex.mpr (.inr ⟨?_, ?_⟩)⟩
    · exact Finset.sum_congr rfl fun i _ => hm i
    · rw [hd]
      exact sum_update_lt (hid.elim (hI.disk _) fun h => hI.wanted (mem_ids.mpr (.inr (.inr h)))) hlow

theorem Lowers.covers (h : w.Lowers m m') (hI : w.Covers I m) : w.Covers I m' := by
  refine ⟨hI.wanted, ?_, ?_⟩
  · intro i hi
    cases h with
    | codes _ hd _ => exact hI.disk i (hd ▸ hi)
    | member _ _ _ _ hd =>
      obtain ⟨x, hx⟩ := Option.ne_none_iff_exists'.mp hi
      rcases hd i x hx with h | ⟨-, h⟩
      · exact hI.disk i h
      · exact hI.wanted h
    | @disk id o _ _ _ hd _ hid =>
      by_cases heq : i = id
      · subst heq
        exact hid.elim (hI.disk _) fun h => hI.wanted (mem_ids.mpr (.inr (.inr h)))
      · rw [hd, update_of_ne heq] at hi
        exact hI.disk i hi
  · intro i hi
    cases h with
    | codes _ _ hm => exact hI.member i (hm ▸ hi)
    | @member id o _ hm _ hid _ =>
      by_cases heq : i = id
      · subst heq
        exact hid.elim (hI.member _) fun h => hI.wanted h
      · rw [hm, update_of_ne heq] at hi
        exact hI.member i hi
    | disk _ _ hlisted _ _ _ => exact hI.member i (hlisted i hi)

/-- No change lists a host's cache disk as a journal disk. -/
theorem Lowers.agrees (h : w.Lowers m m') (hstep : step m m' = .ok ()) (ha : w.Agrees m) :
    w.Agrees m' := by
  intro host hh d hd hk hn found hfound
  cases hwas : m.disk d.id with
  | some was =>
    have hmoved := step_moved hstep d.id
    rw [hwas, hfound] at hmoved
    rw [hmoved.kind]
    exact ha host hh d hd hk hn was hwas
  | none =>
    cases h with
    | codes _ hd' _ =>
      rw [hd', hwas] at hfound
      cases hfound
    | member _ _ _ _ hd' =>
      rcases hd' d.id found hfound with h | ⟨h, -⟩
      · exact absurd hwas h
      · exact h
    | @disk id o _ _ _ hd' _ hid =>
      by_cases heq : d.id = id
      · subst heq
        rcases hid with h | h
        · exact absurd hwas h
        · exact absurd hn h
      · rw [hd', update_of_ne heq, hwas] at hfound
        cases hfound

/-! ## Making the changes -/

/-- At most `n` changes of a controller that is alone, each the one `Next` returns for the membership
before, made and checked as `Update` does. -/
def settle (w : Want) : Nat → Membership → Except Error Membership
  | 0, m => .ok m
  | n + 1, m => match w.next m with
    | none => .ok m
    | some change => match change.apply m with
      | .error e => .error e
      | .ok m' => match step m m' with
        | .error e => .error e
        | .ok () => w.settle n m'

theorem WellFormed.settles (hw : w.WellFormed) (m : Membership) (ha : w.Agrees m) (hI : w.Covers I m) :
    ∃ n m', w.settle n m = .ok m' ∧ w.next m' = none := by
  -- by induction on the height: the change after this one starts lower
  induction hh : w.height I m using WellFoundedLT.induction generalizing m with
  | ind h ih =>
    subst hh
    cases hnext : w.next m with
    | none => exact ⟨0, m, rfl, hnext⟩
    | some change =>
      have hdec := next_decides hnext
      obtain ⟨m', happly, hstep⟩ := hdec.follows hw ha
      have hlow := hdec.lowers hw happly
      obtain ⟨n, last, hlast, hnone⟩ :=
        ih _ (hlow.height_lt hI) m' (hlow.agrees hstep ha) (hlow.covers hI) rfl
      refine ⟨n + 1, last, ?_, hnone⟩
      simp only [settle, hnext, happly, hstep]
      exact hlast

/-- What the want names and the membership lists. -/
theorem covers_listed (w : Want) (m : Membership) :
    w.Covers (w.ids ∪ ((m.disks.map Disk.id).toFinset ∪ (m.members.map Member.id).toFinset)) m where
  wanted := Finset.subset_union_left
  disk i hi := by
    rw [Finset.mem_union, Finset.mem_union, mem_toFinset, ← find_ne_none]
    exact .inr (.inl hi)
  member i hi := by
    rw [Finset.mem_union, Finset.mem_union, mem_toFinset, mem_toFinset, ← find_ne_none,
      ← find_ne_none]
    exact .inr (.inr hi)

/-- A change `Next` returns is made and may follow, and a controller that makes one after the other
comes to a membership for which there is none. -/
theorem next_settles (w : Want) (m : Membership) (hw : w.WellFormed) (ha : w.Agrees m) :
    (∀ change, w.next m = some change → ∃ m', change.apply m = .ok m' ∧ step m m' = .ok ()) ∧
      ∃ n m', w.settle n m = .ok m' ∧ w.next m' = none :=
  ⟨fun _ hnext => (next_decides hnext).follows hw ha, hw.settles m ha (w.covers_listed m)⟩

/-! ## Samples -/

/-- A journal disk nobody is assigned. -/
def journalListed : Membership where
  generation := 1
  code := ⟨1, 0⟩
  earlier := []
  members := []
  disks := [{ id := 5, state := .released, kind := .journal, empty := true }]
  codes := Membership.empty.codes
  memberOrder := Membership.empty.memberOrder
  diskOrder := by decide
  memberOk := Membership.empty.memberOk
  diskOk := by decide

/-- One host, which reports `disks`. -/
def oneHost (disks : List Disk) : Want where
  hosts := [{ id := 1, address := "host", disks := disks, machine := "machine" }]
  pool := ["machine"]

theorem oneHost_wellFormed (hids : (disks.map Disk.id).Nodup)
    (hdisks : ∀ d ∈ disks, d.kind = .cache → d.Usable) : (oneHost disks).WellFormed where
  codes := rfl
  hostIds := by simp [oneHost]
  host := by simp [oneHost]
  reportIds := by simpa [oneHost] using hids
  report := by simpa [oneHost] using hdisks
  shardIds := by simp [oneHost]
  shard := by simp [oneHost]
  journal := by simp [oneHost]
  apart := by simp [oneHost]

/-- A host that joins with a disk listed as a journal disk, a host without an address, and one whose
cache disk is marked empty: `Step` refuses what the first change builds, `New` that of the others. -/
theorem change_refused :
    (oneHost [{ id := 5, weight := 1 }]).WellFormed ∧
      (oneHost [{ id := 5, weight := 1 }]).settle 1 journalListed =
        .error (.kindChanges 5 .journal .cache) ∧
      { oneHost [] with hosts := [{ id := 1 }] }.settle 1 journalListed = .error (.member 1 "") ∧
      (oneHost [{ id := 7, weight := 1, empty := true }]).settle 1 journalListed =
        .error (.cacheDisk 7 .attaching "" true) := by
  refine ⟨oneHost_wellFormed (by simp) ?_, by decide, by decide, by decide⟩
  intro d hd _
  rw [mem_singleton] at hd
  subst hd
  exact ⟨by decide, by decide, rfl, rfl, rfl⟩

/-- A host with a cache disk of its own joins and serves it, and the journal disk is reserved for its
machine, assigned and served there. -/
theorem next_settles_sample :
    let w := oneHost [{ id := 7, weight := 1 }, { id := 5, kind := .journal }]
    (w.settle 5 journalListed).map (fun m => m.disks.map Disk.state) = .ok [.serving, .serving] ∧
      ∃ n m', w.settle n journalListed = .ok m' ∧ w.next m' = none := by
  refine ⟨by decide, (next_settles _ _ (oneHost_wellFormed (by simp) ?_) ?_).2⟩
  · intro d hd hk
    rcases mem_cons.mp hd with rfl | hd
    · exact ⟨by decide, by decide, rfl, rfl, rfl⟩
    · rw [mem_singleton] at hd
      subst hd
      cases hk
  · intro h hh d hd hk _ found hfound
    simp only [oneHost, mem_singleton] at hh
    subst hh
    rcases mem_cons.mp hd with rfl | hd
    · cases hfound
    · rw [mem_singleton] at hd
      subst hd
      cases hk

end Want

end Sproutfs.Cluster
