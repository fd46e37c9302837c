import Mathlib.Algebra.Order.BigOperators.Group.Finset
import Sproutfs.Membership.Proofs.ValidProofs

/-!
# How far a disk and a member are from where a controller wants them

For one want, `Next` moves every disk down a ladder of its own: from released over attaching and serving to
where nothing more is to be done with it. A member has a ladder too. A drain, a leave, a join and a move
take a member down and may put its disks anywhere; every other change takes one disk down and leaves the
members where they stand.
-/

namespace Sproutfs.Cluster

open List Option

namespace Want

variable (w : Want) {h : Host}

/-- The member's host holds the disk. -/
def held (member id : Identity) : Bool := (w.host member).any (·.holds id)

/-- What the member's host says of the disk's being empty, under this assignment. -/
def saidEmpty (member id : Identity) (assigned : Nat) : Option Bool :=
  (w.host member).bind fun h =>
    (h.disks.find? fun x => x.id = id ∧ x.assigned = assigned).map Disk.empty

/-- The member's host is on no other machine than this, for which a disk is reserved. -/
def owned (member : Identity) (machine : String) : Bool := (w.host member).all (·.machine = machine)

/-- A host's own disk, or a journal disk's identity that a cache disk has. -/
def cacheLife (d : Disk) : Nat :=
  match d.state with
  | .unset | .deleting | .serving => 0
  | .attaching | .released => 1
  | .releasing => 2

def shardLife (d : Disk) : Nat :=
  match d.state with
  | .unset | .deleting => 0
  | .released => 4
  | .attaching => 3
  | .serving => if w.held d.member d.id then 1 else 6
  | .releasing => if w.held d.member d.id then 0 else 5

/-- An empty journal disk ends in the pool, deleted, or with the machine it is reserved for; one that
is not is read first, and is empty after that. A mark that the holder's report takes back is higher than
one it does not. -/
def journalLife (d : Disk) : Nat :=
  match d.state with
  | .unset => 0
  | .deleting => 1
  | .released =>
    if d.machine = "" then (if d.empty then 5 else 12)
    else if d.empty = false then 13
    else if d.machine ∈ w.pool then 4 else 6
  | .attaching => if w.owned d.member d.machine then 2 else if d.empty then 17 else 11
  | .serving =>
    if w.owned d.member d.machine then (if d.empty then 1 else 0)
    else if d.empty = false then 10
    else if w.saidEmpty d.member d.id d.assigned = some false then 16 else 9
  | .releasing =>
    if d.empty = false then 14
    else if w.saidEmpty d.member d.id d.assigned = some false then 15 else 8

/-- The holder says of the disk's being empty what the membership does not. -/
def mismarked (member id : Identity) (assigned : Nat) (empty : Bool) : Nat :=
  if (w.saidEmpty member id assigned).all (· = empty) then 0 else 1

/-- A journal disk the want has as a shard. -/
def shardJournalLife (d : Disk) : Nat :=
  match d.state with
  | .unset => 0
  | .deleting => 6
  | .released => if d.machine = "" then 8 else if d.machine ∈ w.pool then 7 else 9
  | .attaching => 4
  | .serving => if w.held d.member d.id then 2 + w.mismarked d.member d.id d.assigned d.empty else 11
  | .releasing => if w.held d.member d.id then w.mismarked d.member d.id d.assigned d.empty else 10

def life (d : Disk) : Nat :=
  match d.kind, w.isCacheShard d.id with
  | .cache, false => cacheLife d
  | .cache, true => w.shardLife d
  | .journal, false => w.journalLife d
  | .journal, true => w.shardJournalLife d

/-- The weight a disk is to have, where the want says one. -/
def wantedWeight (id : Identity) : Option Nat :=
  match w.shards.find? (·.disk.id = id) with
  | some s => some s.disk.weight
  | none =>
    if w.shard id = none then
      ((w.reported id).bind w.host).bind fun h => (h.disks.find? (·.id = id)).map Disk.weight
    else none

def misweighed (id : Identity) (weight : Nat) : Nat :=
  if (w.wantedWeight id).all (· = weight) then 0 else 1

/-- A disk the membership does not list, and the want has. -/
def unlisted (id : Identity) : Nat :=
  if w.isCacheShard id then 5 else if w.journals.any (·.disk.id = id) then 18 else 0

/-- Where identity `id` stands, listed as `d` or not at all. -/
def rung (id : Identity) : Option Disk → Nat
  | none => 2 * w.unlisted id
  | some d => 2 * w.life d + w.misweighed d.id d.weight

/-- The member's host is wanted, and is not leaving. -/
def stays (id : Identity) : Bool := (w.host id).any (!·.leaving)

def elsewhere (x : Member) : Nat := if (w.host x.id).all (·.address = x.address) then 0 else 1

def memberRung (id : Identity) : Option Member → Nat
  | none => if w.stays id then 2 else 0
  | some x =>
    if x.state = .draining then (if w.stays id then 3 else 1)
    else (if w.stays id then 0 else 2) + w.elsewhere x

end Want

variable {w : Want} {m m' : Membership} {d x : Disk}

/-! ## Lookups in what is wanted -/

namespace Want

theorem WellFormed.host_of_mem (hw : w.WellFormed) (hh : h ∈ w.hosts) : w.host h.id = some h := by
  refine (find_eq_some ?_).mpr ⟨mem_reverse.mpr (mem_sorted.mpr hh), rfl⟩
  have hperm : (w.sortedHosts.reverse.map Host.id).Perm (w.hosts.map Host.id) :=
    ((reverse_perm _).trans (perm_insertionSort _ _)).map Host.id
  exact hperm.nodup_iff.mpr hw.hostIds

variable {id : Identity}

theorem reported_some {host : Identity} (h : w.reported id = some host) :
    ∃ y ∈ w.hosts, y.id = host ∧ y.holds id := by
  obtain ⟨y, hy, rfl⟩ := map_eq_some_iff.mp h
  have hh := find?_some hy
  exact ⟨y, mem_sorted.mp (mem_of_find?_eq_some hy), rfl, hh⟩

theorem WellFormed.held_of_reported (hw : w.WellFormed) (h : w.reported d.id = some d.member) :
    w.held d.member d.id := by
  obtain ⟨y, hy, hid, hh⟩ := reported_some h
  simp [held, ← hid, hw.host_of_mem hy, hh]

theorem isCacheShard_iff : w.isCacheShard id ↔ ∃ s ∈ w.shards, s.disk.id = id := by
  simp [isCacheShard]

theorem shard_none :
    w.shard id = none ↔ (∀ s ∈ w.shards, s.disk.id ≠ id) ∧ ∀ s ∈ w.journals, s.disk.id ≠ id := by
  simp only [shard, find?_eq_none, mem_reverse, mem_append, decide_eq_true_eq]
  constructor
  · exact fun h => ⟨fun s hs => h s (.inl hs), fun s hs => h s (.inr hs)⟩
  · rintro ⟨h1, h2⟩ s (hs | hs)
    · exact h1 s hs
    · exact h2 s hs

theorem isCacheShard_of_shard_none (h : w.shard id = none) : w.isCacheShard id = false := by
  rw [Bool.eq_false_iff, Ne, isCacheShard_iff]
  rintro ⟨s, hs, hid⟩
  exact (shard_none.mp h).1 s hs hid

theorem unlisted_of_shard_none (h : w.shard id = none) : w.unlisted id = 0 := by
  have hj : w.journals.any (·.disk.id = id) = false := by
    simpa using (shard_none.mp h).2
  simp [unlisted, isCacheShard_of_shard_none h, hj]

theorem WellFormed.wantedWeight_shard (hw : w.WellFormed) {s : Shard} (hs : s ∈ w.shards) :
    w.wantedWeight s.disk.id = some s.disk.weight := by
  have hf : w.shards.find? (·.disk.id = s.disk.id) = some s :=
    (find_eq_some hw.shardIds).mpr ⟨hs, rfl⟩
  rw [wantedWeight, hf]

theorem WellFormed.wantedWeight_report (hw : w.WellFormed) (hh : h ∈ w.hosts) (hd : d ∈ h.disks)
    (hr : w.reported d.id = some h.id) (hn : w.shard d.id = none) :
    w.wantedWeight d.id = some d.weight := by
  have hs : w.shards.find? (·.disk.id = d.id) = none := by
    simpa using (shard_none.mp hn).1
  have hf : h.disks.find? (·.id = d.id) = some d :=
    (find_eq_some (hw.reportIds h hh)).mpr ⟨hd, rfl⟩
  rw [wantedWeight, hs]
  simp [hn, hr, hw.host_of_mem hh, hf]

/-! ## Down the ladder, one change at a time -/

theorem mismarked_le (member id : Identity) (assigned : Nat) (empty : Bool) :
    w.mismarked member id assigned empty ≤ 1 := by
  unfold mismarked
  split_ifs <;> omega

theorem WellFormed.life_serve (hw : w.WellFormed) (hs : d.state = .attaching)
    (hr : w.reported d.id = some d.member) : w.life { d with state := .serving } < w.life d := by
  have hheld := hw.held_of_reported hr
  cases hk : d.kind <;> cases hc : w.isCacheShard d.id
  · simp [life, hk, hc, cacheLife, hs]
  · simp [life, hk, hc, shardLife, hs, hheld]
  · simp only [life, hk, hc, journalLife, hs]
    split_ifs <;> simp_all
  · have := w.mismarked_le d.member d.id d.assigned d.empty
    simp only [life, hk, hc, shardJournalLife, hs, hheld, if_true]
    omega

theorem not_held_of_gone (hc : w.isCacheShard d.id) (hg : w.gone d) :
    w.held d.member d.id = false := by
  have hs : w.shard d.id ≠ none := by
    intro hn
    rw [isCacheShard_of_shard_none hn] at hc
    cases hc
  obtain ⟨s, hs⟩ := ne_none_iff_exists'.mp hs
  rw [gone, hs] at hg
  simp only [Bool.and_eq_true] at hg
  unfold held
  cases hh : w.host d.member with
  | none => rfl
  | some h => simpa [hh] using hg.1.1

theorem life_letGo (hs : d.state = .releasing) (hg : w.gone d) :
    w.life { d with member := 0, state := .released, assigned := 0 } < w.life d := by
  cases hk : d.kind <;> cases hc : w.isCacheShard d.id
  · simp [life, hk, hc, cacheLife, hs]
  · simp [life, hk, hc, shardLife, hs, not_held_of_gone hc hg]
  · simp only [life, hk, hc, journalLife, hs]
    split_ifs <;> simp_all
  · simp only [life, hk, hc, shardJournalLife, hs, not_held_of_gone hc hg]
    split_ifs <;> simp_all

theorem life_releaseShard (hs : d.state = .serving) (hc : w.isCacheShard d.id) :
    w.life { d with state := .releasing } < w.life d := by
  cases hk : d.kind
  · simp only [life, hk, hc, shardLife, hs]
    split_ifs <;> omega
  · simp only [life, hk, hc, shardJournalLife, hs]
    split_ifs <;> omega

section

variable (hk : d.kind = .journal)

include hk

theorem life_releaseRead (hs : d.state = .serving) (he : d.empty) (hh : w.host d.member = some h)
    (hm : h.machine ≠ d.machine) : w.life { d with state := .releasing } < w.life d := by
  have hread : w.owned d.member d.machine = false := by simp [owned, hh, hm]
  cases hc : w.isCacheShard d.id
  · simp only [life, hk, hc, journalLife, hs, hread, he]
    split_ifs <;> simp_all
  · exact life_releaseShard hs hc

theorem life_mark {held : Disk} (hh : w.host d.member = some h)
    (hf : (h.disks.find? fun x => x.id = d.id ∧ x.assigned = d.assigned) = some held)
    (hs : d.state = .serving ∨ d.state = .releasing) (he : held.empty ≠ d.empty)
    (hr : held.empty → d.state = .releasing ∨ d.machine ≠ h.machine) :
    w.life { d with empty := held.empty } < w.life d := by
  have hsaid : w.saidEmpty d.member d.id d.assigned = some held.empty := by
    rw [saidEmpty, hh, bind_some, hf, map_some]
  have hown : w.owned d.member d.machine = decide (h.machine = d.machine) := by simp [owned, hh]
  cases hc : w.isCacheShard d.id
  · rcases hs with hs | hs
    · simp only [life, hk, hc, journalLife, hs, hsaid, hown]
      cases hb : held.empty <;> cases hd : d.empty
      · exact absurd (hb.trans hd.symm) he
      · by_cases hm : h.machine = d.machine <;> simp [hm]
      · have hm : h.machine ≠ d.machine := fun hm => by simp [hs, hb, hm] at hr
        simp [hm]
      · exact absurd (hb.trans hd.symm) he
    · simp only [life, hk, hc, journalLife, hs, hsaid]
      cases hb : held.empty <;> cases hd : d.empty <;> simp_all
  · have hheld : w.held d.member d.id := by
      have hid := find?_some hf
      simp only [decide_eq_true_eq] at hid
      simp only [Want.held, hh, any_some, Host.holds, List.any_eq_true, decide_eq_true_eq]
      exact ⟨held, List.mem_of_find?_eq_some hf, hid.1⟩
    have hmark : w.mismarked d.member d.id d.assigned d.empty = 1 := by
      simp [mismarked, hsaid, he]
    have hmark' : w.mismarked d.member d.id d.assigned held.empty = 0 := by
      simp [mismarked, hsaid]
    rcases hs with hs | hs <;>
      simp [life, hk, hc, shardJournalLife, hs, hheld, hmark, hmark']

theorem life_reserve {machine : String} (hs : d.state = .released) (hm : d.machine = "") (he : d.empty)
    (hp : machine ∈ w.pool) (hne : machine ≠ "") : w.life { d with machine := machine } < w.life d := by
  cases hc : w.isCacheShard d.id
  · simp [life, hk, hc, journalLife, hs, hm, he, hp, hne]
  · simp [life, hk, hc, shardJournalLife, hs, hm, hp, hne]

theorem life_unreserve (hs : d.state = .released) (hm : d.machine ≠ "") (hp : d.machine ∉ w.pool) :
    w.life { d with machine := "" } < w.life d := by
  cases hc : w.isCacheShard d.id
  · cases he : d.empty <;> simp [life, hk, hc, journalLife, hs, hm, he, hp]
  · simp [life, hk, hc, shardJournalLife, hs, hm, hp]

theorem life_delete (hs : d.state = .released) (hm : d.machine = "") (he : d.empty) :
    w.life { d with state := .deleting } < w.life d := by
  cases hc : w.isCacheShard d.id
  · simp [life, hk, hc, journalLife, hs, hm, he]
  · simp [life, hk, hc, shardJournalLife, hs, hm]

end

/-- A released disk that is assigned: a shard to any member, a journal disk to a member on its machine,
or, with no machine and something to read, to any member on one. -/
theorem life_assign {member : Identity} {assigned : Nat} (hs : d.state = .released)
    (hh : w.host member = some h) (hmachine : h.machine ≠ "")
    (hwhy : w.isCacheShard d.id ∨ d.kind = .journal ∧ (d.machine = h.machine ∨ d.machine = "" ∧ d.empty = false)) :
    w.life { d with
      member := member
      state := .attaching
      assigned := assigned
      empty := if d.kind = .journal then false else d.empty } < w.life d := by
  cases hk : d.kind <;> cases hc : w.isCacheShard d.id
  · simp_all
  · simp [life, hk, hc, shardLife, hs]
  · have hwhy := hwhy.resolve_left (by simp [hc])
    rcases hwhy.2 with hm | ⟨hm, he⟩
    · simp only [life, hk, hc, journalLife, hs, owned, hh, hm, all_some, decide_true, if_true]
      split_ifs <;> omega
    · simp only [life, hk, hc, journalLife, hs, owned, hh]
      simp_all
  · simp only [life, hk, hc, shardJournalLife, hs]
    split_ifs <;> omega

end Want

end Sproutfs.Cluster
