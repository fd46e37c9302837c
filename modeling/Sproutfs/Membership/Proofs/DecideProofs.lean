import Sproutfs.Membership.Controller

/-!
# What `Next` decides

Every change `Next` returns, with what held of the membership and of what the controller read where it
was chosen. The order of the steps is left out: what follows of a change follows from its own guards.
-/

namespace Sproutfs.Cluster

open Option

namespace Want

variable {w : Want} {m : Membership} {change : Change}

/-- A change `Next` may take, and what it is taken for. -/
inductive Decides (w : Want) (m : Membership) : Change → Prop where
  | recode (hc : w.code ≠ m.code ∨ w.earlier ≠ m.earlier) : Decides w m (.recode w.code w.earlier)
  | drain {x} (hx : x ∈ m.members) (hs : x.state ≠ .draining)
    (hgone : ∀ h, w.host x.id = some h → h.leaving) : Decides w m (.drain x.id)
  | letGo {d} (hd : d ∈ m.disks) (hs : d.state = .releasing) (hgone : w.gone d) :
    Decides w m (.letGo d.id d.member)
  | remove {d} (hd : d ∈ m.disks) (hr : w.reported d.id = none) (hn : w.shard d.id = none)
    (hs : d.state = .released) (hk : d.kind = .cache) : Decides w m (.remove d.id)
  | add {s} (hs : s ∈ w.shards) (hn : m.disk s.disk.id = none) : Decides w m (.add s.disk)
  | leave {x} (hx : x ∈ m.members) (hs : x.state = .draining) (hn : ∀ d ∈ m.disks, d.member ≠ x.id) :
    Decides w m (.leave x.id)
  | join {h} (hh : h ∈ w.hosts) (hn : m.member h.id = none) (hl : h.leaving = false) :
    Decides w m (.join { id := h.id, address := h.address } (w.joinDisks m h))
  | move {x h} (hx : x ∈ m.members) (hh : w.host x.id = some h) (ha : h.address ≠ x.address)
    (hs : x.state ≠ .draining) : Decides w m (.move x.id h.address)
  | serve {d} (hd : d ∈ m.disks) (hs : d.state = .attaching) (hr : w.reported d.id = some d.member) :
    Decides w m (.serve d.id d.member)
  | weigh {h d found} (hh : h ∈ w.hosts) (hd : d ∈ h.disks) (hf : m.disk d.id = some found)
    (hn : w.shard d.id = none) (hk : d.kind = .cache) (hr : w.reported d.id = some h.id)
    (hw : found.weight ≠ d.weight) : Decides w m (.weigh d.id d.weight)
  | weighShard {s found} (hs : s ∈ w.shards) (hf : m.disk s.disk.id = some found)
    (hw : found.weight ≠ s.disk.weight) : Decides w m (.weigh s.disk.id s.disk.weight)
  | journalAdd {s} (hs : s ∈ w.journals) (hn : m.disk s.disk.id = none)
    (hg : m.generation ≤ w.journalsAfter) :
    Decides w m (.add { s.disk with kind := .journal, empty := true, machine := "" })
  | journalRemove {d} (hd : d ∈ m.disks) (hk : d.kind = .journal) (hs : d.state = .deleting)
    (hknown : w.journalsKnown) (hn : ∀ s ∈ w.journals, s.disk.id ≠ d.id) : Decides w m (.remove d.id)
  | delete {d} (hd : d ∈ m.disks) (hk : d.kind = .journal) (hs : d.state = .released)
    (hm : d.machine = "") (he : d.empty) (hx : d.id ∈ w.expired) : Decides w m (.delete d.id)
  | mark {d h held} (hd : d ∈ m.disks) (hk : d.kind = .journal) (hh : w.host d.member = some h)
    (hf : (h.disks.find? fun x => x.id = d.id ∧ x.assigned = d.assigned) = some held)
    (hs : d.state = .serving ∨ d.state = .releasing) (he : held.empty ≠ d.empty)
    (hr : held.empty → d.state = .releasing ∨ d.machine ≠ h.machine) :
    Decides w m (.markEmpty d.id held.empty)
  | releaseRead {d h} (hd : d ∈ m.disks) (hk : d.kind = .journal) (hs : d.state = .serving)
    (he : d.empty) (hh : w.host d.member = some h) (hm : h.machine ≠ d.machine) :
    Decides w m (.release d.id)
  | unreserve {d} (hd : d ∈ m.disks) (hk : d.kind = .journal) (hs : d.state = .released)
    (hm : d.machine ≠ "") (hp : d.machine ∉ w.pool) : Decides w m (.reserve d.id "")
  | reserve {d machine} (hd : d ∈ m.disks) (hk : d.kind = .journal) (hs : d.state = .released)
    (hm : d.machine = "") (he : d.empty) (hp : machine ∈ w.pool)
    (hn : ∀ x ∈ m.disks, x.kind = .journal → x.machine ≠ machine) : Decides w m (.reserve d.id machine)
  | own {d member h} (hd : d ∈ m.disks) (hk : d.kind = .journal) (hs : d.state = .released)
    (ht : member ∈ w.takers m) (hh : w.host member = some h) (hm : d.machine = h.machine) :
    Decides w m (.assign d.id member)
  | reader {d member} (hd : d ∈ m.disks) (hk : d.kind = .journal) (hs : d.state = .released)
    (hm : d.machine = "") (he : d.empty = false) (ht : member ∈ w.takers m) :
    Decides w m (.assign d.id member)
  | shard {d member} (hd : d ∈ m.disks) (hc : w.isCacheShard d.id) (hs : d.state = .released)
    (ht : member ∈ w.takers m) : Decides w m (.assign d.id member)
  | releaseShard {d} (hd : d ∈ m.disks) (hc : w.isCacheShard d.id) (hs : d.state = .serving)
    (ht : d.member ∈ w.takers m) : Decides w m (.release d.id)

/-! ## The choice among members -/

theorem foldl_choice_mem (better : Identity → Identity → Prop) [DecidableRel better] (id : Identity)
    (rest : List Identity) :
    rest.foldl (fun chosen member => if better member chosen then member else chosen) id ∈
      id :: rest := by
  induction rest generalizing id with
  | nil => exact List.mem_singleton_self id
  | cons member rest ih =>
    rw [List.foldl_cons]
    split_ifs
    · exact List.mem_cons_of_mem _ (ih member)
    · rcases List.mem_cons.mp (ih id) with h | h
      · rw [h]
        exact List.mem_cons_self
      · exact List.mem_cons_of_mem _ (List.mem_cons_of_mem _ h)

theorem leastOf_mem (load : Identity → Nat) (id : Identity) (rest : List Identity) :
    leastOf load id rest ∈ id :: rest :=
  foldl_choice_mem (fun member chosen => load member < load chosen) id rest

theorem mostOf_mem (load : Identity → Nat) (id : Identity) (rest : List Identity) :
    mostOf load id rest ∈ id :: rest :=
  foldl_choice_mem (fun member chosen => load chosen < load member) id rest

theorem mem_journalDisks {d : Disk} : d ∈ m.journalDisks ↔ d ∈ m.disks ∧ d.kind = .journal := by
  simp [Membership.journalDisks]

theorem of_find_map {α β : Type} {l : List α} {p : α → Bool} {f : α → β} {b : β}
    (h : (l.find? p).map f = some b) : ∃ a ∈ l, p a = true ∧ f a = b := by
  obtain ⟨a, ha, rfl⟩ := map_eq_some_iff.mp h
  exact ⟨a, List.mem_of_find?_eq_some ha, List.find?_some ha, rfl⟩

theorem of_find_journalDisks {p : Disk → Bool} {f : Disk → Change}
    (h : (m.journalDisks.find? p).map f = some change) :
    ∃ d ∈ m.disks, d.kind = .journal ∧ p d = true ∧ f d = change := by
  obtain ⟨d, hd, hok, rfl⟩ := of_find_map h
  exact ⟨d, (mem_journalDisks.mp hd).1, (mem_journalDisks.mp hd).2, hok, rfl⟩

/-! ## The steps -/

theorem nextJournalStep_decides (h : w.nextJournalStep m = some change) : w.Decides m change := by
  simp only [nextJournalStep, orElse_eq_orElse, orElse_eq_or,
    or_eq_some_iff] at h
  rcases h with h | ⟨-, h | ⟨-, h | ⟨-, h | ⟨-, h | ⟨-, h | ⟨-, h | ⟨-, h | ⟨-, h⟩⟩⟩⟩⟩⟩⟩⟩
  · obtain ⟨s, hs, hok, rfl⟩ := of_find_map h
    simp only [Bool.and_eq_true, isNone_iff_eq_none, decide_eq_true_eq] at hok
    exact .journalAdd hs hok.1 hok.2
  · obtain ⟨d, hmem, hk, hok, rfl⟩ := of_find_journalDisks h
    simp only [Bool.and_eq_true, decide_eq_true_eq, Bool.not_eq_true', List.any_eq_false] at hok
    exact .journalRemove hmem hk hok.1.1 hok.1.2 fun s hs => by simpa using hok.2 s hs
  · obtain ⟨d, hmem, hk, hok, rfl⟩ := of_find_journalDisks h
    simp only [Bool.and_eq_true, Disk.free, decide_eq_true_eq, List.contains_iff_mem] at hok
    exact .delete hmem hk hok.1.1.1 hok.1.1.2 hok.1.2 hok.2
  · obtain ⟨d, hd, hx⟩ := List.exists_of_findSome?_eq_some h
    obtain ⟨hmem, hk⟩ := mem_journalDisks.mp hd
    obtain ⟨host, hhost, hx⟩ := bind_eq_some_iff.mp hx
    obtain ⟨held, hheld, hx⟩ := bind_eq_some_iff.mp hx
    obtain ⟨⟨hs, hflag⟩, rfl⟩ := ite_some_none_eq_some.mp hx
    refine .mark hmem hk hhost hheld hs ?_ ?_
    · rcases hflag with ⟨-, he, hd⟩ | ⟨he, hd⟩
      · simp_all
      · simp_all
    · intro he
      rcases hflag with ⟨hr, -, -⟩ | ⟨hne, -⟩
      · rcases hr with hr | hr
        · exact .inr hr.2
        · exact .inl hr
      · exact absurd he hne
  · obtain ⟨d, hmem, hk, hok, rfl⟩ := of_find_journalDisks h
    simp only [Bool.and_eq_true, decide_eq_true_eq, any_eq_true] at hok
    obtain ⟨⟨hs, he⟩, host, hhost, hm⟩ := hok
    exact .releaseRead hmem hk hs he hhost (by simpa using hm)
  · obtain ⟨d, hmem, hk, hok, rfl⟩ := of_find_journalDisks h
    simp only [Bool.and_eq_true, decide_eq_true_eq, Bool.not_eq_true', List.contains_eq_mem,
      decide_eq_false_iff_not] at hok
    exact .unreserve hmem hk hok.1.1 hok.1.2 hok.2
  · obtain ⟨machine, hmachine, hx⟩ := List.exists_of_findSome?_eq_some h
    obtain ⟨hnone, hx⟩ := ite_none_left_eq_some.mp hx
    obtain ⟨d, hmem, hk, hok, rfl⟩ := of_find_journalDisks hx
    simp only [Bool.and_eq_true, Disk.free, decide_eq_true_eq] at hok
    refine .reserve hmem hk hok.1.1 hok.1.2 hok.2 ((List.mem_insertionSort _).mp hmachine) ?_
    intro x hx hxk hxm
    refine hnone (List.any_eq_true.mpr ⟨x, mem_journalDisks.mpr ⟨hx, hxk⟩, by simpa using hxm⟩)
  · obtain ⟨member, ht, hx⟩ := List.exists_of_findSome?_eq_some h
    obtain ⟨host, hhost, hx⟩ := bind_eq_some_iff.mp hx
    obtain ⟨d, hmem, hk, hok, rfl⟩ := of_find_journalDisks hx
    simp only [Bool.and_eq_true, decide_eq_true_eq] at hok
    exact .own hmem hk hok.1.1 ht hhost hok.1.2
  · unfold nextReader at h
    split at h
    · cases h
    · next first rest htakers =>
      obtain ⟨d, hmem, hk, hok, rfl⟩ := of_find_journalDisks h
      simp only [Bool.and_eq_true, Disk.free, decide_eq_true_eq, Bool.not_eq_true'] at hok
      exact .reader hmem hk hok.1.1 hok.1.2 hok.2 (htakers ▸ leastOf_mem _ first rest)

theorem nextShardMove_decides (h : w.nextShardMove m = some change) : w.Decides m change := by
  unfold nextShardMove at h
  split at h
  · cases h
  · next first rest htakers =>
    split at h
    · next d hd =>
      cases h
      have hok := List.find?_some hd
      simp only [Bool.and_eq_true, decide_eq_true_eq] at hok
      exact .shard (List.mem_of_find?_eq_some hd) hok.1 hok.2 (htakers ▸ leastOf_mem _ first rest)
    · obtain ⟨-, h⟩ := ite_none_left_eq_some.mp h
      obtain ⟨d, hd, hok, rfl⟩ := of_find_map h
      simp only [Bool.and_eq_true, decide_eq_true_eq] at hok
      exact .releaseShard hd hok.1.1 hok.2
        (htakers ▸ hok.1.2 ▸ mostOf_mem _ first rest)

/-- Whatever `Next` returns is one of its changes, taken where its guards hold. -/
theorem next_decides (h : w.next m = some change) : w.Decides m change := by
  simp only [next, orElse_eq_orElse, orElse_eq_or, or_eq_some_iff] at h
  rcases h with h | ⟨-, h | ⟨-, h | ⟨-, h | ⟨-, h | ⟨-, h | ⟨-, h | ⟨-, h | ⟨-, h | ⟨-, h | ⟨-, h |
    ⟨-, h | ⟨-, h⟩⟩⟩⟩⟩⟩⟩⟩⟩⟩⟩⟩
  · obtain ⟨hc, rfl⟩ := ite_some_none_eq_some.mp h
    exact .recode hc.1
  · obtain ⟨x, hx, hok, rfl⟩ := of_find_map h
    simp only [Bool.and_eq_true, all_eq_true, decide_eq_true_eq] at hok
    exact .drain hx hok.2 hok.1
  · obtain ⟨d, hd, hok, rfl⟩ := of_find_map h
    simp only [Bool.and_eq_true, decide_eq_true_eq] at hok
    exact .letGo hd hok.1 hok.2
  · obtain ⟨d, hd, hok, rfl⟩ := of_find_map h
    simp only [Bool.and_eq_true, decide_eq_true_eq, isNone_iff_eq_none] at hok
    exact .remove hd hok.1.1.1 hok.1.1.2 hok.1.2 hok.2
  · obtain ⟨s, hs, hok, rfl⟩ := of_find_map h
    exact .add hs (by simpa using hok)
  · obtain ⟨x, hx, hok, rfl⟩ := of_find_map h
    simp only [Bool.and_eq_true, decide_eq_true_eq, Bool.not_eq_true', List.any_eq_false] at hok
    exact .leave hx hok.1 fun d hd => by simpa using hok.2 d hd
  · obtain ⟨host, hhost, hok, rfl⟩ := of_find_map h
    simp only [Bool.and_eq_true, isNone_iff_eq_none, Bool.not_eq_true'] at hok
    exact .join (mem_sorted.mp hhost) hok.1 hok.2
  · obtain ⟨x, hx, h⟩ := List.exists_of_findSome?_eq_some h
    obtain ⟨host, hhost, h⟩ := bind_eq_some_iff.mp h
    obtain ⟨hok, rfl⟩ := ite_some_none_eq_some.mp h
    exact .move hx hhost hok.1 hok.2
  · obtain ⟨d, hd, hok, rfl⟩ := of_find_map h
    simp only [Bool.and_eq_true, decide_eq_true_eq] at hok
    exact .serve hd hok.1 hok.2
  · obtain ⟨host, hhost, h⟩ := List.exists_of_findSome?_eq_some h
    obtain ⟨d, hd, h⟩ := List.exists_of_findSome?_eq_some h
    obtain ⟨found, hfound, h⟩ := bind_eq_some_iff.mp h
    obtain ⟨hok, rfl⟩ := ite_some_none_eq_some.mp h
    exact .weigh (mem_sorted.mp hhost) hd hfound (by simpa using hok.1) hok.2.1 hok.2.2.1 hok.2.2.2
  · obtain ⟨s, hs, h⟩ := List.exists_of_findSome?_eq_some h
    obtain ⟨found, hfound, h⟩ := bind_eq_some_iff.mp h
    obtain ⟨hok, rfl⟩ := ite_some_none_eq_some.mp h
    exact .weighShard hs hfound hok
  · exact nextJournalStep_decides h
  · exact nextShardMove_decides h

end Want

end Sproutfs.Cluster
