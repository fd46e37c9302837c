import Sproutfs.Membership.Change

/-!
# What `New` and `Step` accept

The other way round from `new_ok` and `step_ok`: lists of members and disks whose entries pass their
checks, with no identity twice, make a membership, and it may follow the current one if every disk and
every member of either does.
-/

namespace Sproutfs.Cluster

open List Function

variable {α : Type*} {m : Membership} {d x : Disk} {id : Identity} {earlier : List Code} {code : Code}
  {generation : Nat} {a : α}

/-! ## New -/

theorem checkEach_of {key : α → Identity} {check : Bool → α → Except Error Unit}
    {before : Option Identity} {l : List α} (hchain : l.Pairwise fun a b => key a ≠ key b)
    (hbefore : ∀ a ∈ l, before ≠ some (key a)) (hok : ∀ a ∈ l, check false a = .ok ()) :
    checkEach key check before l = .ok () := by
  induction l generalizing before with
  | nil => rfl
  | cons a rest ih =>
    obtain ⟨hhead, hrest⟩ := pairwise_cons.mp hchain
    have hne : decide (before = some (key a)) = false := by
      simpa using hbefore a mem_cons_self
    rw [checkEach, hne, hok a mem_cons_self]
    refine ih hrest ?_ fun b hb => hok b (mem_cons_of_mem _ hb)
    intro b hb heq
    exact hhead b hb (Option.some.inj heq)

/-- The sorted list has no identity twice where the list has none. -/
theorem sorted_apart {key : α → Identity} {l : List α} (h : (l.map key).Nodup) :
    (sorted key l).Pairwise fun a b => key a ≠ key b := by
  have hperm : ((sorted key l).map key).Perm (l.map key) := (perm_insertionSort _ l).map key
  exact pairwise_map.mp (hperm.nodup_iff.mpr h)

theorem sorted_eq {key : α → Identity} {l : List α} (h : l.Pairwise fun a b => key a < key b) :
    sorted key l = l :=
  (h.imp fun hab => hab.le).insertionSort_eq

theorem ids_nodup {key : α → Identity} {l : List α} (h : l.Pairwise fun a b => key a < key b) :
    (l.map key).Nodup :=
  pairwise_map.mpr (h.imp fun hab => hab.ne)

theorem find_sorted {key : α → Identity} {l : List α} :
    find key (sorted key l) id = none ↔ find key l id = none := by
  simp only [find_none, mem_sorted]

theorem find_ne_none {key : α → Identity} {l : List α} : find key l id ≠ none ↔ id ∈ l.map key := by
  rw [Ne, find_none, mem_map]
  push Not
  rfl

theorem checkDisk_sorted {members : List Member} :
    checkDisk generation (sorted Member.id members) d = checkDisk generation members d := by
  unfold checkDisk
  simp only [find_sorted]

theorem newList_validate (h : newList code earlier = .ok ()) : code.validate = .ok () := by
  unfold newList at h
  split at h
  · cases h
  · assumption

/-- What `New` takes. -/
structure Fits (generation : Nat) (members : List Member) (disks : List Disk) : Prop where
  memberIds : (members.map Member.id).Nodup
  memberOk : ∀ x ∈ members, checkMember false x = .ok ()
  diskIds : (disks.map Disk.id).Nodup
  diskOk : ∀ d ∈ disks, checkDisk generation members d = .ok ()

theorem new_of {members : List Member} {disks : List Disk} (hc : newList code earlier = .ok ())
    (h : Fits generation members disks) : ∃ next, new generation code members disks earlier = .ok next := by
  have hmembers : checkEach Member.id checkMember none (sorted Member.id members) = .ok () :=
    checkEach_of (sorted_apart h.memberIds) (by simp)
      fun x hx => h.memberOk x (mem_sorted.mp hx)
  have hdisks : checkEach Disk.id (checkDiskOnce generation (sorted Member.id members)) none
      (sorted Disk.id disks) = .ok () := by
    refine checkEach_of (sorted_apart h.diskIds) (by simp) fun d hd => ?_
    simp only [checkDiskOnce, Bool.false_eq_true, if_false, checkDisk_sorted]
    exact h.diskOk d (mem_sorted.mp hd)
  unfold new
  rw [newList_validate hc]
  dsimp only
  split
  · next hm =>
    rw [hmembers] at hm
    cases hm
  · split
    · next hd =>
      rw [hdisks] at hd
      cases hd
    · split
      · next hl =>
        rw [hc] at hl
        cases hl
      · exact ⟨_, rfl⟩

/-! ## Lookups -/

theorem Membership.member_eq_some {y : Member} : m.member id = some y ↔ y ∈ m.members ∧ y.id = id := by
  constructor
  · exact find_mem
  · rintro ⟨hy, rfl⟩
    exact find_of_mem m.memberOrder hy

/-- What `checkDisk` takes. -/
structure Disk.Listable (generation : Nat) (members : List Member) (d : Disk) : Prop where
  id : d.id ≠ 0
  cache : d.kind = .cache → d.weight ≠ 0 ∧ d.machine = "" ∧ d.empty = false ∧ d.state ≠ .deleting
  state : d.state ≠ .unset
  holder : d.state.assigned → find Member.id members d.member ≠ none ∧ 0 < d.assigned ∧
    d.assigned ≤ generation
  rests : d.state.assigned = false → d.member = 0 ∧ d.assigned = 0

theorem checkDisk_ok_iff {members : List Member} :
    checkDisk generation members d = .ok () ↔ d.Listable generation members := by
  constructor
  · intro hok
    unfold checkDisk at hok
    split_ifs at hok with h1 h2 h3 h4 h5 h6 h7
    all_goals
      refine ⟨by tauto, fun hk => ?_, h3, fun ha => ?_, fun ha => ?_⟩
    · simp_all
    · rcases h4 with h4 | h4 <;> simp [h4, DiskState.assigned] at ha
    · simpa using h5
    · simp_all
    · exact ⟨h6, by omega, by omega⟩
    · cases hs : d.state <;> simp_all [DiskState.assigned]
  · intro h
    have h1 : ¬ (d.id = 0 ∨ d.weight = 0 ∧ d.kind = .cache) := by
      rintro (h0 | ⟨hw, hk⟩)
      · exact h.id h0
      · exact (h.cache hk).1 hw
    have h2 : ¬ (d.kind = .cache ∧ (d.machine ≠ "" ∨ d.empty ∨ d.state = .deleting)) := by
      rintro ⟨hk, hx⟩
      obtain ⟨-, hm, he, hs⟩ := h.cache hk
      simp_all
    unfold checkDisk
    rw [if_neg h1, if_neg h2, if_neg h.state]
    by_cases ha : d.state.assigned = true
    · obtain ⟨hf, hpos, hle⟩ := h.holder ha
      have hs : ¬ (d.state = .released ∨ d.state = .deleting) := by
        rintro (hs | hs) <;> simp [hs, DiskState.assigned] at ha
      rw [if_neg hs, if_neg hf, if_neg (by omega)]
    · obtain ⟨hm, hz⟩ := h.rests (by simpa using ha)
      have hs : d.state = .released ∨ d.state = .deleting := by
        have := h.state
        cases hs : d.state <;> simp_all [DiskState.assigned]
      rw [if_pos hs, if_neg (by simp [hm, hz])]

theorem Membership.listable (hd : d ∈ m.disks) : d.Listable m.generation m.members :=
  checkDisk_ok_iff.mp (m.diskOk d hd)

theorem Disk.Listable.later {members members' : List Member} (h : d.Listable generation members)
    (hm : ∀ i, find Member.id members i ≠ none → i = d.member → find Member.id members' i ≠ none) :
    d.Listable (generation + 1) members' where
  id := h.id
  cache := h.cache
  state := h.state
  holder ha := by
    obtain ⟨hf, hpos, hle⟩ := h.holder ha
    exact ⟨hm _ hf rfl, hpos, by omega⟩
  rests := h.rests

/-! ## Step -/

theorem stepDisk_same {next : Membership} : stepDisk next (some d) d = .ok () := by
  have hjournal : stepJournal (some d) d = .ok () := by
    cases hs : d.state <;> simp [stepJournal, hs]
  have hnot : assigning (some d) d = false := by simp [assigning]
  rw [stepDisk, hjournal]
  split_ifs <;> first | rfl | simp_all

/-- Lists that fit make a membership that may follow, where every disk and member of either may. -/
theorem Membership.new_follows {members : List Member} {disks : List Disk}
    (hc : newList code earlier = .ok ()) (h : Fits (m.generation + 1) members disks)
    (hdisks : ∀ next : Membership, next.generation = m.generation + 1 → next.members = sorted Member.id members → ∀ d ∈ disks, stepDisk next (m.disk d.id) d = .ok ())
    (hkept : ∀ d ∈ m.disks, d.id ∈ disks.map Disk.id ∨ d.state = .released ∧ d.kind = .cache ∨ d.state = .deleting)
    (hmembers : ∀ x ∈ m.members, x.id ∈ members.map Member.id ∨ x.state = .draining) :
    ∃ next, new (m.generation + 1) code members disks earlier = .ok next ∧ step m next = .ok () := by
  obtain ⟨next, hnext⟩ := new_of hc h
  obtain ⟨hgen, -, -, -, hm, hd⟩ := new_ok hnext
  refine ⟨next, hnext, ?_⟩
  have hall : checkAll (fun d => stepDisk next (m.disk d.id) d) next.disks = .ok () := by
    refine checkAll_ok.mpr fun d hdn => hdisks next hgen hm d ?_
    rw [hd] at hdn
    exact mem_sorted.mp hdn
  have hremoved : checkAll (stepRemoved next) m.disks = .ok () := by
    refine checkAll_ok.mpr fun d hdm => ?_
    unfold stepRemoved
    split
    · rfl
    · next hnone =>
      rcases hkept d hdm with hin | ⟨hs, hk⟩ | hs
      · obtain ⟨d', hd', hid⟩ := mem_map.mp hin
        exact absurd hid (Membership.disk_none hnone (by rw [hd]; exact mem_sorted.mpr hd'))
      · simp [hs, hk]
      · simp [hs]
  have hleft : checkAll (stepMember next) m.members = .ok () := by
    refine checkAll_ok.mpr fun x hx => ?_
    unfold stepMember
    split
    · rfl
    · next hnone =>
      rcases hmembers x hx with hin | hs
      · obtain ⟨y, hy, hid⟩ := mem_map.mp hin
        exact absurd hid (find_none.mp hnone y (by rw [hm]; exact mem_sorted.mpr hy))
      · simp [hs]
  unfold step
  rw [if_neg (by simp [hgen]), hall]
  rw [hremoved]
  exact hleft

/-! ## Putting one disk in another's place -/

theorem put_ids {l : List Disk} (h : x.id ∈ l.map Disk.id) : (put l x).map Disk.id = l.map Disk.id := by
  induction l with
  | nil => cases h
  | cons y rest ih =>
    rw [put]
    split_ifs with hid
    · simp [hid]
    · rcases mem_cons.mp h with h | h
      · exact absurd h.symm hid
      · simp [ih h]

theorem put_ids_new {l : List Disk} (h : x.id ∉ l.map Disk.id) :
    (put l x).map Disk.id = l.map Disk.id ++ [x.id] := by
  induction l with
  | nil => rfl
  | cons y rest ih =>
    rw [map_cons, mem_cons, not_or] at h
    rw [put, if_neg (Ne.symm h.1)]
    simp [ih h.2]

theorem put_nodup {l : List Disk} (h : (l.map Disk.id).Nodup) : ((put l x).map Disk.id).Nodup := by
  by_cases hx : x.id ∈ l.map Disk.id
  · rw [put_ids hx]
    exact h
  · rw [put_ids_new hx, nodup_append]
    refine ⟨h, nodup_singleton _, ?_⟩
    intro a ha b hb heq
    rw [mem_singleton] at hb
    exact hx (hb ▸ heq ▸ ha)

theorem mem_put_iff {l : List Disk} (h : (l.map Disk.id).Nodup) :
    d ∈ put l x ↔ d = x ∨ d ∈ l ∧ d.id ≠ x.id := by
  induction l with
  | nil => simp [put]
  | cons y rest ih =>
    obtain ⟨hy, hrest⟩ := nodup_cons.mp h
    rw [put]
    split_ifs with hid
    · have hne : ∀ z ∈ rest, z.id ≠ x.id := by
        intro z hz heq
        exact hy (mem_map.mpr ⟨z, hz, heq.trans hid.symm⟩)
      constructor
      · intro hd
        rcases mem_cons.mp hd with rfl | hd
        · exact .inl rfl
        · exact .inr ⟨mem_cons_of_mem _ hd, hne d hd⟩
      · rintro (rfl | ⟨hd, hne'⟩)
        · exact mem_cons_self
        · rcases mem_cons.mp hd with rfl | hd
          · exact absurd hid hne'
          · exact mem_cons_of_mem _ hd
    · rw [mem_cons, ih hrest, mem_cons]
      constructor
      · rintro (rfl | rfl | ⟨hd, hne⟩)
        · exact .inr ⟨.inl rfl, hid⟩
        · exact .inl rfl
        · exact .inr ⟨.inr hd, hne⟩
      · rintro (rfl | ⟨rfl | hd, hne⟩)
        · exact .inr (.inl rfl)
        · exact .inl rfl
        · exact .inr (.inr ⟨hd, hne⟩)

theorem mem_foldl_put_iff {f : Disk → Disk} (hf : ∀ d, (f d).id = d.id) {l disks : List Disk}
    (hl : (l.map Disk.id).Nodup) (hdisks : (disks.map Disk.id).Nodup) :
    ((disks.foldl (fun next d => put next (f d)) l).map Disk.id).Nodup ∧
      (d ∈ disks.foldl (fun next d => put next (f d)) l ↔
        (∃ y ∈ disks, f y = d) ∨ d ∈ l ∧ d.id ∉ disks.map Disk.id) := by
  induction disks generalizing l with
  | nil => simpa using hl
  | cons y rest ih =>
    obtain ⟨hy, hrest⟩ := nodup_cons.mp hdisks
    obtain ⟨hnodup, hmem⟩ := ih (put_nodup (x := f y) hl) hrest
    refine ⟨hnodup, ?_⟩
    rw [foldl_cons, hmem, mem_put_iff hl, hf]
    simp only [map_cons, mem_cons, not_or]
    constructor
    · rintro (⟨z, hz, rfl⟩ | ⟨rfl | ⟨hd, hne⟩, hnot⟩)
      · exact .inl ⟨z, .inr hz, rfl⟩
      · exact .inl ⟨y, .inl rfl, rfl⟩
      · exact .inr ⟨hd, hne, hnot⟩
    · rintro (⟨z, rfl | hz, rfl⟩ | ⟨hd, hne, hnot⟩)
      · exact .inr ⟨.inl rfl, by rw [hf]; exact hy⟩
      · exact .inl ⟨z, hz, rfl⟩
      · exact .inr ⟨.inr ⟨hd, hne⟩, hnot⟩

theorem Membership.put_follows {members : List Member} (hd : d ∈ m.disks) (hid : x.id = d.id)
    (hids : members.map Member.id = m.members.map Member.id)
    (hmembers : ∀ y ∈ members, checkMember false y = .ok ())
    (hok : x.Listable (m.generation + 1) m.members)
    (hstep : ∀ next : Membership, next.generation = m.generation + 1 →
      next.members = sorted Member.id members → stepDisk next (some d) x = .ok ()) :
    ∃ next, m.next members (put m.disks x) = .ok next ∧ step m next = .ok () := by
  have hnodup := ids_nodup m.diskOrder
  have hin : x.id ∈ m.disks.map Disk.id := mem_map.mpr ⟨d, hd, hid.symm⟩
  have hlisted : ∀ i, find Member.id m.members i ≠ none → find Member.id members i ≠ none := by
    intro i hi
    rw [find_ne_none, hids, ← find_ne_none]
    exact hi
  refine m.new_follows m.codes ⟨hids ▸ ids_nodup m.memberOrder, hmembers, ?_, ?_⟩ ?_ ?_ ?_
  · rw [put_ids hin]
    exact hnodup
  · intro y hy
    rcases (mem_put_iff hnodup).mp hy with rfl | ⟨hy, -⟩
    · exact checkDisk_ok_iff.mpr { hok with
        holder := fun ha => ⟨hlisted _ (hok.holder ha).1, (hok.holder ha).2⟩ }
    · exact checkDisk_ok_iff.mpr ((m.listable hy).later fun i hi _ => hlisted i hi)
  · intro next hgen hm y hy
    rcases (mem_put_iff hnodup).mp hy with rfl | ⟨hy, -⟩
    · rw [hid, Membership.disk_of_mem hd]
      exact hstep next hgen hm
    · rw [Membership.disk_of_mem hy]
      exact stepDisk_same
  · intro y hy
    rw [put_ids hin]
    exact .inl (mem_map_of_mem hy)
  · intro y hy
    rw [hids]
    exact .inl (mem_map_of_mem hy)

/-! ## What the next membership lists -/

section

variable {key : α → Identity} {l : List α} (h : (l.map key).Nodup)

include h

theorem find_eq_some : find key l id = some a ↔ a ∈ l ∧ key a = id := by
  constructor
  · exact find_mem
  · rintro ⟨ha, rfl⟩
    cases hf : find key l (key a) with
    | none => exact absurd rfl (find_none.mp hf a ha)
    | some b =>
      obtain ⟨hb, hid⟩ := find_mem hf
      rw [inj_on_of_nodup_map h hb ha hid]

theorem mem_eraseP_id : a ∈ l.eraseP (fun x => key x = id) ↔ a ∈ l ∧ key a ≠ id := by
  induction l with
  | nil => simp
  | cons b rest ih =>
    obtain ⟨hb, hrest⟩ := nodup_cons.mp h
    by_cases hid : key b = id
    · rw [eraseP_cons_of_pos (by simpa using hid)]
      constructor
      · intro ha
        refine ⟨mem_cons_of_mem _ ha, fun he => hb (mem_map.mpr ⟨a, ha, ?_⟩)⟩
        exact he.trans hid.symm
      · rintro ⟨ha, hne⟩
        rcases mem_cons.mp ha with rfl | ha
        · exact absurd hid hne
        · exact ha
    · rw [eraseP_cons_of_neg (by simpa using hid), mem_cons, ih hrest, mem_cons]
      constructor
      · rintro (rfl | ⟨ha, hne⟩)
        · exact ⟨.inl rfl, hid⟩
        · exact ⟨.inr ha, hne⟩
      · rintro ⟨rfl | ha, hne⟩
        · exact .inl rfl
        · exact .inr ⟨ha, hne⟩

/-- A list that differs from another in what it has of one identity. -/
theorem find_update {l' : List α} {o : Option α} (h' : (l'.map key).Nodup)
    (hmem : ∀ a, a ∈ l' ↔ o = some a ∧ key a = id ∨ a ∈ l ∧ key a ≠ id) (hkey : ∀ a ∈ o, key a = id) :
    find key l' = update (find key l) id o := by
  funext i
  refine Option.ext fun a => ?_
  rw [find_eq_some h', hmem]
  by_cases hi : i = id
  · subst hi
    rw [update_self]
    constructor
    · rintro ⟨⟨ho, -⟩ | ⟨-, hne⟩, hid⟩
      · exact ho
      · exact absurd hid hne
    · exact fun ho => ⟨.inl ⟨ho, hkey a ho⟩, hkey a ho⟩
  · rw [update_of_ne hi, find_eq_some h]
    constructor
    · rintro ⟨⟨-, hid⟩ | ⟨ha, -⟩, hid'⟩
      · exact absurd (hid'.symm.trans hid) hi
      · exact ⟨ha, hid'⟩
    · rintro ⟨ha, hid⟩
      exact ⟨.inr ⟨ha, fun h => hi (hid.symm.trans h)⟩, hid⟩

theorem append_nodup (ha : find key l (key a) = none) : ((l ++ [a]).map key).Nodup := by
  rw [map_append, nodup_append]
  refine ⟨h, nodup_singleton _, ?_⟩
  intro i hi j hj heq
  rw [map_singleton, mem_singleton] at hj
  obtain ⟨b, hb, rfl⟩ := mem_map.mp hi
  exact find_none.mp ha b hb (heq.trans hj)

theorem find_append (ha : find key l (key a) = none) :
    find key (l ++ [a]) = update (find key l) (key a) (some a) := by
  refine find_update h (append_nodup h ha) (fun b => ?_) (by simp)
  rw [mem_append, mem_singleton]
  constructor
  · rintro (hb | rfl)
    · exact .inr ⟨hb, find_none.mp ha b hb⟩
    · exact .inl ⟨rfl, rfl⟩
  · rintro (⟨hb, -⟩ | ⟨hb, -⟩)
    · exact .inr (Option.some.inj hb).symm
    · exact .inl hb

theorem find_eraseP : find key (l.eraseP fun a => key a = id) = update (find key l) id none := by
  refine find_update h (h.sublist (eraseP_sublist.map key)) (fun b => ?_) nofun
  rw [mem_eraseP_id h]
  simp

end

theorem find_put {l : List Disk} (h : (l.map Disk.id).Nodup) :
    find Disk.id (put l x) = update (find Disk.id l) x.id (some x) := by
  refine find_update h (put_nodup h) (fun b => ?_) (by simp)
  rw [mem_put_iff h]
  constructor
  · rintro (rfl | hb)
    · exact .inl ⟨rfl, rfl⟩
    · exact .inr hb
  · rintro (⟨hb, -⟩ | hb)
    · exact .inl (Option.some.inj hb).symm
    · exact .inr hb

section Lists

variable {m' : Membership} {members : List Member} {disks : List Disk}

theorem find_sorted_eq {key : α → Identity} {l : List α}
    (h : (sorted key l).Pairwise fun a b => key a < key b) : find key (sorted key l) = find key l := by
  have hperm : ((sorted key l).map key).Perm (l.map key) := (perm_insertionSort _ l).map key
  funext i
  refine Option.ext fun a => ?_
  rw [find_eq_some (ids_nodup h), find_eq_some (hperm.nodup_iff.mp (ids_nodup h)), mem_sorted]

theorem Membership.next_disk (h : m.next members disks = .ok m') : m'.disk = find Disk.id disks := by
  obtain ⟨-, -, -, -, -, hd⟩ := new_ok h
  have horder := m'.diskOrder
  funext i
  rw [Membership.disk, hd]
  rw [hd] at horder
  rw [find_sorted_eq horder]

theorem Membership.next_member (h : m.next members disks = .ok m') :
    m'.member = find Member.id members := by
  obtain ⟨-, -, -, -, hm, -⟩ := new_ok h
  have horder := m'.memberOrder
  funext i
  rw [Membership.member, hm]
  rw [hm] at horder
  rw [find_sorted_eq horder]

theorem Membership.next_put (h : m.next members (put m.disks x) = .ok m') :
    m'.disk = update m.disk x.id (some x) :=
  (m.next_disk h).trans (find_put (ids_nodup m.diskOrder))

theorem Membership.next_append (h : m.next members (m.disks ++ [x]) = .ok m')
    (hn : m.disk x.id = none) :
    m'.disk = update m.disk x.id (some x) :=
  (m.next_disk h).trans (find_append (ids_nodup m.diskOrder) hn)

theorem Membership.next_eraseP (h : m.next members (m.disks.eraseP (·.id = id)) = .ok m') :
    m'.disk = update m.disk id none :=
  (m.next_disk h).trans (find_eraseP (ids_nodup m.diskOrder))

end Lists

/-! ## What each change builds, where it is not refused -/

namespace Membership

variable {y : Member}

section

variable (hd : d ∈ m.disks)

include hd

theorem weigh_eq {weight : Nat} (hw : d.weight ≠ weight) :
    m.weigh d.id weight = m.next m.members (put m.disks { d with weight := weight }) := by
  simp [weigh, disk_of_mem hd, hw]

theorem release_eq (hs : d.state = .serving) :
    m.release d.id = m.next m.members (put m.disks { d with state := .releasing }) := by
  simp [release, disk_of_mem hd, hs]

theorem letGo_eq (hs : d.state = .releasing) :
    m.letGo d.id d.member =
      m.next m.members (put m.disks { d with member := 0, state := .released, assigned := 0 }) := by
  simp [letGo, disk_of_mem hd, hs]

theorem assign_eq {member : Identity} (hs : d.state = .released) :
    m.assign d.id member = m.next m.members (put m.disks { d with
      member := member
      state := .attaching
      assigned := m.generation + 1
      empty := if d.kind = .journal then false else d.empty }) := by
  simp [assign, disk_of_mem hd, hs]

theorem changeJournal_eq {done : Disk → Bool} {f : Disk → Disk} (hk : d.kind = .journal)
    (hdone : done d = false) : m.changeJournal d.id done f = m.next m.members (put m.disks (f d)) := by
  simp [changeJournal, disk_of_mem hd, hk, hdone]

theorem serve_eq (hs : d.state = .attaching) :
    m.serve d.id d.member =
      m.next
        (changeMember m.members d.member fun x =>
          if x.state = .joining then { x with state := .active } else x)
        (put m.disks { d with state := .serving }) := by
  simp [serve, disk_of_mem hd, hs]

end

theorem move_eq {address : String} (hy : y ∈ m.members) (hne : y.address ≠ address) :
    m.move y.id address =
      m.next (changeMember m.members y.id fun x => { x with address := address }) m.disks := by
  simp [move, member_eq_some.mpr ⟨hy, rfl⟩, hne]

theorem drain_eq (hy : y ∈ m.members) (hs : y.state ≠ .draining) :
    m.drain y.id =
      m.next (changeMember m.members y.id fun x => { x with state := .draining })
        (m.disks.map (drained y.id)) := by
  simp [drain, member_eq_some.mpr ⟨hy, rfl⟩, hs]

theorem leave_eq (hy : y ∈ m.members) :
    m.leave y.id = m.next (m.members.eraseP (·.id = y.id)) m.disks := by
  simp [leave, member_eq_some.mpr ⟨hy, rfl⟩]

theorem recode_eq (hne : code ≠ m.code ∨ earlier ≠ m.earlier) :
    m.recode code earlier = new (m.generation + 1) code m.members m.disks earlier := by
  rw [recode, if_neg (by tauto)]

theorem add_eq (hn : m.disk x.id = none) :
    m.add x =
      m.next m.members (m.disks ++ [{ x with member := 0, state := .released, assigned := 0 }]) := by
  simp [add, hn]

theorem remove_eq (hd : d ∈ m.disks) :
    m.remove d.id = m.next m.members (m.disks.eraseP (·.id = d.id)) := by
  simp [remove, disk_of_mem hd]

theorem join_eq {disks : List Disk} (hn : m.member y.id = none) :
    m.join y disks = m.next (m.members ++ [{ y with state := .joining }])
      (disks.foldl (fun next d => put next (m.taken y.id d)) m.disks) := by
  simp [join, hn]

end Membership

end Sproutfs.Cluster
