import Sproutfs.Membership.Fleet
import Sproutfs.Membership.Proofs.TurnProofs
import Sproutfs.Membership.Proofs.UpdateProofs

/-!
# A network disk is let go once nobody has it

A releasing disk becomes released by one change alone, which `Next` takes only from a listing in which the
cloud had the disk on no machine. Where that listing was read while the disk was releasing already, and no
attach asked for earlier lands after it, nobody holds the disk when it is let go.
-/

namespace Sproutfs.Cluster

open Machine Option Function

variable {m m' : Membership} {d : Disk} {id disk : Identity} {a : UpdateAction}

/-- A network disk that a pass lets go was on no machine in the listing the pass read. -/
theorem Want.reconcile_released {w : Want} {was : Disk} {sh : Shard} (h : w.reconcile m = .ok m')
    (hwas : m.Assigned id was) (hrel : m'.In id .released) (hsh : w.shard id = some sh) :
    sh.known ∧ sh.machines = [] := by
  obtain ⟨d, hd, hs⟩ := hrel
  have hassigned := hwas.2
  have hturned := Want.reconcile_turned h hd
  rw [hwas.1] at hturned
  cases hturned with
  | joined _ hs' =>
    rw [hs] at hs'
    cases hs'
  | kept _ _ hrel =>
    rcases hrel hs with hw | ⟨-, hgone⟩
    · simp [hw, DiskState.assigned] at hassigned
    · simp only [Want.gone, Membership.disk_id hwas.1, hsh, Bool.and_eq_true,
        List.isEmpty_iff] at hgone
      exact ⟨hgone.1.2, hgone.2⟩
  | marked _ _ hs' =>
    rw [← hs', hs] at hassigned
    cases hassigned
  | reserved _ hw => simp [hw, DiskState.assigned] at hassigned
  | freed _ _ hw => simp [hw, DiskState.assigned] at hassigned

/-! ## The fleet -/

instance (m : Membership) (id : Identity) (state : DiskState) : Decidable (m.In id state) :=
  decidable_of_iff ((m.disk id).any (·.state = state))
    (by simp [Membership.In, Option.any_eq_true])

/-- The number of the assignment the disk is being released from. -/
def Membership.releasing (m : Membership) (id : Identity) : Option Nat :=
  ((m.disk id).filter (·.state = .releasing)).map Disk.assigned

theorem Membership.releasing_eq_some {n : Nat} :
    m.releasing id = some n ↔ ∃ d, m.disk id = some d ∧ d.state = .releasing ∧ d.assigned = n := by
  simp [Membership.releasing, filter_eq_some_iff, and_assoc]

namespace Fleet

variable {c : Config} {size : Membership → Nat} {s s' : Fleet}

/-- No machine has the disk. -/
def Detached (s : Fleet) (disk : Identity) : Prop := ∀ machine, s.cloud disk ≠ some (some machine)

/-- What the passes act on is not out of date: no attach lands while its disk is releasing, and a
network disk is let go by a pass that read where the cloud had it while the disk was releasing from
the same assignment. -/
def Current (c : Config) (s : Fleet) : FleetAction → Prop
  | .carries _ a => a.attach → ¬ s.newest.In a.disk .releasing
  | .updates (.lands index _) => ∀ p ∈ s.updates.made[index]?, ∀ disk ∈ c.disks,
      ∀ n ∈ p.2.read.releasing disk, p.2.next.In disk .released →
        ∃ m ∈ s.listed p.1 disk, m.releasing disk = some n
  | _ => True

instance (a : FleetAction) : Decidable (Current c s a) := by
  unfold Current
  split <;> infer_instance

/-- The disk is releasing, and on no machine, for as long as it is not let go from the assignment
`n`. -/
def Empties (s : Fleet) (disk : Identity) (n : Nat) : Prop :=
  n ≤ s.newest.generation ∧
    ∀ d, s.newest.Assigned disk d → d.assigned = n → d.state = .releasing ∧ s.Detached disk

structure Inv (c : Config) (s : Fleet) : Prop where
  updates : Updates.Inv (fun k => (c.want k).reconcile) s.updates
  /-- A handle is on the machine that has the disk. -/
  handles : ∀ machine disk held, s.devices machine disk = some held →
    s.cloud disk = some (some machine)
  /-- What a pass read of a disk on no machine stays so while the disk is releasing. -/
  listed : ∀ k disk m, s.listed k disk = some m → ∃ sh, (c.want k).shard disk = some sh ∧
    (sh.known → sh.machines = [] → ∀ n, m.releasing disk = some n → s.Empties disk n)

theorem inv_init : Inv c {} where
  updates := Updates.inv_init
  handles := by simp
  listed := by simp

/-- The membership stays as it is, and a disk comes to a machine only while it is not releasing. -/
theorem Empties.frame {n : Nat} (h : s.Empties disk n) (hnew : s'.newest = s.newest)
    (hcloud : ∀ machine, s'.cloud disk = some (some machine) → s.cloud disk = some (some machine) ∨ ¬ s.newest.In disk .releasing) :
    s'.Empties disk n := by
  unfold Empties at h ⊢
  rw [hnew]
  refine ⟨h.1, fun d hd hn => ?_⟩
  obtain ⟨hs, hdet⟩ := h.2 d hd hn
  refine ⟨hs, fun machine hm => ?_⟩
  rcases hcloud machine hm with hm | hm
  · exact hdet machine hm
  · exact hm ⟨d, hd.1, hs⟩

/-- A new generation keeps a releasing disk releasing, or lets it go. -/
theorem Empties.follows {n : Nat} (h : s.Empties disk n)
    (hstep : Cluster.step s.newest s'.newest = .ok ()) (hcloud : s'.cloud = s.cloud) :
    s'.Empties disk n := by
  obtain ⟨hgen, -⟩ := step_ok hstep
  refine ⟨h.1.trans (by omega), fun d hd hn => ?_⟩
  have hmoved := step_moved hstep disk
  have hassigned := hd.2
  rw [hd.1] at hmoved
  generalize hwas : s.newest.disk disk = was at hmoved
  cases hmoved with
  | assigned _ _ hs _ hg =>
    have := h.1
    omega
  | kept w _ hw hs hm hg hle =>
    obtain ⟨hrel, hdet⟩ := h.2 w ⟨hwas, hw⟩ (hg.symm.trans hn)
    refine ⟨?_, fun machine => by rw [hcloud]; exact hdet machine⟩
    rw [hrel] at hle
    cases hds : d.state <;> simp_all [DiskState.toNat, DiskState.assigned]
  | added _ hs | letGo _ _ _ hs | rests _ _ _ hs | deleted _ _ _ _ hs | deleting _ _ _ hs =>
    simp [hs, DiskState.assigned] at hassigned

theorem Inv.frame (h : Inv c s)
    (hcloud : ∀ disk machine, s'.cloud disk = some (some machine) →
      s.cloud disk = some (some machine) ∨ ¬ s.newest.In disk .releasing)
    (hhandles : ∀ machine disk held, s'.devices machine disk = some held →
      s'.cloud disk = some (some machine))
    (hu : s'.updates = s.updates := by rfl) (hl : s'.listed = s.listed := by rfl) : Inv c s' where
  updates := hu ▸ h.updates
  handles := hhandles
  listed k disk m hm := by
    obtain ⟨sh, hsh, hempty⟩ := h.listed k disk m (hl ▸ hm)
    refine ⟨sh, hsh, fun hk hms n hn => (hempty hk hms n hn).frame ?_ (hcloud disk)⟩
    unfold newest
    rw [hu]

theorem devices_setDevice (s : Fleet) (machine machine' : String) (disk disk' : Identity)
    (held : Option (Identity × Nat)) :
    (s.setDevice machine disk held).devices machine' disk' =
      if machine' = machine ∧ disk' = disk then held else s.devices machine' disk' :=
  update_two ..

/-- What is on a machine stays there when another disk's place changes. -/
theorem cloud_update {machine : String} {place : Option (Option String)} {disk' : Identity}
    (h : s.cloud disk = some (some machine)) (hne : s.cloud disk' ≠ some (some machine)) :
    update s.cloud disk' place disk = some (some machine) := by
  rw [update_of_ne]
  · exact h
  · rintro rfl
    exact hne h

theorem carry_eq (s : Fleet) (a : Action) :
    s.carry a = { s with cloud := (s.carry a).cloud, devices := (s.carry a).devices } := by
  unfold Fleet.carry
  split_ifs <;> rfl

theorem carry_cloud (a : Action) (disk : Identity) :
    (s.carry a).cloud disk = none ↔ s.cloud disk = none := by
  unfold Fleet.carry
  by_cases hd : disk = a.disk
  · subst hd
    split_ifs with _ hfree hon
    · simp [hfree]
    · rfl
    · simp [hon]
    · rfl
  · split_ifs <;> simp [hd]

/-- A detach ends the handles with it, and no other handle's disk moves. -/
theorem carry_devices {a : Action} {machine : String} {held : Identity × Nat}
    (hh : (s.carry a).devices machine disk = some held) :
    s.devices machine disk = some held ∧
      (s.cloud disk = some (some machine) → (s.carry a).cloud disk = some (some machine)) := by
  unfold Fleet.carry at hh ⊢
  split_ifs at hh ⊢ with hatt hfree hon
  · exact ⟨hh, fun hm => cloud_update hm (by simp [hfree])⟩
  · exact ⟨hh, id⟩
  · have hh' : (s.setDevice a.machine a.disk none).devices machine disk = some held := hh
    rw [devices_setDevice] at hh'
    split_ifs at hh' with heq
    refine ⟨hh', fun hm => ?_⟩
    have hd : disk ≠ a.disk := by
      rintro rfl
      rw [hon] at hm
      cases hm
      exact heq ⟨rfl, rfl⟩
    simpa [hd] using hm
  · exact ⟨hh, id⟩

/-- A call of the cloud: an attach comes to a disk that is on no machine, and a detach ends the
handles with it. -/
theorem Inv.carry (h : Inv c s) (a : Action) (ha : a.attach → ¬ s.newest.In a.disk .releasing) :
    Inv c (s.carry a) := by
  rw [carry_eq s a]
  refine h.frame (fun disk machine hm => ?_) fun machine disk held hh => ?_
  · have hm' : (s.carry a).cloud disk = some (some machine) := hm
    unfold Fleet.carry at hm'
    split_ifs at hm' with hatt
    · by_cases hd : disk = a.disk
      · exact .inr (hd ▸ ha hatt)
      · exact .inl (by simpa [hd] using hm')
    · exact .inl hm'
    · exact .inl ((update_some hm').resolve_left (by simp)).2
    · exact .inl hm'
  · obtain ⟨hh, hc⟩ := carry_devices hh
    exact hc (h.handles machine disk held hh)

/-- A step of the updates is one of the membership's object alone. -/
theorem step_updates (hs : step c size s (.updates a) = some s') :
    ∃ u, s.updates.step (fun k => (c.want k).reconcile) size a = some u ∧
      s' = { s with updates := u } := by
  cases a with
  | read pass nonce =>
    simp only [step] at hs
    split_ifs at hs
    obtain ⟨u, hu, rfl⟩ := map_eq_some_iff.mp hs
    exact ⟨u, hu, rfl⟩
  | _ =>
    obtain ⟨u, hu, rfl⟩ := map_eq_some_iff.mp hs
    exact ⟨u, hu, rfl⟩

/-- The newest membership stays as it is, or the next generation lands over it. -/
theorem updates_newest (h : Updates.Inv (fun k => (c.want k).reconcile) s.updates) {u : Updates}
    (hu : s.updates.step (fun k => (c.want k).reconcile) size a = some u) :
    Fleet.newest { s with updates := u } = s.newest ∨
      ∃ index tag call w, a = .lands index tag ∧ s.updates.made[index]? = some (call, w) ∧
        w.read = s.newest ∧ Fleet.newest { s with updates := u } = w.next ∧
        Cluster.step w.read w.next = .ok () ∧
        ∃ next nonce, (c.want call).reconcile w.read = .ok next ∧
          w.next = { next with nonce := some nonce } := by
  rcases h.step_read hu with hread | ⟨index, tag, call, w, rfl, hp, hread, hnext⟩
  · exact .inl (congrArg Prod.fst hread)
  · have hmade := h.made _ (List.mem_of_getElem? hp)
    exact .inr ⟨index, tag, call, w, rfl, hp, hread, hnext, hmade.follows, hmade.changed⟩

theorem Inv.updates_step (h : Inv c s) (hs : step c size s (.updates a) = some s') : Inv c s' := by
  obtain ⟨u, hu, rfl⟩ := step_updates hs
  refine ⟨h.updates.step hu, h.handles, fun k disk m hm => ?_⟩
  obtain ⟨sh, hsh, hempty⟩ := h.listed k disk m hm
  refine ⟨sh, hsh, fun hk hms n hn => ?_⟩
  have hwas := hempty hk hms n hn
  rcases updates_newest h.updates hu with hnew | ⟨_, _, _, w, -, -, hread, hnext, hfollows, -⟩
  · exact hwas.frame hnew fun _ hm => .inl hm
  · exact hwas.follows (by rw [hnext, ← hread]; exact hfollows) rfl

theorem Inv.lists (h : Inv c s) {k : Nat} {sh : Shard} (hsh : (c.want k).shard disk = some sh)
    (htrue : s.Truthful sh) :
    Inv c { s with
      listed := update s.listed k
        (update (s.listed k) disk (some s.newest)) } := by
  refine ⟨h.updates, h.handles, fun k' disk' m hm => ?_⟩
  have hold : ∀ {m}, s.listed k' disk' = some m → ∃ sh, (c.want k').shard disk' = some sh ∧
      (sh.known → sh.machines = [] → ∀ n, m.releasing disk' = some n → s.Empties disk' n) :=
    fun hm => h.listed k' disk' _ hm
  by_cases hk : k' = k
  · subst hk
    simp only [update_self] at hm
    rcases update_some hm with ⟨rfl, rfl⟩ | ⟨-, hm⟩
    · refine ⟨sh, hsh, fun hknown hms n hn => ?_⟩
      obtain ⟨d, hd, hs, rfl⟩ := Membership.releasing_eq_some.mp hn
      have hok := Membership.assigned_ok hd (by rw [hs]; rfl)
      refine ⟨hok.2.2, fun x hx hxn => ?_⟩
      cases hd.symm.trans hx.1
      refine ⟨hs, fun machine hm => ?_⟩
      -- the shard's identity is the disk's
      have hid : sh.disk.id = disk' := by simpa using List.find?_some hsh
      obtain ⟨at_, hat, hmachines⟩ := htrue hknown
      rw [hid] at hat
      have hm' : some at_ = some (some machine) := hat.symm.trans hm
      cases hm'
      rw [hms] at hmachines
      cases hmachines
    · exact hold hm
  · simp only [update_of_ne hk] at hm
    exact hold hm

theorem Inv.step (h : Inv c s) {a : FleetAction} (hcur : Current c s a)
    (hs : step c size s a = some s') : Inv c s' := by
  obtain ⟨a, rfl⟩ | hnot := em (∃ u, a = .updates u)
  · exact h.updates_step hs
  revert hs
  fun_cases Fleet.step c size s a <;> first | rintro ⟨⟩ | exact absurd ⟨_, rfl⟩ hnot
  next => exact { h with }
  next hsh hok => exact h.lists hsh hok.2.2
  next => exact { h with }
  next a _ _ _ => exact h.carry a hcur
  next hok =>
    exact h.frame (fun disk' machine hm => .inl ((update_some hm).resolve_left (by simp)).2)
      fun machine disk' held hh => cloud_update (h.handles machine disk' held hh) (by simp [hok.2])
  next hok =>
    exact h.frame (fun disk' machine hm => .inl (update_none hm).2) fun machine disk' held hh =>
      cloud_update (h.handles machine disk' held hh) (by simp [hok.2.2])
  next => exact { h with }
  next => exact { h with }
  next host disk assigned hopening hok =>
    refine h.frame (fun _ _ hm => .inl hm) fun machine disk' held hh => ?_
    have hh' : (s.setDevice (c.machine host) disk (some (host, assigned))).devices machine disk' =
      some held := hh
    rw [devices_setDevice] at hh'
    split_ifs at hh' with heq
    · rw [heq.1, heq.2]
      exact hok.1
    · exact h.handles machine disk' held hh'
  next =>
    refine h.frame (fun _ _ hm => .inl hm) fun machine disk' held hh => ?_
    rw [devices_setDevice] at hh
    split_ifs at hh
    exact h.handles machine disk' held hh
  next =>
    exact h.frame (fun _ _ hm => .inl hm) fun machine disk held hh =>
      h.handles machine disk held (filter_eq_some_iff.mp hh).1

theorem Inv.of_runs (h : Runs (Fleet.step c size) (Current c) {} s) : Inv c s :=
  Runs.invariant (fun _ _ _ hi hok hs => hi.step hok hs) inv_init h

theorem Inv.detached (h : Inv c s) (hd : s.Detached disk) (machine : String) :
    s.devices machine disk = none := by
  rcases hh : s.devices machine disk with _ | held
  · rfl
  · exact absurd (h.handles machine disk held hh) (hd machine)

theorem step_newest {a : FleetAction} (hs : step c size s a = some s') :
    (∃ u, a = .updates u) ∨ s'.newest = s.newest := by
  obtain hu | hnot := em (∃ u, a = .updates u)
  · exact .inl hu
  refine .inr ?_
  revert hs
  fun_cases Fleet.step c size s a <;> first | rintro ⟨⟩ | exact absurd ⟨_, rfl⟩ hnot
  case inr.case13 a _ _ _ =>
    rw [carry_eq s a]
    rfl
  all_goals rfl

/-- The pass whose write releases a network disk let it go from a listing that had it on no
machine. -/
theorem Inv.letGo_detached (h : Inv c s) {index tag call : Nat} {w : Writing} {was : Disk}
    (hcur : Current c s (.updates (.lands index tag))) (hdisk : disk ∈ c.disks)
    (hp : s.updates.made[index]? = some (call, w)) (hread : w.read = s.newest)
    (hfollows : Cluster.step w.read w.next = .ok ())
    (hchanged : ∃ next nonce, (c.want call).reconcile w.read = .ok next ∧ w.next = { next with nonce := some nonce })
    (hwas : s.newest.Assigned disk was) (hrel : w.next.In disk .released) : s.Detached disk := by
  rw [← hread] at hwas
  have hnot : ¬ ∃ b, w.next.Assigned disk b := by
    rintro ⟨b, hb, hba⟩
    obtain ⟨d, hd, hds⟩ := hrel
    cases hd.symm.trans hb
    simp [hds, DiskState.assigned] at hba
  have hreleasing := (step_unassigns hfollows hwas hnot).1
  obtain ⟨m, hm, hmr⟩ := hcur _ hp disk hdisk was.assigned
    (Membership.releasing_eq_some.mpr ⟨was, hwas.1, hreleasing, rfl⟩) hrel
  obtain ⟨sh, hsh, hempty⟩ := h.listed call disk m hm
  obtain ⟨next, nonce, hnext, hnonce⟩ := hchanged
  have hin : next.In disk .released := by
    rw [hnonce] at hrel
    exact hrel
  obtain ⟨hknown, hmachines⟩ := Want.reconcile_released hnext hwas hin hsh
  exact ((hempty hknown hmachines _ hmr).2 was (hread ▸ hwas) rfl).2

/-- Whatever passes, hosts and the cloud do, as long as no attach lands while its disk is releasing
and each network disk is let go from a listing read while it was releasing from that assignment: the
generation that makes an assigned network disk released is stored while no machine has the disk and no
host holds it; and at no time do two hosts hold one disk. -/
theorem released_disk_is_held_by_nobody (h : Machine.Runs (step c size) (Current c) {} s) :
    (∀ a s', Current c s a → step c size s a = some s' → ∀ disk ∈ c.disks, ∀ was,
      s.newest.Assigned disk was → s'.newest.In disk .released →
        s'.Detached disk ∧ ∀ machine, s'.devices machine disk = none) ∧
    ∀ disk machine machine' held held', s.devices machine disk = some held →
      s.devices machine' disk = some held' → held = held' := by
  have hi := Inv.of_runs h
  constructor
  · intro a s' hcur hs disk hdisk was hwas hrel
    have hi' := hi.step hcur hs
    suffices hd : s'.Detached disk from ⟨hd, hi'.detached hd⟩
    -- a released disk is not an assigned one, so the membership changed
    have hne : s'.newest ≠ s.newest := by
      intro heq
      rw [heq] at hrel
      obtain ⟨d, hd, hds⟩ := hrel
      have hassigned := hwas.2
      cases hd.symm.trans hwas.1
      simp [hds, DiskState.assigned] at hassigned
    rcases step_newest hs with ⟨u, rfl⟩ | heq
    · obtain ⟨u', hu, rfl⟩ := step_updates hs
      rcases updates_newest hi.updates hu with heq | ⟨index, tag, call, w, rfl, hp, hread, hnext, hf, hc⟩
      · exact absurd heq hne
      · rw [hnext] at hrel
        exact hi.letGo_detached hcur hdisk hp hread hf hc hwas hrel
    · exact absurd heq hne
  · intro disk machine machine' held held' hh hh'
    have heq := (hi.handles machine disk held hh).symm.trans (hi.handles machine' disk held' hh')
    cases heq
    exact Option.some.inj (hh.symm.trans hh')

/-! ## A run from an old listing, and one from a current one -/

/-- The one network disk, as a listing has it. -/
def sampleShard (machines : List String) : Shard :=
  { disk := { id := 5, weight := 1 }, machines := machines, known := true }

/-- One host and one disk. The first four passes read that the host holds nothing and the disk is on
no machine, the fifth reads neither, the sixth that the disk is on the host's machine, and the others
that it is on none. -/
def sampleConfig : Config where
  machine _ := "ma"
  disks := [5]
  want k :=
    if k < 4 then
      { hosts := [{ id := 1, address := "a", machine := "ma" }], shards := [sampleShard []] }
    else if k = 4 then {}
    else { shards := [sampleShard (if k = 5 then ["ma"] else [])], journalsAfter := 4 }

/-- The passes 0 to 3 read; the passes 1, 2 and 3 add the disk, join the host and assign it the disk,
which is attached and opened; pass 4 drains the host, so that the disk is releasing. -/
def sampleDrains : List FleetAction :=
  [.creates 5, .begins 0, .begins 1, .begins 2, .begins 3, .begins 4, .lists 0 5, .lists 1 5,
    .lists 2 5, .lists 3 5, .reports 0 1, .reports 1 1, .reports 2 1, .reports 3 1,
    .updates (.read 1 0), .updates (.lands 0 100), .updates (.read 2 1), .updates (.lands 1 101),
    .updates (.read 3 2), .updates (.lands 2 102), .updates (.succeeds 3),
    .carries 3 ⟨5, "ma", true⟩, .refreshes 1, .rereads 1 5, .opens 1,
    .updates (.read 4 3), .updates (.lands 3 103)]

/-- Pass 0 decides now, from what it read at the start. -/
def samplePaused : Option Fleet :=
  Machine.exec (step sampleConfig fun _ => 0) (fun _ _ => true) {}
    (sampleDrains ++ [.updates (.read 0 4)])

theorem samplePaused_isSome : samplePaused.isSome := by decide

def paused : Fleet := samplePaused.get samplePaused_isSome

def sampleLet : Option Fleet :=
  step sampleConfig (fun _ => 0) paused (.updates (.lands 4 104))

theorem sampleLet_isSome : sampleLet.isSome := by decide

/-- A pass that read where the disk was before the disk was assigned lets it go while the host it was
assigned to since holds it open, on the machine that has it. -/
theorem disk_released_while_held :
    ∃ s s' was, Machine.Runs (step sampleConfig fun _ => 0) (fun _ _ => True) {} s ∧
      step sampleConfig (fun _ => 0) s (.updates (.lands 4 104)) = some s' ∧
      s.newest.Assigned 5 was ∧ s'.newest.In 5 .released ∧
      s'.cloud 5 = some (some "ma") ∧ s'.devices "ma" 5 = some (was.member, was.assigned) :=
  ⟨paused, sampleLet.get sampleLet_isSome,
    { id := 5, weight := 1, member := 1, state := .releasing, assigned := 3 },
    exec_runs (fun _ _ _ => trivial) (some_get samplePaused_isSome).symm,
    (some_get sampleLet_isSome).symm, ⟨by decide, rfl⟩, by decide, by decide, by decide⟩

/-- The host closes the disk, pass 5 has it detached, and pass 6 reads that it is on no machine. -/
def sampleClosed : Option Fleet :=
  Machine.exec (step sampleConfig fun _ => 0) (fun s a => decide (Current sampleConfig s a)) {}
    (sampleDrains ++ [.closes 1 5, .begins 5, .lists 5 5, .updates (.read 5 5),
      .carries 5 ⟨5, "ma", false⟩, .begins 6, .lists 6 5, .updates (.read 6 6)])

theorem sampleClosed_isSome : sampleClosed.isSome := by decide

def closed : Fleet := sampleClosed.get sampleClosed_isSome

def sampleFreed : Option Fleet := step sampleConfig (fun _ => 0) closed (.updates (.lands 4 104))

theorem sampleFreed_isSome : sampleFreed.isSome := by decide

theorem released_disk_is_held_by_nobody_sample :
    closed.newest.In 5 .releasing ∧ (sampleFreed.get sampleFreed_isSome).newest.In 5 .released ∧
      (sampleFreed.get sampleFreed_isSome).Detached 5 := by
  have hruns : Runs (step sampleConfig fun _ => 0) (Current sampleConfig) {} closed :=
    exec_runs (fun _ _ h => of_decide_eq_true h) (some_get sampleClosed_isSome).symm
  have hstep := (some_get sampleFreed_isSome).symm
  exact ⟨by decide, by decide,
    ((released_disk_is_held_by_nobody hruns).1 _ _ (by decide) hstep 5 (by decide)
      { id := 5, weight := 1, member := 1, state := .releasing, assigned := 3 }
      ⟨by decide, rfl⟩ (by decide)).1⟩

end Fleet

end Sproutfs.Cluster
