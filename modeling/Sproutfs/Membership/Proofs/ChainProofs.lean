import Sproutfs.Membership.Change

/-!
# Chains of memberships

`Moved` is all that one accepted step can do to one disk. Over a chain of generations it gives the history
of a disk: between two assignments it was released, also where it was taken out and listed again.
-/

namespace Sproutfs.Cluster

/-! ## One step -/

/-- What a step that makes the generation `next` may do to a disk, from what it was to what it is. -/
inductive Moved (next : Membership) : Option Disk → Option Disk → Prop where
  | absent : Moved next none none
  | added (d : Disk) (hs : d.state = .released) : Moved next none (some d)
  | assigned (was : Option Disk) (d : Disk) (hs : d.state = .attaching)
      (hwas : ∀ w, was = some w → w.state = .released ∧ w.kind = d.kind)
      (hg : d.assigned = next.generation) (hd : next.memberState d.member ≠ .draining) :
      Moved next was (some d)
  | kept (was d : Disk) (hw : was.state.assigned) (hs : d.state.assigned)
      (hm : d.member = was.member) (hg : d.assigned = was.assigned)
      (hle : was.state.toNat ≤ d.state.toNat) (hk : d.kind = was.kind) : Moved next (some was) (some d)
  | letGo (was d : Disk) (hw : was.state = .releasing) (hs : d.state = .released)
      (hk : d.kind = was.kind) : Moved next (some was) (some d)
  | rests (was d : Disk) (hw : was.state = .released) (hs : d.state = .released)
      (hk : d.kind = was.kind) : Moved next (some was) (some d)
  | deleted (was d : Disk) (hw : was.state = .released) (he : was.empty) (hs : d.state = .deleting)
      (hk : d.kind = was.kind) : Moved next (some was) (some d)
  | deleting (was d : Disk) (hw : was.state = .deleting) (hs : d.state = .deleting)
      (hk : d.kind = was.kind) : Moved next (some was) (some d)
  | removed (was : Disk) (hw : was.state = .released ∧ was.kind = .cache ∨ was.state = .deleting) :
      Moved next (some was) none

variable {was d a b : Disk} {i j : Nat}

theorem Moved.kind {next : Membership} (h : Moved next (some was) (some d)) : d.kind = was.kind := by
  cases h with
  | assigned _ _ _ hwas _ _ => exact (hwas was rfl).2.symm
  | kept => assumption
  | letGo => assumption
  | rests => assumption
  | deleted => assumption
  | deleting => assumption

theorem step_ok {current next : Membership} (h : step current next = .ok ()) :
    next.generation = current.generation + 1 ∧
      (∀ d ∈ next.disks, stepDisk next (current.disk d.id) d = .ok ()) ∧
      (∀ d ∈ current.disks, stepRemoved next d = .ok ()) ∧
      ∀ x ∈ current.members, stepMember next x = .ok () := by
  unfold step at h
  split_ifs at h with hg
  split at h
  · cases h
  rename_i hd
  split at h
  · cases h
  rename_i hr
  exact ⟨not_not.mp hg, checkAll_ok.mp hd, checkAll_ok.mp hr, checkAll_ok.mp h⟩

theorem stepJournal_ok (h : stepJournal (some was) d = .ok ()) :
    d.kind = was.kind ∧
      (d.state = .deleting → was.state = .deleting ∨ was.state = .released ∧ was.empty) ∧
      (was.state = .deleting → d.state = .deleting) := by
  simp only [stepJournal] at h
  split_ifs at h with h1 h2 h3 h4 h5
  refine ⟨not_not.mp h1, fun hd => ?_, fun hw => ?_⟩
  · by_cases hw : was.state = .deleting
    · exact .inl hw
    · simp only [hd, hw, true_and, not_or, not_not, ne_eq, not_false_eq_true, Bool.not_eq_false] at h2
      exact .inr h2
  · by_contra hd
    exact h4 ⟨hw, hd⟩

theorem stepAssigned_ok {next : Membership} {was : Option Disk} (h : stepAssigned next was d = .ok ()) :
    (∀ w, was = some w → w.state = .released) ∧ next.memberState d.member ≠ .draining ∧
      d.assigned = next.generation := by
  unfold stepAssigned at h
  split at h
  · cases h
  rename_i hf
  split_ifs at h with hd hg
  refine ⟨?_, hd, not_not.mp hg⟩
  rintro w rfl
  simpa [Option.filter] using hf

/-- Both disks are ones `New` accepted, so a state that is neither released nor deleting has a
member. -/
theorem assigned_of_ne {m : Membership} {id : Identity} (h : m.disk id = some d)
    (hr : d.state ≠ .released) (hd : d.state ≠ .deleting) : d.state.assigned := by
  have hok := m.diskOk d (Membership.disk_mem h)
  unfold checkDisk at hok
  split_ifs at hok with _ _ h3 h4
  · rcases h4 with h4 | h4 <;> contradiction
  · cases hs : d.state <;> simp_all [DiskState.assigned]

theorem moved_listed {current next : Membership} {id : Identity} (hwas : current.disk id = some was)
    (hd : next.disk id = some d) (h : stepDisk next (some was) d = .ok ()) :
    Moved next (some was) (some d) := by
  unfold stepDisk at h
  split at h
  · cases h
  rename_i hj
  obtain ⟨hkind, hdel, hback⟩ := stepJournal_ok hj
  by_cases ha : assigning (some was) d
  · rw [if_pos ha] at h
    obtain ⟨hrel, hdr, hg⟩ := stepAssigned_ok h
    simp only [assigning, Bool.and_eq_true, decide_eq_true_eq] at ha
    exact .assigned _ d ha.1 (fun w hw => by cases hw; exact ⟨hrel was rfl, hkind.symm⟩) hg hdr
  · rw [if_neg ha] at h
    simp only at h
    split_ifs at h with h1 h2 h3 h4 h5
    · -- released, from releasing or released
      rw [not_and_or, not_not, not_not] at h2
      rcases h2 with hw | hw
      · exact .letGo was d hw h1 hkind
      · exact .rests was d hw h1 hkind
    · rcases hdel h3 with hw | ⟨hw, he⟩
      · exact .deleting was d hw h3 hkind
      · exact .deleted was d hw he h3 hkind
    · -- the member and the number are as they were, so the disk was assigned before
      rw [not_or, not_not, not_not] at h4
      have hs := assigned_of_ne hd h1 h3
      refine .kept was d ?_ hs h4.1 h4.2 (Nat.le_of_not_lt h5) hkind
      by_contra hw
      obtain ⟨⟨x, hx⟩, -⟩ := Membership.assigned_ok hd hs
      have hzero := (Membership.released_ok hwas (by simpa using hw)).1
      exact Membership.member_id_ne_zero hx (h4.1.trans hzero)

/-- All that an accepted step can do to a disk. -/
theorem step_moved {current next : Membership} (h : step current next = .ok ()) (id : Identity) :
    Moved next (current.disk id) (next.disk id) := by
  obtain ⟨-, hdisks, hremoved, -⟩ := step_ok h
  rcases hn : next.disk id with _ | d
  · rcases hw : current.disk id with _ | was
    · exact .absent
    · have hr := hremoved was (Membership.disk_mem hw)
      rw [stepRemoved, Membership.disk_id hw, hn] at hr
      simp only at hr
      split_ifs at hr with h1 h2
      refine .removed was ?_
      cases hk : was.kind <;> (simp_all; try tauto)
  · have hd := hdisks d (Membership.disk_mem hn)
    rw [Membership.disk_id hn] at hd
    rcases hw : current.disk id with _ | was
    · rw [hw] at hd
      simp only [stepDisk, stepJournal] at hd
      split_ifs at hd with ha hs
      · obtain ⟨-, hdr, hg⟩ := stepAssigned_ok hd
        simp only [assigning, Bool.and_eq_true, decide_eq_true_eq] at ha
        exact .assigned none d ha.1 nofun hg hdr
      · exact .added d (not_not.mp hs)
    · rw [hw] at hd
      exact moved_listed hw hn hd

/-- Generations each of which may follow the one before it. -/
def Chain (m : Nat → Membership) (n : Nat) : Prop := ∀ i < n, step (m i) (m (i + 1)) = .ok ()

/-- The disk is `d`, attaching, serving or releasing for its member. -/
def Membership.Assigned (m : Membership) (id : Identity) (d : Disk) : Prop :=
  m.disk id = some d ∧ d.state.assigned

/-- The disk is listed in the state `state`. -/
def Membership.In (m : Membership) (id : Identity) (state : DiskState) : Prop :=
  ∃ d, m.disk id = some d ∧ d.state = state

variable {m : Nat → Membership} {n : Nat} {id : Identity}

theorem Chain.generation (h : Chain m n) (hij : i ≤ j) (hj : j ≤ n) :
    (m j).generation = (m i).generation + (j - i) := by
  induction j, hij using Nat.le_induction with
  | base => simp
  | succ j hij ih =>
    have hs := (step_ok (h j (by omega))).1
    omega

/-- A disk assigned at one generation is, at a later one, still under that assignment, or it was
released in between and any assignment it has now is a newer one. -/
theorem Chain.history (h : Chain m n) (hij : i ≤ j) (hj : j ≤ n) (ha : (m i).Assigned id a) :
    (∀ k, i ≤ k → k ≤ j → ∃ d, (m k).Assigned id d ∧ d.member = a.member ∧
      d.assigned = a.assigned ∧ a.state.toNat ≤ d.state.toNat) ∨
    ((∃ k, i < k ∧ k ≤ j ∧ (m k).In id .released) ∧
      ∀ b, (m j).Assigned id b → a.assigned < b.assigned) := by
  induction j, hij using Nat.le_induction with
  | base =>
    refine .inl fun k hik hki => ?_
    cases le_antisymm hik hki
    exact ⟨a, ha, rfl, rfl, le_rfl⟩
  | succ j hij ih =>
    have hmoved := step_moved (h j (by omega)) id
    rcases ih (by omega) with hstay | ⟨⟨k, hik, hkj, hk⟩, hlt⟩
    · obtain ⟨d, hd, hmem, hnum, hle⟩ := hstay j hij le_rfl
      rw [hd.1] at hmoved
      generalize hnow : (m (j + 1)).disk id = now at hmoved
      have hda := hd.2
      cases hmoved with
      | assigned _ b hs hwas => simp [(hwas d rfl).1, DiskState.assigned] at hda
      | kept _ b hw hs hm hg hl =>
        refine .inl fun k hik hkj => ?_
        by_cases hkj' : k ≤ j
        · exact hstay k hik hkj'
        · cases (by omega : k = j + 1)
          exact ⟨b, ⟨hnow, hs⟩, hm.trans hmem, hg.trans hnum, hle.trans hl⟩
      | letGo _ b hw hs =>
        refine .inr ⟨⟨j + 1, by omega, le_rfl, b, hnow, hs⟩, fun c hc => ?_⟩
        cases hnow.symm.trans hc.1
        simp [Membership.Assigned, hs, DiskState.assigned] at hc
      | rests _ b hw | deleted _ b hw | deleting _ b hw => simp [hw, DiskState.assigned] at hda
      | removed _ hw => rcases hw with ⟨hw, -⟩ | hw <;> simp [hw, DiskState.assigned] at hda
    · refine .inr ⟨⟨k, hik, by omega, hk⟩, fun b hb => ?_⟩
      generalize hwas : (m j).disk id = was at hmoved
      rw [hb.1] at hmoved
      have hba := hb.2
      cases hmoved with
      | assigned _ _ hs hwas hg =>
        have hgen := h.generation (by omega : i ≤ j + 1) hj
        have := (Membership.assigned_ok ha.1 ha.2).2.2
        omega
      | kept w _ hw hs hm hg => exact hg ▸ hlt w ⟨hwas, hw⟩
      | added _ hs | letGo _ _ _ hs | rests _ _ _ hs | deleted _ _ _ _ hs | deleting _ _ _ hs =>
        simp [hs, DiskState.assigned] at hba

section

variable {current next : Membership} (h : step current next = .ok ())

include h

theorem step_unassigns (ha : current.Assigned id a) (hn : ¬ ∃ b, next.Assigned id b) :
    a.state = .releasing ∧ next.In id .released := by
  have hmoved := step_moved h id
  rw [ha.1] at hmoved
  generalize hnow : next.disk id = now at hmoved
  have haa := ha.2
  cases hmoved with
  | assigned _ b hs hwas => simp [(hwas a rfl).1, DiskState.assigned] at haa
  | kept _ b hw hs => exact absurd ⟨b, hnow, hs⟩ hn
  | letGo _ b hw hs => exact ⟨hw, b, hnow, hs⟩
  | rests _ b hw | deleted _ b hw | deleting _ b hw => simp [hw, DiskState.assigned] at haa
  | removed _ hw => rcases hw with ⟨hw, -⟩ | hw <;> simp [hw, DiskState.assigned] at haa

end

instance : Decidable (Chain m n) :=
  inferInstanceAs (Decidable (∀ i < n, step (m i) (m (i + 1)) = .ok ()))

/-- The generations of `l` from the empty one on, and the last one from there on. -/
def generations (l : List (List Member × List Disk)) (i : Nat) : Membership :=
  let at_ := l.getD (min i (l.length - 1)) ([], [])
  ((new (min i (l.length - 1)) ⟨1, 0⟩ at_.1 at_.2 []).toOption).getD .empty

end Sproutfs.Cluster
