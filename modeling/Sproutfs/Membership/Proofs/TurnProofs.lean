import Sproutfs.Membership.Proofs.ValidProofs

/-!
# What a change does to one disk

A disk of the membership a change makes, by what it was before: it is new, its mark and its reservation are
as they were, or the change is one of those that mark, reserve or take a reservation back. Where it is
released and was not, `Next` found it gone.
-/

namespace Sproutfs.Cluster

open List

namespace Want

/-- What the disk `d'` of the next membership was in the one before. -/
inductive Turned (w : Want) (d' : Disk) : Option Disk → Prop where
  | added {s : Shard} (hs : s ∈ w.journals) (hid : s.disk.id = d'.id) (hm : d'.machine = "")
    (he : d'.empty) (hs' : d'.state = .released) : Turned w d' none
  | addedShard {s : Shard} (hs : s ∈ w.shards) (hk : d'.kind = s.disk.kind) : Turned w d' none
  | joined {was : Option Disk} (hk : d'.kind = .cache) (hs : d'.state = .attaching) : Turned w d' was
  | kept {d : Disk} (hm : d'.machine = d.machine) (he : d'.empty → d.empty)
    (hs : d'.state = .released → d.state = .released ∨ d.state = .releasing ∧ w.gone d) :
    Turned w d' (some d)
  | marked {d held : Disk} {h : Host} (hm : d'.machine = d.machine) (hs : d.state.assigned)
    (hs' : d'.state = d.state) (ha : d'.assigned = d.assigned) (hh : w.host d.member = some h)
    (hheld : held ∈ h.disks) (hid : held.id = d'.id) (hassigned : held.assigned = d.assigned)
    (he : held.empty) : Turned w d' (some d)
  | reserved {d : Disk} (he : d.empty) (hs : d.state = .released) : Turned w d' (some d)
  | freed {d : Disk} (hm : d'.machine = "") (he : d'.empty → d.empty) (hs : d.state = .released) :
    Turned w d' (some d)

end Want

variable {w : Want} {m m' : Membership} {change : Change} {d d' x : Disk} {id : Identity}
  {members : List Member}

theorem mem_put {l : List Disk} (h : d ∈ put l x) : d = x ∨ d ∈ l := by
  induction l with
  | nil => simpa [put] using h
  | cons y rest ih =>
    rw [put] at h
    split_ifs at h with hid
    · rcases mem_cons.mp h with h | h
      · exact .inl h
      · exact .inr (mem_cons_of_mem _ h)
    · rcases mem_cons.mp h with h | h
      · exact .inr (h ▸ mem_cons_self)
      · exact (ih h).imp_right (mem_cons_of_mem _)

theorem mem_foldl_put {f : Disk → Disk} {disks l : List Disk}
    (h : d ∈ disks.foldl (fun next x => put next (f x)) l) : d ∈ l ∨ ∃ x ∈ disks, d = f x := by
  induction disks generalizing l with
  | nil => exact .inl h
  | cons y rest ih =>
    rcases ih h with h | ⟨z, hz, h⟩
    · exact (mem_put h).symm.imp_right fun h => ⟨y, mem_cons_self, h⟩
    · exact .inr ⟨z, mem_cons_of_mem _ hz, h⟩

namespace Want

theorem Turned.same (d : Disk) : w.Turned d (some d) :=
  .kept rfl (fun he => he) .inl

theorem Turned.of_same (hd : m'.disk = m.disk) (h : m'.disk id = some d') :
    w.Turned d' (m.disk id) := by
  rw [← hd, h]
  exact .same d'

theorem Turned.of_update {o : Option Disk} {i : Identity} (hd : m'.disk = Function.update m.disk i o)
    (h : m'.disk id = some d') (ho : o = some d' → w.Turned d' (m.disk i)) :
    w.Turned d' (m.disk id) := by
  rw [hd] at h
  by_cases hi : id = i
  · subst hi
    rw [Function.update_self] at h
    exact ho h
  · rw [Function.update_of_ne hi] at h
    rw [h]
    exact .same d'

theorem Turned.of_put (hd : d ∈ m.disks) (hnext : m.next members (put m.disks x) = .ok m')
    (h : m'.disk id = some d') (hid : x.id = d.id) (hx : w.Turned x (some d)) :
    w.Turned d' (m.disk id) := by
  refine .of_update (m.next_put hnext) h fun ho => ?_
  cases ho
  rw [hid, Membership.disk_of_mem hd]
  exact hx

theorem Turned.of_moved (hd : d ∈ m.disks) (hnext : m.next members (put m.disks x) = .ok m')
    (h : m'.disk id = some d') (hs : x.state ≠ .released) (hid : x.id = d.id) (hm : x.machine = d.machine)
    (he : x.empty → d.empty) : w.Turned d' (m.disk id) :=
  .of_put hd hnext h hid (.kept hm he fun h => absurd h hs)

theorem Turned.of_add (happly : m.add x = .ok m') (hn : m.disk x.id = none) (h : m'.disk id = some d')
    (hx : w.Turned { x with member := 0, state := .released, assigned := 0 } none) :
    w.Turned d' (m.disk id) := by
  have hnext := m.next_append ((m.add_eq hn).symm.trans happly) hn
  refine .of_update hnext h fun ho => ?_
  cases ho
  rw [show m.disk _ = none from hn]
  exact hx

theorem Decides.turned (hdec : w.Decides m change) (happly : change.apply m = .ok m')
    (hd' : m'.disk id = some d') : w.Turned d' (m.disk id) := by
  cases hdec with
  | recode hc =>
    obtain ⟨-, -, -, -, -, hd⟩ := new_ok ((m.recode_eq hc).symm.trans happly)
    refine .of_same ?_ hd'
    funext i
    rw [Membership.disk, hd, sorted_eq m.diskOrder, Membership.disk]
  | drain hx hs _ =>
    rw [m.next_disk ((m.drain_eq hx hs).symm.trans happly)] at hd'
    obtain ⟨hmem, rfl⟩ := find_mem hd'
    obtain ⟨d, hd, rfl⟩ := mem_map.mp hmem
    unfold Membership.drained
    split_ifs
    · dsimp only
      rw [Membership.disk_of_mem hd]
      exact .kept rfl (fun he => he) (by rintro ⟨⟩)
    · rw [Membership.disk_of_mem hd]
      exact .same d
  | letGo hd hs hgone =>
    exact .of_put hd ((m.letGo_eq hd hs).symm.trans happly) hd' rfl
      (.kept rfl (fun he => he) fun _ => .inr ⟨hs, hgone⟩)
  | remove hd _ _ _ _ => exact .of_update (m.next_eraseP ((m.remove_eq hd).symm.trans happly)) hd' (by rintro ⟨⟩)
  | add hs hn => exact .of_add happly hn hd' (.addedShard hs rfl)
  | leave hx _ _ => exact .of_same (m.next_disk ((m.leave_eq hx).symm.trans happly)) hd'
  | join _ hn _ =>
    rw [m.next_disk ((m.join_eq hn).symm.trans happly)] at hd'
    obtain ⟨hmem, rfl⟩ := find_mem hd'
    rcases mem_foldl_put hmem with hd | ⟨z, hz, rfl⟩
    · rw [Membership.disk_of_mem hd]
      exact .same d'
    · exact .joined (mem_joinDisks.mp hz).2.2.1 rfl
  | move hx _ ha _ => exact .of_same (m.next_disk ((m.move_eq hx (Ne.symm ha)).symm.trans happly)) hd'
  | serve hd hs _ =>
    exact .of_moved hd ((m.serve_eq hd hs).symm.trans happly) hd' (by rintro ⟨⟩) rfl rfl fun he => he
  | weigh _ _ hf _ _ _ hne =>
    rw [← Membership.disk_id hf] at happly
    exact .of_put (Membership.disk_mem hf) ((m.weigh_eq (Membership.disk_mem hf) hne).symm.trans happly)
      hd' rfl (.kept rfl (fun he => he) .inl)
  | weighShard _ hf hne =>
    rw [← Membership.disk_id hf] at happly
    exact .of_put (Membership.disk_mem hf) ((m.weigh_eq (Membership.disk_mem hf) hne).symm.trans happly)
      hd' rfl (.kept rfl (fun he => he) .inl)
  | journalAdd hs hn _ => exact .of_add happly hn hd' (.added hs rfl rfl rfl rfl)
  | journalRemove hd _ _ _ _ =>
    exact .of_update (m.next_eraseP ((m.remove_eq hd).symm.trans happly)) hd' (by rintro ⟨⟩)
  | delete hd hk hs _ _ _ =>
    exact .of_moved hd ((m.changeJournal_eq hd hk (by simp [hs])).symm.trans happly) hd' (by rintro ⟨⟩) rfl rfl
      fun he => he
  | @mark d h held hd hk hh hf hs he _ =>
    have hnext := (m.changeJournal_eq hd hk (by simpa using Ne.symm he)).symm.trans happly
    by_cases hheld : held.empty
    · refine .of_put hd hnext hd' rfl ?_
      have hid := find?_some hf
      simp only [decide_eq_true_eq] at hid
      have hassigned : d.state.assigned := by
        rcases hs with hs | hs <;> rw [hs] <;> rfl
      exact .marked rfl hassigned rfl rfl hh (mem_of_find?_eq_some hf) hid.1 hid.2 hheld
    · exact .of_put hd hnext hd' rfl (.kept rfl (fun h => absurd h hheld) .inl)
  | releaseRead hd _ hs _ _ _ =>
    exact .of_moved hd ((m.release_eq hd hs).symm.trans happly) hd' (by rintro ⟨⟩) rfl rfl fun he => he
  | unreserve hd hk hs hm _ =>
    exact .of_put hd ((m.changeJournal_eq hd hk (by simpa using hm)).symm.trans happly) hd' rfl
      (.freed rfl (fun he => he) hs)
  | @reserve d machine hd hk hs _ he _ hn =>
    exact .of_put hd ((m.changeJournal_eq hd hk (by simpa using hn d hd hk)).symm.trans happly) hd' rfl
      (.reserved he hs)
  | own hd _ hs _ _ _ | reader hd _ hs _ _ _ | shard hd _ hs _ =>
    refine .of_moved hd ((m.assign_eq hd hs).symm.trans happly) hd' (by rintro ⟨⟩) rfl rfl fun he => ?_
    split_ifs at he <;> exact he
  | releaseShard hd _ hs _ =>
    exact .of_moved hd ((m.release_eq hd hs).symm.trans happly) hd' (by rintro ⟨⟩) rfl rfl fun he => he

theorem reconcile_turned (h : w.reconcile m = .ok m') (hd' : m'.disk id = some d') :
    w.Turned d' (m.disk id) := by
  unfold reconcile at h
  split at h
  · cases h
  · next hnext => exact (next_decides hnext).turned h hd'

end Want

end Sproutfs.Cluster
