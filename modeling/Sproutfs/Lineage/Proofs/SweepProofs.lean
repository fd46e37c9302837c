import Sproutfs.Lineage.Proofs.ForkProofs

/-!
# Deletions, releases and whole runs

A deletion spares the record's pins, which are all the pins of the VM. A release is safe where the handle
that holds the record is aligned with it.
-/

namespace Sproutfs.Lineage

open List Option Control

variable {s t : System} {q k : Nat}

theorem Inv.remove (hi : Inv s) {id : List Char} (hs : s.remove id = some t) : Inv t := by
  obtain ⟨r, hr, rfl⟩ := map_eq_some_iff.mp hs
  have hrec := hi.records id r hr
  have hi' := hi.clearRecord id
  cases hspared : sparedCheckpoints s.indexes id r.pinned with
  | none =>
    show Inv (System.decide? _ none)
    rw [System.decide?_none]
    exact hi'
  | some spared =>
    have hkill : ∀ x, (Sweep.deleteVM id (s.lives id) spared).kills x = true →
        x.vm = id ∧ x.sequence ∉ spared := fun x hx => by simpa [Sweep.kills] using hx
    have hpin : ∀ x, (Sweep.deleteVM id (s.lives id) spared).kills x = true → ¬ s.Pinned x := by
      rintro x hx ⟨p, hp, hvm, j, hj, rfl, hnamed⟩
      obtain ⟨rfl, hout⟩ := hkill x hx
      have hq : j.ref.sequence ∈ r.pinned := by
        apply (hrec.pinned _).mpr
        rw [← hvm]
        exact hp
      obtain ⟨i, hi', hiref, hall⟩ := mem_sparedCheckpoints hspared _ hq
      have heq : i = j := by
        apply hi.refs i hi' j hj
        rw [hiref, ← hvm]
      exact hout (hall x (heq ▸ hnamed) rfl)
    refine hi'.decide (fun x hx => ?_) (fun id' life spared' heq => ?_) fun i hset hrel x hx => ?_
    · obtain ⟨rfl, -⟩ := hkill x hx
      exact ⟨hrec.lived, .inr ⟨_, _, rfl⟩⟩
    · cases heq
      exact Function.update_self ..
    · by_contra hk
      have hk : (Sweep.deleteVM id (s.lives id) spared).kills x = true := by simpa using hk
      have hspare : ¬ (i.ref ∈ s.pins ∨ i.ref.vm ≠ x.vm) := fun hor => by
        rw [hi.spares_pinned hpin hset.1 hx hor] at hk
        cases hk
      obtain ⟨hunpinned, hsame⟩ := not_or.mp hspare
      obtain ⟨r', hr'⟩ := hi'.relied_recorded hrel hunpinned
      exact (Machine.update_none hr').1 ((not_not.mp hsame).trans (hkill x hk).1)

theorem mem_withoutKept {r : Record} {k : Kept} :
    k ∈ (releaseNext q r).kept ↔ k ∈ r.kept ∧ k.sequence ≠ q := by
  simp [releaseNext, Record.withoutKept]

theorem Inv.release (hi : Inv s) {id : List Char} (hguard : s.Aligned id) (hs : s.release id q = some t) :
    Inv t := by
  obtain ⟨r, hr, hs⟩ := bind_eq_some_iff.mp hs
  obtain ⟨r', hr', rfl⟩ := map_eq_some_iff.mp hs
  obtain ⟨rfl, ⟨k, hk, rfl⟩, -⟩ := releasedRecord_eq hr'
  have hrec := hi.records id r hr
  have hi' : Inv (s.setRecord id (some (releaseNext k.sequence r))) := by
    refine hi.setRecord hr rfl rfl le_rfl ⟨hrec.vm, hrec.lived, hrec.epoch, hrec.nonce, hrec.pinned,
      fun x hx => hrec.kept x (mem_withoutKept.mp hx).1, hrec.selected, hrec.undeleted⟩
  cases hdead : s.sweepReleased ⟨id, k.sequence⟩ (releaseNext k.sequence r) with
  | none =>
    show Inv (System.decide? _ none)
    rw [System.decide?_none]
    exact hi'
  | some dead =>
    unfold System.sweepReleased at hdead
    split at hdead
    case isTrue => cases hdead
    case isFalse =>
      obtain ⟨previous, hprev, hdead⟩ := bind_eq_some_iff.mp hdead
      obtain ⟨current, hcur, hdead⟩ := bind_eq_some_iff.mp hdead
      obtain ⟨hpmem, hpref⟩ := Catalogue.find_mem hprev
      obtain ⟨hcmem, hcref⟩ := Catalogue.find_mem hcur
      have hpvm : previous.ref.vm = id := by rw [hpref]
      have hself : (s.setRecord id (some (releaseNext k.sequence r))).records id =
          some (releaseNext k.sequence r) := Function.update_self ..
      refine hi'.decide_reclaim (r := releaseNext k.sequence r) hpmem (by rw [hpvm]; exact hself)
        hcmem (by rw [hcref, hpvm]) hdead fun h v hv hid hheld => ?_
      rw [hpvm] at hid
      have hheld' : s.held v = some r := by
        obtain ⟨-, he, hn⟩ := held_iff.mp hheld
        exact held_iff.mpr ⟨by rw [hid]; exact hr, he, hn⟩
      have hbase : v.base.ref = ⟨id, r.selected⟩ := hguard h v r hv hid hheld'
      have htr := hi.vms h v hv
      refine ⟨hi.refs _ htr.base.1 _ hcmem (hbase.trans hcref.symm), fun p i hp hlt hc x hx hin => ?_⟩
      obtain ⟨hxvm, hxprev, hxcur, -⟩ := mem_reclaim hdead x hin
      -- A handle that builds on its own checkpoint is not a fork waiting for its root.
      have hroot : v.root = false := by
        by_contra hroot
        obtain ⟨-, -, -, -, -, hne, -⟩ := htr.fork (by simpa using hroot)
        exact hne (by rw [hbase, hid])
      have hptr := htr.publishing p hp
      have hparent : p.parent = v.base :=
        ((hi.sound h v r hv hheld').publishing p hp).resolve_left hlt |>.1 hroot
      obtain ⟨-, href, hsub⟩ := hptr.committed i hc
      rcases hsub x hx with rfl | hx
      · -- What is about to be selected is newer than anything the kept checkpoint names.
        have hle : i.ref.sequence ≤ k.sequence := by
          have h := (hi.indexes previous hpmem).ordered _ hxprev hxvm
          rwa [hpref] at h
        have hlt' : r.selected < p.sequence := by
          have h := hptr.below v.base.ref (by rw [hparent]; exact v.base.own) (by rw [hbase, hid])
          rwa [hbase] at h
        rw [href] at hle
        exact absurd ((hrec.kept k hk).1) (by simp only at hle; omega)
      · rw [hparent, hi.refs _ htr.base.1 _ hcmem (hbase.trans hcref.symm)] at hx
        exact hxcur hx

theorem Inv.sweep (hi : Inv s) {r : Ref} (hs : s.sweep k r = some t) : Inv t := by
  obtain ⟨sw, hsw, hs⟩ := bind_eq_some_iff.mp hs
  obtain ⟨hg, rfl⟩ := ite_some_none_eq_some.mp hs
  obtain ⟨⟨hkill, hfind⟩, -⟩ :
      (sw.kills r = true ∧ (s.indexes.find r).isSome = true) ∧ ¬ s.Gone r := by simpa using hg
  have hmem : sw ∈ s.sweeps := mem_of_getElem? hsw
  refine hi.resweep (fun i hset hrel x hx => ?_) (fun id r' hr' => (hi.records id r' hr').undeleted)
    hi.sweeps fun d hd => ?_
  · have hold := hi.relied_whole hset hrel x hx
    refine ⟨?_, hold.2⟩
    rintro ⟨d, hd, rfl⟩
    rcases mem_append.mp hd with hd | hd
    · exact hold.1 ⟨d, hd, rfl⟩
    · have hspared := hold.2 sw hmem
      rw [mem_singleton.mp hd] at hspared
      cases hkill.symm.trans hspared
  · rcases mem_append.mp hd with hd | hd
    · exact hi.gone d.1 ⟨d, hd, rfl⟩
    · rw [mem_singleton.mp hd]
      obtain ⟨i, hi'⟩ := isSome_iff_exists.mp hfind
      exact ⟨(hi.sweeps sw hmem r hkill).1, i, Catalogue.find_mem hi'⟩

theorem Inv.sweepEnds (hi : Inv s) (hs : s.sweepEnds k = some t) : Inv t := by
  obtain ⟨-, rfl⟩ := ite_some_none_eq_some.mp hs
  have hsub : ∀ sw ∈ s.sweeps.eraseIdx k, sw ∈ s.sweeps := fun sw h => mem_of_mem_eraseIdx h
  refine hi.resweep (fun i hset hrel x hx => ?_)
    (fun id r hr life spared hin => (hi.records id r hr).undeleted life spared (hsub _ hin))
    (fun sw hsw => hi.sweeps sw (hsub sw hsw)) fun d hd => hi.gone d.1 ⟨d, hd, rfl⟩
  have hold := hi.relied_whole hset hrel x hx
  exact ⟨hold.1, fun sw hsw => hold.2 sw (hsub sw hsw)⟩

/-! ## Runs -/

theorem Inv.step (hi : Inv s) {a : Action} (hguard : s.Guarded a) (hs : s.step a = some t) :
    Inv t := by
  cases a with
  | create => exact hi.create hs
  | createRoot => exact hi.createRoot hs
  | createRecord => exact hi.createRecord hguard hs
  | opens => exact hi.opens hs
  | capture => exact hi.capture hs
  | commit => exact hi.commit hs
  | select => exact hi.select hs
  | abandon => exact hi.abandon hs
  | forkPoint => exact hi.forkPoint hs
  | publishPoint => exact hi.publishPoint hs
  | pinPoint => exact hi.pinPoint hs
  | pin => exact hi.pin hs
  | inherit => exact hi.inherit hs
  | fork => exact hi.fork hguard hs
  | forkFails => exact hi.forkFails hs
  | remove => exact hi.remove hs
  | release => exact hi.release hguard hs
  | sweep => exact hi.sweep hs
  | sweepEnds => exact hi.sweepEnds hs

theorem inv_empty : Inv {} where
  refs _ h := (not_mem_nil h).elim
  indexes _ h := (not_mem_nil h).elim
  pins _ h := (not_mem_nil h).elim
  points _ h := (not_mem_nil h).elim
  records _ _ h := (some_ne_none _ h.symm).elim
  vms _ _ h := (some_ne_none _ h.symm).elim
  alone _ _ _ _ h := (some_ne_none _ h.symm).elim
  sound _ _ _ h := (some_ne_none _ h.symm).elim
  creating _ _ h := (some_ne_none _ h.symm).elim
  sweeps _ h := (not_mem_nil h).elim
  gone := by
    rintro r ⟨d, hd, -⟩
    exact (not_mem_nil hd).elim
  lived _ h := (not_mem_nil h).elim

end Sproutfs.Lineage
