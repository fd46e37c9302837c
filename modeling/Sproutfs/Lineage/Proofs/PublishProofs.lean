import Sproutfs.Lineage.Proofs.StepProofs

/-!
# Publications, forks and sweeps keep the invariant

The steps that put an index, select it, pin it, or decide a sweep.
-/

namespace Sproutfs.Lineage

open Option Function Control

variable {s t : System} {p : Publication} {r : Record} {previous current : Index} {dead : List Ref} {v : VM}

/-! ## Commit -/

theorem Inv.inherits (hi : Inv s) (hp : p.Tracks s v) {r : Ref} (hr : r ∈ p.parent.named) :
    (∃ j ∈ s.indexes, j.ref = r) ∧ (r.vm ≠ v.id → s.Pinned r) ∧
      (r.vm = v.id → r.sequence ≤ p.sequence) := by
  have hmem := hp.parent.1
  have htr := hi.indexes p.parent hmem
  refine ⟨htr.published r hr, fun hne => ?_, fun hvm => (hp.below r hr hvm).le⟩
  by_cases hvm : r.vm = p.parent.ref.vm
  · -- A parent of another VM is the pinned checkpoint a fork inherits.
    have hroot : v.root = true := by
      by_contra hroot
      exact hne (hvm.trans (hp.own (by simpa using hroot)))
    exact ⟨p.parent.ref, hp.fork hroot, hvm.symm, p.parent, hmem, rfl, hr⟩
  · exact htr.foreign r hr hvm

theorem Inv.parent_whole (hi : Inv s) {h : Nat} (hv : s.vms h = some v) (hr : s.held v = some r)
    (hp : v.publishing = some p) (hnot : ¬ p.sequence < r.selected) : s.Whole p.parent := by
  have hsound := hi.sound h v r hv hr
  have htr := (hi.vms h v hv).publishing p hp
  by_cases hroot : v.root = true
  · exact hi.stands_iff htr.parent.1 (hi.pins _ (htr.fork hroot))
  · rw [((hsound.publishing p hp).resolve_left hnot).1 (by simpa using hroot)]
    exact hsound.base

theorem Inv.commit (hi : Inv s) {h : Nat} {named : List Ref} (hs : s.commit h named = some t) :
    Inv t := by
  obtain ⟨v, hv, hs⟩ := bind_eq_some_iff.mp hs
  obtain ⟨p, hp, hs⟩ := bind_eq_some_iff.mp hs
  obtain ⟨own, hs⟩ := dite_none_right_eq_some.mp hs
  obtain ⟨hg, rfl⟩ := ite_some_none_eq_some.mp hs
  obtain ⟨⟨-, hfind⟩, hsub⟩ : (p.committed = none ∧
      s.indexes.find ⟨v.id, p.sequence⟩ = none) ∧
      ∀ r ∈ named, r = ⟨v.id, p.sequence⟩ ∨ r ∈ p.parent.named := by
    simpa using hg
  have hfresh := Catalogue.find_none hfind
  have htr := hi.vms h v hv
  have hptr := htr.publishing p hp
  set index : Index := ⟨⟨v.id, p.sequence⟩, named, s.lives v.id, own⟩ with hindex
  have hi' : Inv { s with indexes := s.indexes ++ [index], creating := s.creating } := by
    refine hi.publish hfresh (fun r hr => (hsub r hr).imp_right fun hr => hi.inherits hptr hr)
      (fun n c j hc hj _ => ⟨c, hc, hj⟩) fun n c hc => ⟨fun i hroot => ?_⟩
    obtain ⟨hmem, hrest⟩ := (hi.creating n c hc).root i hroot
    exact ⟨List.mem_append_left _ hmem, hrest⟩
  have hset : ({ s with indexes := s.indexes ++ [index] } : System).Settled index :=
    ⟨List.mem_append_right _ (List.mem_singleton_self _), fun n c hc hroot =>
      hfresh index ((hi.creating n c hc).root index hroot).1 rfl⟩
  have htr' := hi'.vms h v hv
  refine hi'.setVM hv rfl ?_ fun r hr => ?_
  · refine { htr' with publishing := ?_, waiting := ?_ }
    · rintro q ⟨⟩
      have hold := htr'.publishing p hp
      refine { hold with committed := ?_ }
      rintro i ⟨⟩
      exact ⟨hset, rfl, hsub⟩
    · intro w hw
      have hold := htr'.waiting w hw
      refine { hold with before := ?_ }
      rintro q ⟨⟩
      exact hold.before p hp
  · have hr : s.held v = some r := hr
    have hold := hi'.sound h v r hv hr
    refine ⟨hold.base, ?_, hold.waiting⟩
    rintro q ⟨⟩
    by_cases hlt : p.sequence < r.selected
    · exact .inl hlt
    refine .inr ⟨((hold.publishing p hp).resolve_left hlt).1, ?_⟩
    rintro i ⟨⟩ x hx
    rcases hsub x hx with rfl | hx
    · -- Nothing has taken a reference nobody has put yet, and the VM is not being deleted.
      refine ⟨fun hgone => ?_, fun sw hsw => ?_⟩
      · obtain ⟨-, j, hj, hjr⟩ := hi.gone _ hgone
        exact hfresh j hj hjr
      · by_contra hk
        rcases (hi.sweeps sw hsw _ (by simpa using hk)).2 with ⟨j, hj, hjr⟩ | ⟨life, spared, rfl⟩
        · exact hfresh j hj hjr
        · exact (hi.records v.id r (held_iff.mp hr).1).undeleted life spared hsw
    · exact hi.parent_whole hv hr hp hlt x hx

/-! ## Select -/

theorem mem_kills_reclaim {r : Ref} (h : (Sweep.reclaim dead).kills r = true) : r ∈ dead := by
  simpa [Sweep.kills] using h

theorem Inv.reclaim_unpinned (hi : Inv s) (hrec : s.records previous.ref.vm = some r)
    (h : reclaim s.indexes previous current r.protectedSequences = some dead) :
    ∀ x, (Sweep.reclaim dead).kills x = true → ¬ s.Pinned x := by
  rintro x hx ⟨p, hp, hvm, j, hj, rfl, hnamed⟩
  obtain ⟨hxvm, -, -, hall⟩ := mem_reclaim h x (mem_kills_reclaim hx)
  have hpin : j.ref.sequence ∈ r.pinned := by
    apply ((hi.records _ r hrec).pinned _).mpr
    have hrefeq : (⟨previous.ref.vm, j.ref.sequence⟩ : Ref) = j.ref := by rw [← hxvm, ← hvm]
    rw [hrefeq]
    exact hp
  obtain ⟨i, hi', hiref, hout⟩ := hall _ (mem_protectedSequences.mpr (.inl hpin))
  have heq : i = j := by
    apply hi.refs i hi' j hj
    rw [hiref, ← hxvm, ← hvm]
  exact hout (heq ▸ hnamed)

/-- A reclamation may be decided where it spares what the record selects and what the handle that
holds the record builds on or may yet select. -/
theorem Inv.decide_reclaim (hi : Inv s) (hprev : previous ∈ s.indexes)
    (hrec : s.records previous.ref.vm = some r) (hcur : current ∈ s.indexes)
    (hsel : current.ref = ⟨previous.ref.vm, r.selected⟩)
    (h : reclaim s.indexes previous current r.protectedSequences = some dead)
    (hheld : ∀ k v, s.vms k = some v → v.id = previous.ref.vm → s.held v = some r → v.base = current ∧ ∀ p i, v.publishing = some p → ¬ p.sequence < r.selected → p.committed = some i → ∀ x ∈ i.named, x ∉ dead) :
    Inv (s.decide? (some (.reclaim dead))) := by
  have hpin := hi.reclaim_unpinned hrec h
  have hkill : ∀ x, (Sweep.reclaim dead).kills x = true → x.vm = previous.ref.vm ∧
      x ∈ previous.named ∧ x ∉ current.named := fun x hx => by
    obtain ⟨hvm, hn, hc, -⟩ := mem_reclaim h x (mem_kills_reclaim hx)
    exact ⟨hvm, hn, hc⟩
  refine hi.decide (fun x hx => ?_) nofun ?_
  · obtain ⟨hvm, hn, -⟩ := hkill x hx
    refine ⟨?_, .inl ((hi.indexes previous hprev).published x hn)⟩
    rw [hvm]
    exact (hi.records _ r hrec).lived
  · intro i hset hrel x hx
    by_contra hk
    have hk : (Sweep.reclaim dead).kills x = true := by simpa using hk
    obtain ⟨hvm, -, hnot⟩ := hkill x hk
    have hspared : ¬ (i.ref ∈ s.pins ∨ i.ref.vm ≠ x.vm) := fun hor => by
      rw [hi.spares_pinned hpin hset.1 hx hor] at hk
      cases hk
    obtain ⟨hunpinned, hsame⟩ := not_or.mp hspared
    have hivm : i.ref.vm = previous.ref.vm := (not_not.mp hsame).trans hvm
    cases hrel with
    | pinned hp => exact hunpinned hp
    | @selected id r' hr hc href =>
      rw [href] at hivm
      cases hivm
      cases hrec.symm.trans hr
      exact hnot (hi.refs i hset.1 current hcur (href.trans hsel.symm) ▸ hx)
    | @kept id r' k hr hkept href =>
      rw [href] at hivm
      cases hivm
      cases hrec.symm.trans hr
      obtain ⟨-, -, -, hall⟩ := mem_reclaim h x (mem_kills_reclaim hk)
      obtain ⟨j, hj, hjref, hout⟩ := hall _ (mem_protectedSequences.mpr (.inr ⟨k, hkept, rfl⟩))
      exact hout (hi.refs i hset.1 j hj (href.trans hjref.symm) ▸ hx)
    | @base k v r' hv hr hb =>
      subst hb
      have htr := hi.vms k v hv
      by_cases hroot : v.root = true
      · obtain ⟨m, pt, -, hpt, hidx, -⟩ := htr.fork hroot
        exact hunpinned (hidx ▸ (hi.points pt (List.mem_of_getElem? hpt)).pinned)
      · have hroot : v.root = false := by simpa using hroot
        have hid : v.id = previous.ref.vm := (htr.own hroot).symm.trans hivm
        cases hrec.symm.trans (hid ▸ (held_iff.mp hr).1)
        exact hnot ((hheld k v hv hid hr).1 ▸ hx)
    | @committed k v r' p hv hr hp hlt hc =>
      obtain ⟨-, href, -⟩ := ((hi.vms k v hv).publishing p hp).committed i hc
      have hid : v.id = previous.ref.vm := by rw [← hivm, href]
      cases hrec.symm.trans (hid ▸ (held_iff.mp hr).1)
      exact (hheld k v hv hid hr).2 p i hp hlt hc x hx (mem_kills_reclaim hk)

theorem Inv.recorded_selected (hi : Inv s) {r' : Record} {q : Nat} {kept : Option Kept}
    (hr : s.held v = some r) (hsel : Selected v.epoch q kept r r') (hst : s.Stands ⟨v.id, q⟩)
    (hkept : ∀ k, kept = some k → k.sequence = q) : Recorded s v.id r' := by
  obtain ⟨hrec, he, -⟩ := held_iff.mp hr
  have h := hi.records v.id r hrec
  refine ⟨hsel.vm.trans h.vm, h.lived, ?_, by rw [hsel.nonce]; exact h.nonce,
    fun x => by rw [hsel.pinned]; exact h.pinned x, fun k hk => ?_,
    fun _ => by rw [hsel.selected]; exact hst, h.undeleted⟩
  · rw [hsel.selected, hsel.epoch_eq]
    rcases hsel.own with rfl | hown
    · exact h.epoch
    · exact (hown.trans he.symm).le
  · rw [hsel.selected]
    rcases hsel.kept_of k hk with hk | hk
    · exact ⟨(h.kept k hk).1.trans hsel.le, (h.kept k hk).2⟩
    · rw [hkept k hk]
      exact ⟨le_rfl, hst⟩

theorem VM.Tracks.install (htr : v.Tracks s) (hp : v.publishing = some p) {index : Index}
    (hc : p.committed = some index) : (v.install p index).Tracks s := by
  have hptr := htr.publishing p hp
  obtain ⟨hset, href, hsub⟩ := hptr.committed index hc
  have hvm : index.ref.vm = v.id := by rw [href]
  refine ⟨htr.nonce, htr.lived, hset, fun r hr hrvm => ?_, fun _ => hvm,
    fun hf => Bool.noConfusion hf, ?_, nofun, fun w hw => ?_, fun k hk => ?_⟩
  · rcases hsub r hr with rfl | hr
    · rw [href]
      exact hptr.next
    · exact (hptr.below r hr hrvm).trans hptr.next
  · rintro o ⟨⟩
    exact ⟨hset, hvm⟩
  · have hold := htr.waiting w hw
    exact ⟨hold.parent, hold.next, hold.below, hold.own, rfl, hold.point, nofun⟩
  · obtain ⟨hroot, pt, hpt, hidx⟩ := hptr.point k hk
    refine ⟨rfl, pt, hpt, ?_, fun r hr => hidx ▸ hsub r hr⟩
    show index.ref.vm = _
    rw [hvm, hidx]
    exact (hptr.own hroot).symm

theorem Inv.select (hi : Inv s) {h : Nat} {k : Keeping} {journals : List Journal} {known : Bool}
    (hs : s.select h k journals known = some t) : Inv t := by
  obtain ⟨v, hv, hs⟩ := bind_eq_some_iff.mp hs
  obtain ⟨p, hp, hs⟩ := bind_eq_some_iff.mp hs
  obtain ⟨index, hc, hs⟩ := bind_eq_some_iff.mp hs
  obtain ⟨r, hr, hs⟩ := bind_eq_some_iff.mp hs
  split at hs
  case h_1 => cases hs
  case h_2 r' hsel =>
    have hsel := selecting_spec hsel
    obtain ⟨hrec, he, hn⟩ := held_iff.mp hr
    have htr := hi.vms h v hv
    obtain ⟨hset, href, hsub⟩ := (htr.publishing p hp).committed index hc
    have hnot : ¬ p.sequence < r.selected := Nat.not_lt.mpr hsel.le
    have hwhole : s.Whole index := hi.relied_whole hset (.committed hv hr hp hnot hc)
    have hi₁ : Inv (s.setRecord v.id (some r')) := by
      refine hi.setRecord hrec hsel.epoch_eq hsel.nonce (hsel.selected ▸ hsel.le) ?_
      refine hi.recorded_selected hr hsel ⟨index, hset, href, hwhole⟩ fun k' hk' => ?_
      split at hk'
      · cases hk'
        rfl
      · cases hk'
    cases known with
    | false =>
      cases hs
      exact hi₁
    | true =>
      cases hs
      have hi₂ : Inv ((s.setRecord v.id (some r')).setVM h (v.install p index)) := by
        refine hi₁.setVM hv rfl ((hi₁.vms h v hv).install hp hc) fun r'' hr'' => ?_
        obtain ⟨hrec'', -⟩ := held_iff.mp hr''
        cases (update_self ..).symm.trans hrec''
        refine ⟨hwhole, nofun, fun w hw => .inl ?_⟩
        rw [hsel.selected]
        exact (htr.waiting w hw).before p hp
      cases hdead : v.owned.bind fun replaced =>
          reclaim s.indexes replaced index r'.protectedSequences with
      | none =>
        show Inv (System.decide? _ none)
        rw [System.decide?_none]
        exact hi₂
      | some dead =>
        obtain ⟨replaced, howned, hdead⟩ := bind_eq_some_iff.mp hdead
        obtain ⟨hrset, hrvm⟩ := htr.owned replaced howned
        refine hi₂.decide_reclaim (r := r') hrset.1 ?_ hset.1 ?_ hdead fun k' v' hv' hid' hr' => ?_
        · rw [hrvm]
          exact update_self ..
        · rw [href, hrvm, hsel.selected]
        · -- The handle that holds the record is the one that has just installed the index.
          have hheld : ((s.setRecord v.id (some r')).setVM h (v.install p index)).held
              (v.install p index) = some r' :=
            held_iff.mpr ⟨update_self .., hsel.epoch_eq.trans he, hsel.nonce.trans hn⟩
          have hself : ((s.setRecord v.id (some r')).setVM h (v.install p index)).vms h =
              some (v.install p index) := update_self ..
          have hk : k' = h := hi₂.held_unique hv' hself (hid'.trans hrvm) hr' hheld
          subst hk
          cases hself.symm.trans hv'
          exact ⟨rfl, nofun⟩

end Sproutfs.Lineage
