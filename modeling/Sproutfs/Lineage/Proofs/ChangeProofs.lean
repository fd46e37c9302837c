import Sproutfs.Lineage.Proofs.FrameProofs

/-!
# Sweeps, indexes, points and new records

The rest of the primitive changes. The one that carries the argument is the decision of a sweep: it
may reach nothing that is relied on. For an index of another VM, and for a pinned one, that follows
from the pins the sweep spares; only the VM's own selected, kept and current indexes are left to the
step that decides.
-/

namespace Sproutfs.Lineage

open Machine List Function Control

variable {s t : System} {creating : Nat → Option Creating} {i : Index}

/-! ## Deciding a sweep -/

theorem Inv.relied_whole (hi : Inv s) (hset : s.Settled i) (hrel : s.Relied i) : s.Whole i := by
  cases hrel with
  | pinned hp => exact hi.stands_iff hset.1 (hi.pins _ hp)
  | selected hr hc href => exact hi.stands_iff hset.1 (href ▸ (hi.records _ _ hr).selected hc)
  | kept hr hk href => exact hi.stands_iff hset.1 (href ▸ ((hi.records _ _ hr).kept _ hk).2)
  | base hv hr hb => exact hb ▸ (hi.sound _ _ _ hv hr).base
  | committed hv hr hp hnot hc =>
    exact (((hi.sound _ _ _ hv hr).publishing _ hp).resolve_left hnot).2 i hc

/-- A sweep takes nothing of a pinned index, and nothing of another VM's: what it deletes would be
named by a pinned checkpoint of its own VM. -/
theorem Inv.spares_pinned (hi : Inv s) {sw : Sweep} (hpin : ∀ r, sw.kills r = true → ¬ s.Pinned r)
    (hmem : i ∈ s.indexes) {r : Ref} (hr : r ∈ i.named) (h : i.ref ∈ s.pins ∨ i.ref.vm ≠ r.vm) :
    sw.kills r = false := by
  by_contra hk
  have hk : sw.kills r = true := by simpa using hk
  apply hpin r hk
  by_cases hvm : i.ref.vm = r.vm
  · exact ⟨i.ref, h.resolve_right (not_not_intro hvm), hvm, i, hmem, rfl, hr⟩
  · exact (hi.indexes i hmem).foreign r hr (Ne.symm hvm)

theorem System.decide?_none (s : System) : s.decide? none = s := by
  simp [System.decide?]

section

variable (hi : Inv s)

include hi

theorem Inv.resweep {gone : List (Ref × Sweep)} {sweeps : List Sweep}
    (hw : ∀ i, s.Settled i → s.Relied i → ({ s with gone := gone, sweeps := sweeps } : System).Whole i)
    (hundeleted : ∀ id r, s.records id = some r → ∀ life spared, Sweep.deleteVM id life spared ∉ sweeps)
    (hsweeps : ∀ sw ∈ sweeps, ∀ r, sw.kills r = true → 0 < s.lives r.vm ∧ ((∃ j ∈ s.indexes, j.ref = r) ∨ ∃ life spared, sw = .deleteVM r.vm life spared))
    (hgone : ∀ d ∈ gone, 0 < s.lives d.1.vm ∧ ∃ j ∈ s.indexes, j.ref = d.1) :
    Inv { s with gone := gone, sweeps := sweeps } := by
  have g : Grows s { s with gone := gone, sweeps := sweeps } := .of_eq
  have hst : ∀ ref, s.Stands ref → (∀ i, i.ref = ref → s.Relied i) →
      ({ s with gone := gone, sweeps := sweeps } : System).Stands ref := by
    rintro ref ⟨i, hset, href, -⟩ hrel
    exact ⟨i, hset, href, hw i hset (hrel i href)⟩
  refine ⟨hi.refs, fun i hmem => (hi.indexes i hmem).mono g,
    fun p hp => hst p (hi.pins p hp) fun i href => .pinned (href ▸ hp),
    fun pt hpt => (hi.points pt hpt).mono g, ?_, fun k w hw => (hi.vms k w hw).mono g, hi.alone, ?_,
    fun n c hc => ⟨(hi.creating n c hc).root⟩, hsweeps, ?_, hi.lived⟩
  · intro id r hr
    have h := hi.records id r hr
    exact ⟨h.vm, h.lived, h.epoch, h.nonce, h.pinned, fun k hk => ⟨(h.kept k hk).1,
      hst _ (h.kept k hk).2 fun i => .kept hr hk⟩,
      fun hc => hst _ (h.selected hc) fun i => .selected hr hc, hundeleted id r hr⟩
  · intro k v r hv hr
    have h := hi.sound k v r hv hr
    refine ⟨hw _ (hi.vms k v hv).base (.base hv hr rfl), fun p hp => ?_, h.waiting⟩
    by_cases hlt : p.sequence < r.selected
    · exact .inl hlt
    · have hp' := (h.publishing p hp).resolve_left hlt
      refine .inr ⟨hp'.1, fun i hc => ?_⟩
      exact hw i (((hi.vms k v hv).publishing p hp).committed i hc).1 (.committed hv hr hp hlt hc)
  · rintro r ⟨d, hd, rfl⟩
    exact hgone d hd

theorem Inv.decide {sw : Sweep}
    (hknown : ∀ r, sw.kills r = true → 0 < s.lives r.vm ∧ ((∃ j ∈ s.indexes, j.ref = r) ∨ ∃ life spared, sw = .deleteVM r.vm life spared))
    (hrec : ∀ id life spared, sw = .deleteVM id life spared → s.records id = none)
    (hspare : ∀ i, s.Settled i → s.Relied i → ∀ r ∈ i.named, sw.kills r = false) :
    Inv (s.decide? (some sw)) := by
  have hmem : ∀ x, x ∈ s.sweeps ++ [sw] → x ∈ s.sweeps ∨ x = sw := fun x hx => by simpa using hx
  refine hi.resweep (fun i hset hrel r hr => ?_) (fun id r hr life spared hin => ?_)
    (fun x hx r hk => ?_) fun d hd => hi.gone d.1 ⟨d, hd, rfl⟩
  · have hold := hi.relied_whole hset hrel r hr
    refine ⟨hold.1, fun x hx => ?_⟩
    rcases hmem x hx with hx | rfl
    · exact hold.2 x hx
    · exact hspare i hset hrel r hr
  · rcases hmem _ hin with hin | heq
    · exact (hi.records id r hr).undeleted life spared hin
    · cases (hrec id life spared heq.symm).symm.trans hr
  · rcases hmem x hx with hx | rfl
    · exact hi.sweeps x hx r hk
    · exact hknown r hk

theorem Inv.relied_recorded (hrel : s.Relied i) (hpin : i.ref ∉ s.pins) :
    ∃ r, s.records i.ref.vm = some r := by
  cases hrel with
  | pinned hp => exact absurd hp hpin
  | selected hr hc href => exact ⟨_, by rw [href]; exact hr⟩
  | kept hr hk href => exact ⟨_, by rw [href]; exact hr⟩
  | @base k v r hv hr hb =>
    subst hb
    have htr := hi.vms k v hv
    by_cases hroot : v.root = true
    · obtain ⟨m, pt, -, hpt, hidx, -⟩ := htr.fork hroot
      exact absurd (hidx ▸ (hi.points pt (mem_of_getElem? hpt)).pinned) hpin
    · exact ⟨r, by rw [htr.own (by simpa using hroot)]; exact (held_iff.mp hr).1⟩
  | @committed k v r p hv hr hp hnot hc =>
    obtain ⟨-, href, -⟩ := ((hi.vms k v hv).publishing p hp).committed i hc
    exact ⟨r, by rw [href]; exact (held_iff.mp hr).1⟩

/-! ## Putting an index -/

/-- A new index names itself and checkpoints its parent may name. -/
theorem Inv.publish (hfresh : ∀ j ∈ s.indexes, j.ref ≠ i.ref)
    (hnamed : ∀ r ∈ i.named, r = i.ref ∨ ((∃ j ∈ s.indexes, j.ref = r) ∧ (r.vm ≠ i.ref.vm → s.Pinned r) ∧ (r.vm = i.ref.vm → r.sequence ≤ i.ref.sequence)))
    (hroots : ∀ n c j, creating n = some c → c.root = some j → j ≠ i → ∃ c', s.creating n = some c' ∧ c'.root = some j)
    (hcreating : ∀ n c, creating n = some c → c.Tracks { s with indexes := s.indexes ++ [i], creating := creating } n) :
    Inv { s with indexes := s.indexes ++ [i], creating := creating } := by
  have g : Grows s { s with indexes := s.indexes ++ [i], creating := creating } := by
    refine ⟨fun j hj => ⟨mem_append_left _ hj.1, fun n c hc hroot => ?_⟩,
      fun j hj => mem_append_left _ hj, fun _ h => h, fun k pt h => ⟨pt, h, rfl⟩,
      fun _ h => h, fun _ => le_rfl⟩
    have hne : j ≠ i := fun heq => hfresh j hj.1 (heq ▸ rfl)
    obtain ⟨c', hc', hroot'⟩ := hroots n c j hc hroot hne
    exact hj.2 n c' hc' hroot'
  have c : Calm s { s with indexes := s.indexes ++ [i], creating := creating } := ⟨rfl, rfl⟩
  refine ⟨?_, ?_, fun p hp => c.stands g (hi.pins p hp), fun pt hpt => (hi.points pt hpt).mono g,
    fun id r hr => (hi.records id r hr).mono g c rfl, fun k w hw => (hi.vms k w hw).mono g, hi.alone,
    fun k v r hv hr => (hi.sound k v r hv hr).mono (fun _ => c.whole) le_rfl, hcreating, ?_, ?_,
    hi.lived⟩
  · intro a ha b hb heq
    rcases mem_append.mp ha with ha | ha <;> rcases mem_append.mp hb with hb | hb
    · exact hi.refs a ha b hb heq
    · exact absurd (heq.trans (by rw [mem_singleton.mp hb])) (hfresh a ha)
    · exact absurd (heq.symm.trans (by rw [mem_singleton.mp ha])) (hfresh b hb)
    · rw [mem_singleton.mp ha, mem_singleton.mp hb]
  · intro a ha
    rcases mem_append.mp ha with ha | ha
    · exact (hi.indexes a ha).mono g
    · rw [mem_singleton.mp ha]
      refine ⟨fun r hr => ?_, fun r hr hne => ?_, fun r hr heq => ?_⟩
      · rcases hnamed r hr with rfl | ⟨⟨j, hj, hjr⟩, -⟩
        · exact ⟨i, mem_append_right _ (mem_singleton_self i), rfl⟩
        · exact ⟨j, mem_append_left _ hj, hjr⟩
      · rcases hnamed r hr with rfl | ⟨-, hpin, -⟩
        · exact absurd rfl hne
        · exact g.pinned (hpin hne)
      · rcases hnamed r hr with rfl | ⟨-, -, hle⟩
        · exact le_rfl
        · exact hle heq
  · intro x hx r hk
    obtain ⟨hl, h⟩ := hi.sweeps x hx r hk
    refine ⟨hl, h.imp_left fun ⟨j, hj, hjr⟩ => ⟨j, mem_append_left _ hj, hjr⟩⟩
  · intro r hr
    obtain ⟨hl, j, hj, hjr⟩ := hi.gone r hr
    exact ⟨hl, j, mem_append_left _ hj, hjr⟩

theorem Inv.setCreating
    (hroots : ∀ n c j, creating n = some c → c.root = some j → ∃ c', s.creating n = some c' ∧ c'.root = some j)
    (hcreating : ∀ n c, creating n = some c → c.Tracks { s with creating := creating } n) :
    Inv { s with creating := creating } := by
  refine hi.change { grows := ⟨fun j hj => ⟨hj.1, fun n c hc hroot => ?_⟩, fun _ h => h, fun _ h => h,
    fun k pt h => ⟨pt, h, rfl⟩, fun _ h => h, fun _ => le_rfl⟩, creating := .inr hcreating }
  obtain ⟨c', hc', hroot'⟩ := hroots n c j hc hroot
  exact hj.2 n c' hc' hroot'

/-! ## Fork points -/

theorem Inv.setPoints {points : List ForkPoint}
    (hold : ∀ (k : Nat) pt, s.points[k]? = some pt → ∃ pt', points[k]? = some pt' ∧ pt'.index = pt.index)
    (hpoints : ∀ pt ∈ points, pt.Tracks s) : Inv { s with points := points } := by
  have g : Grows s { s with points := points } :=
    ⟨fun _ h => h, fun _ h => h, fun _ h => h, hold, fun _ h => h, fun _ => le_rfl⟩
  exact hi.change { grows := g, points := fun pt hpt => .inr ((hpoints pt hpt).mono g) }

theorem Inv.addPoint {pt : ForkPoint} (hpt : pt.Tracks s) : Inv { s with points := s.points ++ [pt] } := by
  refine hi.setPoints (fun k old hk => ⟨old, ?_, rfl⟩) fun x hx => ?_
  · rw [List.getElem?_append_left (List.getElem?_eq_some_iff.mp hk).1, hk]
  · rcases mem_append.mp hx with hx | hx
    · exact hi.points x hx
    · rw [mem_singleton.mp hx]
      exact hpt

/-! ## Records that come and go -/

theorem Inv.seat (id : List Char) (h : Nat) (r : Record) (v : VM) (lives : List Char → Nat)
    (hfree : s.vms h = none) (hnonce : v.nonce ∉ s.nonces) (hr : r.nonce = v.nonce) (hid : v.id = id)
    (hlives : ∀ x, s.lives x ≤ lives x) (t : System)
    (ht : t = { s with records := update s.records id (some r), lives := lives, vms := update s.vms h (some v), nonces := v.nonce :: s.nonces })
    (hrec : Grows s t → Calm s t → Recorded t id r) (htracks : v.Tracks t) (hsound : v.Sound t r) :
    Inv t := by
  subst ht
  set t : System := { s with
    records := update s.records id (some r), lives := lives,
    vms := update s.vms h (some v), nonces := v.nonce :: s.nonces } with ht
  have g : Grows s t := .of_eq (fun n hn => mem_cons_of_mem _ hn) hlives
  have hfresh : ∀ k w, s.vms k = some w → w.nonce ≠ v.nonce :=
    fun k w hw heq => hnonce (heq ▸ (hi.vms k w hw).nonce)
  refine hi.change
    { grows := g, records := fun id' r' hr' => ?_, vms := fun k w hw => ?_,
      alone := fun k k' w w' hw hw' heq => ?_, sound := fun k w q hw hq => ?_ }
  · rcases update_some hr' with ⟨rfl, rfl⟩ | ⟨-, hr'⟩
    · exact .inr (hrec g ⟨rfl, rfl⟩)
    · exact .inl ⟨rfl, hr'⟩
  · rcases update_some hw with ⟨-, rfl⟩ | ⟨-, hw⟩
    · exact .inr htracks
    · exact .inl hw
  · rcases update_some hw with ⟨rfl, rfl⟩ | ⟨-, hold⟩
    · rcases update_some hw' with ⟨rfl, -⟩ | ⟨-, hold'⟩
      · exact .inr rfl
      · exact absurd heq.symm (hfresh k' w' hold')
    · rcases update_some hw' with ⟨rfl, rfl⟩ | ⟨-, hold'⟩
      · exact absurd heq (hfresh k w hold)
      · exact .inl ⟨hold, hold'⟩
  · obtain ⟨hq, he, hn⟩ := held_iff.mp hq
    rcases update_some hw with ⟨-, rfl⟩ | ⟨-, hold⟩
    · rcases update_some hq with ⟨-, rfl⟩ | ⟨hne, -⟩
      · exact .inl hsound
      · exact absurd hid hne
    · rcases update_some hq with ⟨-, rfl⟩ | ⟨-, hq⟩
      · exact absurd (hn.symm.trans hr) (hfresh k w hold)
      · exact .inr ⟨hold, q, held_iff.mpr ⟨hq, he, hn⟩, le_rfl⟩

theorem Inv.clearRecord (id : List Char) : Inv (s.setRecord id none) := by
  refine hi.change
    { records := fun id' r hr => .inl ⟨rfl, (update_none hr).2⟩
      sound := fun k w r hw hr => .inr ⟨hw, r, ?_, le_rfl⟩ }
  obtain ⟨hr, he, hn⟩ := held_iff.mp hr
  exact held_iff.mpr ⟨(update_none hr).2, he, hn⟩

end

end Sproutfs.Lineage
