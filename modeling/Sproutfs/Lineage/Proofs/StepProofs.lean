import Sproutfs.Lineage.Proofs.ChangeProofs

/-!
# Every step keeps the invariant

One lemma for each action. Creating a record and releasing a kept checkpoint need their guard; every
other step keeps the invariant by itself.
-/

namespace Sproutfs.Lineage

open Machine List Option Function Control

variable {s t : System} {n epoch h : Nat} {id : List Char}

/-! ## Creating and opening -/

theorem Inv.create (hi : Inv s) {takeOver : Bool} (h : s.create n id takeOver = some t) : Inv t := by
  obtain ⟨-, rfl⟩ := ite_some_none_eq_some.mp h
  have hold : ∀ m c j, update s.creating n (some { id := id }) m = some c →
      c.root = some j → s.creating m = some c := by
    intro m c j hc hroot
    rcases update_some hc with ⟨-, rfl⟩ | ⟨-, hc⟩
    · cases hroot
    · exact hc
  refine hi.setCreating (fun m c j hc hroot => ⟨c, hold m c j hc hroot, hroot⟩)
    fun m c hc => ⟨fun i hroot => ?_⟩
  obtain ⟨hmem, hvm, hnamed, huniq⟩ := (hi.creating m c (hold m c i hc hroot)).root i hroot
  exact ⟨hmem, hvm, hnamed, fun m' c' hc' hroot' =>
    huniq m' c' (hold m' c' i hc' hroot') hroot'⟩

theorem Inv.createRoot (hi : Inv s) (h : s.createRoot n epoch = some t) : Inv t := by
  obtain ⟨c, hc, h⟩ := bind_eq_some_iff.mp h
  obtain ⟨hg, h⟩ := ite_none_right_eq_some.mp h
  obtain ⟨hroot, hfind⟩ : c.root = none ∧ s.indexes.find ⟨c.id, rootSequence epoch⟩ = none := by
    simpa using hg
  have hfresh := Catalogue.find_none hfind
  cases h
  set root : Index := ⟨⟨c.id, rootSequence epoch⟩, [⟨c.id, rootSequence epoch⟩],
    s.lives c.id + (if (s.records c.id).isNone then 1 else 0), mem_singleton_self _⟩ with hr
  refine hi.publish hfresh (fun r hr => .inl (mem_singleton.mp hr)) ?_ ?_
  · intro m c' j hc' hj hne
    rcases update_some hc' with ⟨-, rfl⟩ | ⟨-, hc'⟩
    · exact absurd (Option.some.inj hj).symm hne
    · exact ⟨c', hc', hj⟩
  · intro m c' hc'
    refine ⟨fun i hi' => ?_⟩
    rcases update_some hc' with ⟨rfl, rfl⟩ | ⟨hne, hold⟩
    · cases hi'
      refine ⟨mem_append_right _ (mem_singleton_self _), rfl, rfl, ?_⟩
      intro m' d hd hdroot
      rcases update_some hd with ⟨rfl, -⟩ | ⟨-, hd⟩
      · rfl
      · exact absurd rfl (hfresh root ((hi.creating m' d hd).root root hdroot).1)
    · obtain ⟨hmem, hvm, hnamed, huniq⟩ := (hi.creating m c' hold).root i hi'
      refine ⟨mem_append_left _ hmem, hvm, hnamed, fun m' d hd hdroot => ?_⟩
      rcases update_some hd with ⟨-, rfl⟩ | ⟨-, hd⟩
      · cases hdroot
        exact absurd rfl (hfresh root hmem)
      · exact huniq m' d hd hdroot

theorem lt_nextSequence {selected : Nat} (h : epochOf selected ≤ epoch) :
    selected < nextSequence epoch selected := by
  unfold nextSequence
  split
  · exact Nat.lt_succ_self _
  case isFalse hne =>
    have hlt : epochOf selected < epoch := lt_of_le_of_ne h hne
    have hlt : selected < epoch * 2 ^ 32 := (Nat.div_lt_iff_lt_mul (Nat.two_pow_pos 32)).mp hlt
    exact hlt.trans (Nat.lt_succ_self _)

theorem Inv.unnamed (hi : Inv s) (hpins : ∀ p ∈ s.pins, p.vm ≠ id) {i : Index} (hmem : i ∈ s.indexes)
    (hvm : i.ref.vm ≠ id) : ∀ r ∈ i.named, r.vm ≠ id := by
  intro r hr heq
  obtain ⟨p, hp, hpvm, -⟩ := (hi.indexes i hmem).foreign r hr (fun h => hvm (h.symm.trans heq))
  exact hpins p hp (hpvm.trans heq)

theorem Inv.createRecord (hi : Inv s) {nonce : Nonce} (hguard : s.Guarded (.createRecord n h nonce))
    (hs : s.createRecord n h nonce = some t) : Inv t := by
  obtain ⟨c, hc, hs⟩ := bind_eq_some_iff.mp hs
  obtain ⟨root, hroot, hs⟩ := bind_eq_some_iff.mp hs
  obtain ⟨hg, hs⟩ := ite_none_right_eq_some.mp hs
  obtain ⟨r, hr, rfl⟩ := map_eq_some_iff.mp hs
  obtain ⟨⟨hnone, hfree⟩, hnonce⟩ :
      ((s.records c.id = none ∧ s.vms h = none) ∧ nonce ∉ s.nonces) := by simpa using hg
  obtain ⟨⟨hclean, hundel⟩, hwhole⟩ := hguard c root hc hroot
  obtain ⟨hmem, hvm, hnamed, huniq⟩ := (hi.creating n c hc).root root hroot
  cases createdRecord_eq hr
  -- The root settles first, and the record and its handle come after.
  have hclear : ∀ m d, update s.creating n none m = some d → m ≠ n ∧ s.creating m = some d :=
    fun m d hd => update_none hd
  have hi' : Inv { s with creating := update s.creating n none } := by
    refine hi.setCreating (fun m d j hd hj => ⟨d, (hclear m d hd).2, hj⟩) fun m d hd => ⟨?_⟩
    intro i hiroot
    obtain ⟨hm, hv, hn, hu⟩ := (hi.creating m d (hclear m d hd).2).root i hiroot
    exact ⟨hm, hv, hn, fun m' d' hd' hr' => hu m' d' (hclear m' d' hd').2 hr'⟩
  have hset : ({ s with creating := update s.creating n none } : System).Settled root :=
    ⟨hmem, fun m d hd hdroot => (hclear m d hd).1 (huniq m d (hclear m d hd).2 hdroot)⟩
  have href : root.ref = ⟨c.id, root.ref.sequence⟩ := by rw [← hvm]
  have hlived : ∀ x, s.lives x ≤ update s.lives c.id (s.lives c.id + 1) x := by
    intro x
    by_cases hx : x = c.id
    · rw [hx, update_self]
      exact Nat.le_succ _
    · rw [update_of_ne hx]
  have hpos : 0 < update s.lives c.id (s.lives c.id + 1) c.id := by
    rw [update_self]
    exact Nat.succ_pos _
  refine hi'.seat c.id h _
    { id := c.id, epoch := _, nonce := nonce, next := _, base := root, owned := some root } _ hfree hnonce rfl rfl hlived _ rfl ?_ ?_ ?_
  · exact fun _ _ => ⟨rfl, hpos, le_rfl, mem_cons_self .., fun q => ⟨fun hq => (not_mem_nil hq).elim,
      fun hq => (hclean _ hq rfl).elim⟩, fun k hk => (not_mem_nil hk).elim,
      fun _ => ⟨root, hset, href, hwhole⟩, hundel⟩
  · refine ⟨mem_cons_self .., hpos, hset, ?_, fun _ => hvm, fun hf => (Bool.noConfusion hf),
      ?_, fun p hp => ?_, fun w hw => ?_, fun k hk => ?_⟩
    · intro q hq _
      rw [show q = root.ref by simpa [hnamed] using hq]
      exact lt_nextSequence le_rfl
    · intro o ho
      cases ho
      exact ⟨hset, hvm⟩
    · cases hp
    · cases hw
    · cases hk
  · exact ⟨hwhole, nofun, nofun⟩

theorem Inv.opens (hi : Inv s) {o : Opening} (hs : s.opens h id o = some t) : Inv t := by
  obtain ⟨r, hr, hs⟩ := bind_eq_some_iff.mp hs
  obtain ⟨hg, hs⟩ := ite_none_right_eq_some.mp hs
  obtain ⟨r', hr', hs⟩ := bind_eq_some_iff.mp hs
  obtain ⟨index, hfind, rfl⟩ := map_eq_some_iff.mp hs
  obtain ⟨⟨hcreated, hfree⟩, hnonce⟩ :
      ((r.created = true ∧ s.vms h = none) ∧ o.nonce ∉ s.nonces) := by simpa using hg
  cases openedRecord_eq hr'
  obtain ⟨hmem, href⟩ := Catalogue.find_mem hfind
  have hrec := hi.records id r hr
  have hstands : s.Stands ⟨id, r.selected⟩ := hrec.selected hcreated
  have hwhole : s.Whole index := hi.stands_iff hmem (by rw [href]; exact hstands)
  have hset : s.Settled index := by
    obtain ⟨i, hset, hiref, -⟩ := hstands
    rwa [← hi.refs i hset.1 index hmem (hiref.trans href.symm)]
  have hepoch : epochOf r.selected ≤ r.epoch + 1 := hrec.epoch.trans (Nat.le_succ _)
  refine hi.seat id h (o.next r)
    { id := id, epoch := _, nonce := o.nonce, next := _, base := index, owned := none } _ hfree hnonce rfl rfl (fun _ => le_rfl) _ rfl ?_ ?_ ?_
  · exact fun g c => { hrec with epoch := hepoch, nonce := mem_cons_self .., kept := fun k hk =>
      ⟨(hrec.kept k hk).1, c.stands g (hrec.kept k hk).2⟩, selected := fun _ => c.stands g hstands }
  · refine ⟨mem_cons_self .., hrec.lived, hset, ?_, fun _ => by rw [href],
      fun hf => Bool.noConfusion hf, nofun, nofun, nofun, nofun⟩
    intro q hq hvm
    have hle := (hi.indexes index hmem).ordered q hq (by rw [hvm, href])
    rw [href] at hle
    exact hle.trans_lt (lt_nextSequence hepoch)
  · exact ⟨hwhole, nofun, nofun⟩

/-! ## Publishing -/

theorem Inv.parentIndex (hi : Inv s) {v : VM} (hv : v.Tracks s) :
    s.Settled (v.parentIndex s.points) ∧
      (v.root = false → v.parentIndex s.points = v.base) ∧
      (v.root = true → (v.parentIndex s.points).ref ∈ s.pins ∧
        ∀ r ∈ (v.parentIndex s.points).named, r.vm ≠ v.id) := by
  cases hroot : v.root with
  | false =>
    have heq : v.parentIndex s.points = v.base := by simp [VM.parentIndex, hroot]
    exact ⟨by rw [heq]; exact hv.base, fun _ => heq, fun h => Bool.noConfusion h⟩
  | true =>
    obtain ⟨k, pt, hk, hpt, hidx, hvm, hnamed⟩ := hv.fork hroot
    have htr := hi.points pt (mem_of_getElem? hpt)
    have heq : v.parentIndex s.points = pt.published.getD v.base := by
      simp [VM.parentIndex, hroot, hk, hpt]
    cases hpub : pt.published with
    | none =>
      have heq : v.parentIndex s.points = v.base := by rw [heq, hpub]; rfl
      rw [heq]
      exact ⟨hv.base, fun _ => rfl, fun _ => ⟨hidx ▸ htr.pinned, hnamed⟩⟩
    | some i =>
      have heq : v.parentIndex s.points = i := by rw [heq, hpub]; rfl
      obtain ⟨hset, hpin, hivm, hsub⟩ := htr.published i hpub
      rw [heq]
      refine ⟨hset, fun h => Bool.noConfusion h, fun _ => ⟨hpin, fun r hr => ?_⟩⟩
      rcases hsub r hr with rfl | hr
      · rw [hivm, hidx]
        exact hvm
      · exact hnamed r (hidx ▸ hr)

theorem Inv.capture (hi : Inv s) {keep : Bool} (hs : s.capture h keep = some t) : Inv t := by
  obtain ⟨v, hv, hs⟩ := bind_eq_some_iff.mp hs
  obtain ⟨hg, rfl⟩ := ite_some_none_eq_some.mp hs
  have htr := hi.vms h v hv
  obtain ⟨hset, hown, hfork⟩ := hi.parentIndex htr
  refine hi.setVM hv rfl ?_ fun r hr => ?_
  · refine ⟨htr.nonce, htr.lived, htr.base, fun q hq hvm => Nat.lt_succ_of_lt (htr.below q hq hvm),
      htr.own, htr.fork, htr.owned, ?_, ?_, htr.landing⟩
    · rintro p ⟨⟩
      refine ⟨hset, Nat.lt_succ_self _, fun q hq hvm => ?_, fun hr => ?_, fun hr => (hfork hr).1,
        nofun, nofun⟩
      · cases hroot : v.root with
        | false => exact htr.below q (hown hroot ▸ hq) hvm
        | true => exact absurd hvm ((hfork hroot).2 q hq)
      · show (v.parentIndex s.points).ref.vm = v.id
        rw [hown hr]
        exact htr.own hr
    · intro w hw
      have hold := htr.waiting w hw
      refine { hold with next := Nat.lt_succ_of_lt hold.next, before := ?_ }
      rintro p ⟨⟩
      exact hold.next
  · have hold := hi.sound h v r hv hr
    refine ⟨hold.base, ?_, hold.waiting⟩
    rintro p ⟨⟩
    exact .inr ⟨hown, nofun⟩

theorem Inv.abandon (hi : Inv s) (hs : s.abandon h = some t) : Inv t := by
  obtain ⟨v, hv, rfl⟩ := map_eq_some_iff.mp hs
  have htr := hi.vms h v hv
  refine hi.setVM hv rfl ?_ fun r hr => ?_
  · refine { htr with publishing := nofun, waiting := fun w hw => ?_, landing := nofun }
    have hold := htr.waiting w hw
    exact { hold with before := nofun }
  · have hold := hi.sound h v r hv hr
    exact ⟨hold.base, nofun, hold.waiting⟩

end Sproutfs.Lineage
