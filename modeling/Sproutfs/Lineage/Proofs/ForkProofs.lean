import Sproutfs.Lineage.Proofs.PublishProofs

/-!
# Forks, deletions and sweeps keep the invariant

The steps of a fork, from the pin of its point to its record, those that delete, and with them the
whole of a run.
-/

namespace Sproutfs.Lineage

open List Option Function Control

variable {s t : System} {h q : Nat}

/-! ## Pins and fork points -/

theorem Inv.pinBy (hi : Inv s) {v : VM} (hv : s.vms h = some v) (hroot : v.root = false)
    (hs : s.pinBy v v.base.ref.sequence = some t) :
    Inv t ∧ Grows s t ∧ v.base.ref ∈ t.pins ∧ t.vms = s.vms ∧ t.points = s.points := by
  have htr := hi.vms h v hv
  have href : (⟨v.id, v.base.ref.sequence⟩ : Ref) = v.base.ref := by rw [← htr.own hroot]
  unfold System.pinBy at hs
  split at hs
  case isTrue hin =>
    cases hs
    exact ⟨hi, .of_eq, href ▸ hin, rfl, rfl⟩
  case isFalse =>
    obtain ⟨r, hr, hs⟩ := bind_eq_some_iff.mp hs
    split at hs
    case h_1 => cases hs
    case h_2 r' hr' =>
      cases hs
      cases pinning_eq hr'
      have hst : s.Stands ⟨v.id, v.base.ref.sequence⟩ := by
        rw [href]
        exact ⟨v.base, htr.base, rfl, (hi.sound h v r hv hr).base⟩
      exact ⟨hi.pinned (held_iff.mp hr).1 hst, .pinned_state .., href ▸ mem_cons_self ..,
        rfl, rfl⟩

theorem Inv.forkPoint (hi : Inv s) {unpublished known : Bool}
    (hs : s.forkPoint h unpublished known = some t) : Inv t := by
  obtain ⟨v, hv, hs⟩ := bind_eq_some_iff.mp hs
  obtain ⟨hg, hs⟩ := ite_none_right_eq_some.mp hs
  obtain ⟨u, hu, rfl⟩ := map_eq_some_iff.mp hs
  obtain ⟨⟨⟨hfree, hroot⟩, hwait⟩, -⟩ : ((v.free = true ∧ v.root = false) ∧ v.waiting = none) ∧
      validSequence v.epoch v.next = true := by
    simpa using hg
  have hpub : v.publishing = none := by
    simp only [VM.free, Bool.and_eq_true, isNone_iff_eq_none] at hfree
    exact hfree.1
  obtain ⟨hiu, g, hpin, hvms, hpoints⟩ := hi.pinBy hv hroot hu
  have hvu : u.vms h = some v := hvms ▸ hv
  have htr := hiu.vms h v hvu
  cases known with
  | false =>
    refine hiu.setVM hvu rfl ?_ fun r hr => ?_
    · refine { htr with below := fun q hq hvm => Nat.lt_succ_of_lt (htr.below q hq hvm), publishing
        := fun p hp => ?_, waiting := fun w hw => ?_ }
      · cases hpub.symm.trans hp
      · cases hwait.symm.trans hw
    · have hold := hiu.sound h v r hvu hr
      exact ⟨hold.base, hold.publishing, hold.waiting⟩
  | true =>
    -- The point is there before the handle waits to publish it.
    have hpt : (⟨v.base, if unpublished then none else some v.base⟩ : ForkPoint).Tracks u := by
      refine ⟨htr.base, hpin, fun i hi => ?_⟩
      cases unpublished with
      | true => cases hi
      | false =>
        cases hi
        exact ⟨htr.base, hpin, rfl, fun r hr => .inr hr⟩
    have hi₁ := hiu.addPoint hpt
    rw [← hpoints]
    set point : ForkPoint := ⟨v.base, if unpublished then none else some v.base⟩ with hpoint
    have htr₁ := hi₁.vms h v hvu
    have hat : (u.points ++ [point])[u.points.length]? = some point := by simp
    refine hi₁.setVM hvu rfl ?_ fun r hr => ?_
    · refine ⟨htr₁.nonce, htr₁.lived, htr₁.base,
        fun q hq hvm => Nat.lt_succ_of_lt (htr₁.below q hq hvm), htr₁.own, htr₁.fork, htr₁.owned,
        fun p hp => ?_, fun w hw => ?_, htr₁.landing⟩
      · cases hpub.symm.trans hp
      · cases unpublished with
        | false => cases hw
        | true =>
          cases hw
          refine ⟨htr₁.base, Nat.lt_succ_self _, htr₁.below, htr₁.own hroot, hroot,
            ⟨point, hat, rfl⟩, fun p hp => ?_⟩
          cases hpub.symm.trans hp
    · have hold := hi₁.sound h v r hvu hr
      refine ⟨hold.base, hold.publishing, fun w hw => .inr ?_⟩
      cases unpublished with
      | false => cases hw
      | true =>
        cases hw
        rfl

theorem Inv.publishPoint (hi : Inv s) (hs : s.publishPoint h = some t) : Inv t := by
  obtain ⟨v, hv, hs⟩ := bind_eq_some_iff.mp hs
  obtain ⟨w, hw, hs⟩ := bind_eq_some_iff.mp hs
  obtain ⟨-, rfl⟩ := ite_some_none_eq_some.mp hs
  have htr := hi.vms h v hv
  have hwtr := htr.waiting w hw
  refine hi.setVM hv rfl ?_ fun r hr => ?_
  · refine { htr with publishing := ?_, waiting := nofun }
    rintro p ⟨⟩
    refine ⟨hwtr.parent, hwtr.next, hwtr.below, fun _ => hwtr.own, fun hf => ?_, ?_, nofun⟩
    · cases hwtr.root.symm.trans hf
    · rintro k ⟨⟩
      exact ⟨hwtr.root, hwtr.point⟩
  · have hold := hi.sound h v r hv hr
    refine ⟨hold.base, ?_, nofun⟩
    rintro p ⟨⟩
    exact (hold.waiting w hw).imp_right fun heq => ⟨fun _ => heq, nofun⟩

theorem Inv.pinPoint (hi : Inv s) (hs : s.pinPoint h = some t) : Inv t := by
  obtain ⟨v, hv, hs⟩ := bind_eq_some_iff.mp hs
  obtain ⟨k, hk, hs⟩ := bind_eq_some_iff.mp hs
  obtain ⟨u, hu, rfl⟩ := map_eq_some_iff.mp hs
  obtain ⟨hroot, pt, hpt, hvm, hsub⟩ := (hi.vms h v hv).landing k hk
  obtain ⟨hiu, g, hpin, hvms, hpoints⟩ := hi.pinBy hv hroot hu
  have hvu : u.vms h = some v := hvms ▸ hv
  have htr := hiu.vms h v hvu
  have hi₁ : Inv { u with points := u.points.modify k fun pt => { pt with published := some v.base } } := by
    refine hiu.setPoints (fun m old hm => ?_) fun x hx => ?_
    · rw [getElem?_modify, hm]
      by_cases hmk : k = m
      · exact ⟨{ old with published := some v.base }, by simp [hmk], rfl⟩
      · exact ⟨old, by simp [hmk], rfl⟩
    · obtain ⟨m, hm⟩ := mem_iff_getElem?.mp hx
      rw [getElem?_modify] at hm
      obtain ⟨old, hold, rfl⟩ := map_eq_some_iff.mp hm
      have hotr := hiu.points old (mem_of_getElem? hold)
      by_cases hmk : k = m
      · subst hmk
        rw [hpoints, hpt] at hold
        cases hold
        simp only [if_true]
        refine ⟨hotr.index, hotr.pinned, ?_⟩
        rintro i ⟨⟩
        exact ⟨htr.base, hpin, hvm, hsub⟩
      · simp only [if_neg hmk]
        exact hotr
  rw [← hpoints]
  have htr₁ := hi₁.vms h v hvu
  refine hi₁.setVM hvu rfl ?_ fun r hr => ?_
  · refine { htr₁ with publishing := ?_, waiting := ?_, landing := nofun }
    · intro p hp
      have hold := htr₁.publishing p hp
      exact { hold with }
    · intro w hw
      have hold := htr₁.waiting w hw
      exact { hold with }
  · have hold := hi₁.sound h v r hvu hr
    exact { hold with }

theorem pinNext_of_mem {r : Record} (h : q ∈ r.pinned) : pinNext q r = r := by
  simp [pinNext, Record.withPin, Record.isPinned, h]

theorem Inv.pin (hi : Inv s) {id : List Char} (hs : s.pin id q = some t) : Inv t := by
  obtain ⟨r, hr, hs⟩ := bind_eq_some_iff.mp hs
  obtain ⟨⟨wanted, r'⟩, hpin, rfl⟩ := map_eq_some_iff.mp hs
  have hrec := hi.records id r hr
  rcases pinnedRecord_cases hpin with ⟨rfl, hmem⟩ | ⟨rfl, hsource⟩
  · have h := hi.pinned hr (hi.pins _ ((hrec.pinned wanted).mp hmem))
    rw [System.pinned, pinNext_of_mem hmem] at h
    exact h
  · refine hi.pinned hr ?_
    rcases hsource with ⟨rfl, hc⟩ | ⟨k, hk, rfl⟩
    · exact hrec.selected hc
    · exact (hrec.kept k hk).2

theorem Inv.inherit (hi : Inv s) {ref : Ref} (hs : s.inherit ref = some t) : Inv t := by
  obtain ⟨hpin, hs⟩ := ite_none_right_eq_some.mp hs
  obtain ⟨index, hfind, rfl⟩ := map_eq_some_iff.mp hs
  obtain ⟨hmem, rfl⟩ := Catalogue.find_mem hfind
  refine hi.addPoint ⟨?_, hpin, nofun⟩
  obtain ⟨i, hset, href, -⟩ := hi.pins _ hpin
  rwa [← hi.refs i hset.1 index hmem href]

/-! ## The record of a fork -/

theorem Inv.fork (hi : Inv s) {point epoch : Nat} {id : List Char} {nonce : Nonce} (hguard : s.Clean id)
    (hs : s.fork h id point epoch nonce = some t) : Inv t := by
  obtain ⟨pt, hpt, hs⟩ := bind_eq_some_iff.mp hs
  obtain ⟨hg, hs⟩ := ite_none_right_eq_some.mp hs
  obtain ⟨r, hr, rfl⟩ := map_eq_some_iff.mp hs
  obtain ⟨⟨hnone, hfree⟩, hnonce⟩ :
      ((s.records id = none ∧ s.vms h = none) ∧ nonce ∉ s.nonces) := by simpa using hg
  cases createdRecord_eq hr
  obtain ⟨hclean, hundel⟩ := hguard
  have hptr := hi.points pt (mem_of_getElem? hpt)
  have hvm : pt.index.ref.vm ≠ id := hclean _ hptr.pinned
  have hnamed := hi.unnamed hclean hptr.index.1 hvm
  have hwhole : s.Whole pt.index := hi.relied_whole hptr.index (.pinned hptr.pinned)
  have hlived : ∀ x, s.lives x ≤ update s.lives id (s.lives id + 1) x := by
    intro x
    by_cases hx : x = id
    · rw [hx, update_self]
      exact Nat.le_succ _
    · rw [update_of_ne hx]
  have hpos : 0 < update s.lives id (s.lives id + 1) id := by
    rw [update_self]
    exact Nat.succ_pos _
  refine hi.seat id h _
    { id := id, epoch := _, nonce := nonce, next := _, base := pt.index, owned := none, root := true,
      point := some point } _ hfree hnonce rfl rfl hlived _ rfl ?_ ?_ ?_
  · exact fun _ _ => ⟨rfl, hpos, le_rfl, mem_cons_self .., fun q =>
      ⟨fun hq => (not_mem_nil hq).elim, fun hq => (hclean _ hq rfl).elim⟩,
      fun k hk => (not_mem_nil hk).elim, fun hc => Bool.noConfusion hc, hundel⟩
  · exact ⟨mem_cons_self .., hpos, hptr.index, fun q hq hqvm => absurd hqvm (hnamed q hq),
      fun hf => Bool.noConfusion hf, fun _ => ⟨point, pt, rfl, hpt, rfl, hvm, hnamed⟩,
      nofun, nofun, nofun, nofun⟩
  · exact ⟨hwhole, nofun, nofun⟩

theorem Inv.forkFails (hi : Inv s) (hs : s.forkFails h = some t) : Inv t := by
  obtain ⟨v, hv, hs⟩ := bind_eq_some_iff.mp hs
  obtain ⟨-, rfl⟩ := ite_some_none_eq_some.mp hs
  have hvms : ∀ k w, update s.vms h none k = some w → s.vms k = some w :=
    fun k w hw => (Machine.update_none hw).2
  exact (hi.clearRecord v.id).change
    { vms := fun k w hw => .inl (hvms k w hw)
      alone := fun k k' w w' hw hw' _ => .inl ⟨hvms k w hw, hvms k' w' hw'⟩
      sound := fun k w r hw hr => .inr ⟨hvms k w hw, r, hr, le_rfl⟩ }

end Sproutfs.Lineage
