import Sproutfs.Control.Proofs.FencingProofs

/-!
# No pin is lost

A pin is acknowledged to its caller in a life of the record. From then on the record has it for as
long as that life lasts, a release never takes effect over it, and the record that a removal takes
away lists it.
-/

namespace Sproutfs.Control

open List CasStore

/-- Some call was told that this checkpoint is pinned, in this life of the record. -/
def System.Acknowledged (s : System) (sequence life : Nat) : Prop :=
  ∃ id, s.calls id = some (.returned (.pinned sequence life)) ∨
    ∃ r, s.calls id = some (.returned (.updated (.pin sequence) r life))

structure NoLostPin (s : System) : Prop where
  /-- The record of that life has the pin. -/
  stored : ∀ sequence life v, s.Acknowledged sequence life → s.store.stored = some v →
    v.life = life → sequence ∈ v.value.pinned
  /-- A release that was acknowledged did not take effect over a pin. -/
  released : ∀ id sequence r, s.calls id = some (.returned (.released sequence r)) →
    ∀ l ∈ s.landed id, ∃ b, l.before = some b ∧ sequence ∉ b.value.pinned
  /-- What a removal returns, when its own delete took effect, is what the delete removed, and it
  lists every pin of that life. -/
  removed : ∀ id v l, s.calls id = some (.returned (.removed v)) → l ∈ s.landed id →
    l.request.write = .remove v.tag → ∃ b, l.before = some b ∧ v.value = b.value ∧
      ∀ sequence, s.Acknowledged sequence b.life → sequence ∈ v.value.pinned

section Pins

variable {vm : List Char} {s s' : System} {r : Except Error RecordVersion} {q : Nat}
  {handles : Nat → Option Handle} {store' : Store Record ETag}

theorem Inv.pinned_of_acknowledged (hI : Inv vm s) {life : Nat} (h : s.Acknowledged q life) :
    s.Pinned q life := by
  obtain ⟨id, hc | ⟨r, hc⟩⟩ := h
  · exact hI.calls id _ hc
  · obtain ⟨hdone, v, hv, hl, hr⟩ := hI.calls id _ hc
    exact ⟨v, hv, hl, hr ▸ hdone⟩

theorem Inv.pinned_stored (hI : Inv vm s) {v : RecordVersion} (hs : s.store.stored = some v)
    (h : s.Pinned q v.life) : q ∈ v.value.pinned := by
  obtain ⟨u, hu, hl, hq⟩ := h
  have hsub : ∀ x ∈ u.value.pinned, x ∈ v.value.pinned :=
    hI.store.newest (R := fun a b : Record => ∀ x ∈ a.pinned, x ∈ b.pinned) (fun _ _ h => h)
      (fun _ _ _ h₁ h₂ x hx => h₂ x (h₁ x hx)) (fun _ _ h => h.pinned) hs hu hl
  exact hsub q hq

/-! ## Releases -/

/-- What a release writes: the checkpoint is kept no more, and it was not pinned. -/
def Released (sequence : Nat) (r r' : Record) : Prop :=
  r' = releaseNext sequence r ∧ sequence ∉ r.pinned

def ReleaseInv (s : System) : Prop :=
  ∀ id c q, s.calls id = some c → c.family = some (.release q) → s.Derives id (Released q)

variable {id : Nat} {t : Turn}

theorem releaseInv_turn (hR : ReleaseInv s)
    (ht : ∀ q, t.call.family = some (.release q) → (s.turn id t).Derives id (Released q)) :
    ReleaseInv (s.turn id t) := by
  intro id' c q hc hq
  by_cases hi : id' = id
  · subst hi
    cases (Function.update_self ..).symm.trans hc
    exact ht q hq
  · refine (hR id' c q ((Function.update_of_ne hi ..).symm.trans hc) hq).frame rfl ?_ fun _ h => h
    intro p hp hid
    rcases System.mem_turn_sent hp with hp | ⟨r, -, rfl⟩
    · exact hp
    · exact absurd hid.symm hi

theorem Turn.Stays.release {f : Family} (h : t.Stays f) (hq : t.call.family = some (.release q)) :
    f = .release q := by
  rcases h with h | ⟨e, he, -⟩
  · exact Option.some.inj (h.symm.trans hq)
  · rw [he] at hq
    cases hq

/-- The read of a release sends its put only over a record without the pin. -/
theorem releaseRead_derives (hr : Seen s r) (h : s.Derives id (Released q)) :
    (s.turn id (releaseRead q r)).Derives id (Released q) := by
  refine h.turn fun p hp => ?_
  cases r with
  | error e => cases hp
  | ok v =>
    simp only [releaseRead] at hp
    split at hp
    · cases hp
    split at hp
    · cases hp
    · rename_i hpin
      obtain ⟨-, rfl⟩ := putRequest_some hp
      exact ⟨v, hr v rfl, _, rfl, rfl, fun hm => hpin (decide_eq_true hm)⟩

theorem releaseReread_request {current : Record} : (releaseReread q current r).request = none := by
  cases r with
  | error e => rfl
  | ok v =>
    simp only [releaseReread]
    split
    · rfl
    · split <;> rfl

theorem onRead_derives {c : Call} (hR : ReleaseInv s) (hs : Seen s r) (hp : Plain r)
    (hc : s.calls id = some c) (ht : c.onRead id handles r = some t)
    (hq : t.call.family = some (.release q)) : (s.turn id t).Derives id (Released q) := by
  obtain ⟨f, hf, hst⟩ := onRead_stays hp ht
  have hfam : c.family = some (.release q) := hst.release hq ▸ hf
  have hd := hR id c q hc hfam
  cases c with
  | releaseRead q' =>
    cases hfam
    cases ht
    exact releaseRead_derives hs hd
  | releaseReread q' current =>
    cases ht
    refine hd.turn fun p hreq => ?_
    rw [releaseReread_request] at hreq
    cases hreq
  | releasePut q' current => cases ht
  | returned res => cases ht
  | _ => cases hfam

theorem onReply_derives {c : Call} {r : Reply} (hR : ReleaseInv s) (hc : s.calls id = some c)
    (ht : c.onReply id handles r = some t) (hq : t.call.family = some (.release q)) :
    (s.turn id t).Derives id (Released q) := by
  obtain ⟨f, hf, hst⟩ := onReply_stays ht
  have hfam : c.family = some (.release q) := hst.release hq ▸ hf
  have hd := hR id c q hc hfam
  cases c with
  | releasePut q' current =>
    refine hd.turn fun p hreq => ?_
    rcases r with (_ | v) | _ | _ <;> cases ht <;> cases hreq
  | releaseRead q' => cases ht
  | releaseReread q' current => cases ht
  | returned res => cases ht
  | _ => cases hfam

theorem releaseInv_step {a : Action} (hI : Inv vm s) (hR : ReleaseInv s) (h : Step vm s a s') :
    ReleaseInv s' := by
  have hdraw : ∀ {id nonce}, ReleaseInv (s.draw id nonce) := fun id c q hc hq =>
    (hR id c q hc hq).frame rfl (fun _ hp _ => hp) fun _ h => h
  cases h with
  | create id selected published nonce hid hn hsize =>
    refine releaseInv_turn hdraw fun q hq => ?_
    unfold create at hq
    split at hq <;> cases hq
  | opens id o hid hn hsize =>
    refine releaseInv_turn hdraw fun q hq => ?_
    unfold startOpen at hq
    split at hq
    · cases hq
    · split at hq <;> cases hq
  | remove id hid => exact releaseInv_turn hR nofun
  | pin id q hid => exact releaseInv_turn hR nofun
  | update id h m hid => exact releaseInv_turn hR nofun
  | release id q hid hseq =>
    refine releaseInv_turn hR fun q' hq => ?_
    exact (hI.derives_nothing hid).turn fun p hp => (Option.some_ne_none p hp.symm).elim
  | lock id h m hd hc hh hfree =>
    refine releaseInv_turn hR fun q hq => ?_
    cases (update_stays h hd m).release hq
  | read id c t hc ht =>
    exact releaseInv_turn hR fun q => onRead_derives hR hI.seen (readRecord_plain _ _) hc ht
  | readFails id c t hc ht =>
    exact releaseInv_turn hR fun q =>
      onRead_derives hR (fun v hv => by cases hv) (fun e he => by cases he; rfl) hc ht
  | reply id c r t hc hr ht => exact releaseInv_turn hR fun q => onReply_derives hR hc ht
  | land index tag id q store' hq hl htag =>
    intro id' c q' hc hq'
    have hd := hR id' c q' hc hq'
    by_cases hi : id = id'
    · subst hi
      exact hd.landing hI (mem_of_getElem? hq) hl
    · refine hd.frame ?_ (fun _ hp _ => hp) fun _ => hl.mem_versions
      rw [System.landed_landing, if_neg hi, append_nil]
  | close h hd hh =>
    exact fun id c q hc hq => (hR id c q hc hq).frame rfl (fun _ hp _ => hp) fun _ h => h

/-! ## Removals -/

/-- A removal that took effect ended a life whose pins are all in what it removed. -/
def RemoveInv (s : System) : Prop :=
  ∀ l ∈ s.landings, ∀ t, l.request.write = .remove t →
    ∃ b ∈ s.store.versions, l.before = some b ∧ b.tag = t ∧
      (∀ q, s.Pinned q b.life → q ∈ b.value.pinned) ∧
      ∀ v, s.store.stored = some v → b.life < v.life

theorem RemoveInv.frame (h : RemoveInv s) (hs : s'.store = s.store)
    (hl : s'.landings = s.landings) : RemoveInv s' := by
  unfold RemoveInv System.Pinned
  rw [hs, hl]
  exact h

theorem removed_push {b v : RecordVersion} (hversions : store'.versions = s.store.versions ++ [v])
    (hlife : b.life < v.life) (h : ∀ q, s.Pinned q b.life → q ∈ b.value.pinned)
    (hq : ∃ u ∈ store'.versions, u.life = b.life ∧ q ∈ u.value.pinned) : q ∈ b.value.pinned := by
  obtain ⟨u, hu, hul, hup⟩ := hq
  rw [hversions] at hu
  rcases mem_append.mp hu with hu | hu
  · exact h q ⟨u, hu, hul, hup⟩
  · rw [mem_singleton.mp hu] at hul
    exact absurd hul hlife.ne'

theorem removeInv_land {q : Request} (hI : Inv vm s) (hM : RemoveInv s)
    (hl : Lands s.store q.write store') : RemoveInv (s.landing id q store') := by
  intro l hm t hw
  rcases mem_append.mp hm with hm | hm
  · obtain ⟨b, hb, hbefore, htag, hpins, hlater⟩ := hM l hm t hw
    refine ⟨b, hl.mem_versions hb, hbefore, htag, ?_⟩
    generalize q.write = w at hl
    cases hl with
    | create next t' hs ht =>
      have hlt : b.life < s.store.life + 1 := Nat.lt_succ_of_le (hI.store.lives b hb)
      exact ⟨fun x hx => removed_push rfl hlt hpins hx, fun v hv => by cases hv; exact hlt⟩
    | replace v next t' hs ht =>
      have hlt : b.life < s.store.life := (hI.store.stored v hs).2 ▸ hlater v hs
      exact ⟨fun x hx => removed_push rfl hlt hpins hx, fun v hv => by cases hv; exact hlt⟩
    | remove v hs => exact ⟨hpins, nofun⟩
  · cases mem_singleton.mp hm
    rw [hw] at hl
    cases hl with
    | remove v hs =>
      exact ⟨v, hI.store.mem_versions hs, hs, rfl, fun x hx => hI.pinned_stored hs hx, nofun⟩

theorem removeInv_step {a : Action} (hI : Inv vm s) (hM : RemoveInv s) (h : Step vm s a s') :
    RemoveInv s' := by
  cases h with
  | land index tag id q store' hq hl htag => exact removeInv_land hI hM hl
  | _ => exact hM.frame rfl rfl

theorem Reaches.pinInv (h : Reaches vm s) : Inv vm s ∧ ReleaseInv s ∧ RemoveInv s := by
  induction h with
  | refl => exact ⟨inv_empty, by simp [ReleaseInv], by simp [RemoveInv]⟩
  | tail _ hstep ih =>
    obtain ⟨a, ha⟩ := hstep
    exact ⟨inv_step ih.1 ha, releaseInv_step ih.1 ih.2.1 ha, removeInv_step ih.1 ih.2.2 ha⟩

end Pins

/-- Over every interleaving of pins, keeps, releases, selections, opens and removals, no pin is
lost. -/
theorem acknowledged_pins_kept (vm : List Char) (s : System) (h : Reaches vm s) : NoLostPin s := by
  obtain ⟨hI, hR, hM⟩ := h.pinInv
  refine ⟨?_, ?_, ?_⟩
  · rintro q life v hack hs rfl
    exact hI.pinned_stored hs (hI.pinned_of_acknowledged hack)
  · intro id q r hc l hl
    obtain ⟨b, v, hb, -, hP⟩ := (hR id _ q hc rfl).landed l hl
    exact ⟨b, hb, hP.2⟩
  · intro id v l hc hl hw
    have hv : v ∈ s.store.versions := hI.calls id _ hc
    obtain ⟨b, hb, hbefore, htag, hpins, -⟩ := hM l (mem_filter.mp hl).1 v.tag hw
    have hval : v.value = b.value := hI.store.tags v hv b hb htag.symm
    exact ⟨b, hbefore, hval, fun q hq => hval ▸ hpins q (hI.pinned_of_acknowledged hq)⟩

/-! ## Pins beside a removal -/

def sampleCreated : List Action :=
  [.create 0 (sequence 1 1) true (sampleNonce 0), .land 0 10,
    .reply 0 (.ok (some ⟨1, sampleRecord, 10⟩))]

/-- The new VM's record once its first checkpoint is pinned. -/
def samplePinned : Record := { sampleRecord with pinned := [sequence 1 1] }

/-- A pin, and then a removal that reads it. -/
def pinnedRemoved : List Action :=
  sampleCreated ++ [.pin 1 0, .read 1, .land 1 11, .reply 1 (.ok (some ⟨1, samplePinned, 11⟩)),
    .remove 2, .read 2, .land 2 0, .reply 2 (.ok none)]

theorem pinnedRemoved_runs : (System.run sampleVM {} pinnedRemoved).isSome := rfl

theorem acknowledged_pins_kept_sample :
    ∃ s, Reaches sampleVM s ∧ s.Acknowledged (sequence 1 1) 1 ∧
      s.calls 2 = some (.returned (.removed ⟨1, samplePinned, 11⟩)) ∧ NoLostPin s :=
  ⟨_, System.run_leads pinnedRemoved_runs, ⟨1, .inl rfl⟩, rfl,
    acknowledged_pins_kept sampleVM _ (System.run_leads pinnedRemoved_runs)⟩

/-- A removal's delete is lost on its way, and a pin is acknowledged. -/
def removalLost : List Action :=
  sampleCreated ++ [.remove 1, .read 1, .reply 1 .lost,
    .pin 2 0, .read 2, .land 2 11, .reply 2 (.ok (some ⟨1, samplePinned, 11⟩))]

/-- Another removal takes the record, and the first finds it gone. -/
def removalFindsNone : List Action :=
  [.remove 3, .read 3, .land 3 0, .reply 3 (.ok none), .read 1]

/-- A pin lands, and a removal takes the record before the pin's caller hears of it. -/
def pinLandsUnheard : List Action :=
  sampleCreated ++ [.pin 1 0, .read 1, .land 1 11, .remove 2, .read 2, .land 2 0,
    .reply 2 (.ok none)]

theorem removalLost_runs : (System.run sampleVM {} removalLost).isSome := rfl

theorem removalFindsNone_runs :
    (((System.run sampleVM {} removalLost).get removalLost_runs).run sampleVM
      removalFindsNone).isSome := rfl

theorem pinLandsUnheard_runs : (System.run sampleVM {} pinLandsUnheard).isSome := rfl

theorem pinHeard_runs :
    (((System.run sampleVM {} pinLandsUnheard).get pinLandsUnheard_runs).run sampleVM
      [.reply 1 (.ok (some ⟨1, samplePinned, 11⟩))]).isSome := rfl

/-- A removal returns a record without a pin that was acknowledged while the record was there, and a
pin is acknowledged after the removal returned. -/
theorem removal_misses_pin :
    (∃ s₁ s₂ v, Reaches sampleVM s₁ ∧ Leads sampleVM s₁ s₂ ∧ s₁.Acknowledged (sequence 1 1) 1 ∧
      s₁.store.stored.isSome ∧ s₂.calls 1 = some (.returned (.removed v)) ∧ v.life = 1 ∧
      sequence 1 1 ∉ v.value.pinned) ∧
    ∃ s₁ s₂ v, Reaches sampleVM s₁ ∧ Leads sampleVM s₁ s₂ ∧
      s₁.calls 2 = some (.returned (.removed v)) ∧
      (∃ c, s₁.calls 1 = some c ∧ ∀ r, c ≠ .returned r) ∧
      s₂.calls 1 = some (.returned (.pinned (sequence 1 1) 1)) :=
  ⟨⟨_, _, ⟨1, sampleRecord, 10⟩, System.run_leads removalLost_runs,
      System.run_leads removalFindsNone_runs, ⟨2, .inl rfl⟩, rfl, rfl, rfl, not_mem_nil⟩,
    ⟨_, _, ⟨1, samplePinned, 11⟩, System.run_leads pinLandsUnheard_runs,
      System.run_leads pinHeard_runs, rfl, ⟨_, rfl, nofun⟩, rfl⟩⟩

end Sproutfs.Control
