import Sproutfs.Control.Proofs.CallProofs

/-!
# The invariant holds in every run
-/

namespace Sproutfs.Control

open List Option Function CasStore

/-! ## What stays known -/

section Extends

variable {vm : List Char} {s s' : System} {l : List Action}

theorem System.Pinned.mono {q life : Nat} (h : s.Pinned q life) (he : s.Extends s') :
    s'.Pinned q life := by
  obtain ⟨v, hv, hl, hq⟩ := h
  exact ⟨v, he.versions v hv, hl, hq⟩

theorem Call.Knows.mono {id : Nat} {c : Call} (h : c.Knows s id) (he : s.Extends s') :
    c.Knows s' id := by
  cases c with
  | createPut record => exact he.nonces _ h
  | createRead record refused => exact he.nonces _ h
  | openRead o => exact he.nonces _ h
  | openPut o etag next => exact ⟨he.nonces _ h.1, h.2⟩
  | openReread o next => exact he.nonces _ h
  | removeDelete current => exact he.versions _ h
  | removeReread current => exact he.versions _ h
  | updatePut hn m etag next => exact ⟨he.holds _ _ h.1, he.nonces _ h.2.1, h.2.2⟩
  | updateReread hn m next => exact ⟨he.holds _ _ h.1, he.nonces _ h.2.1, h.2.2⟩
  | returned r =>
    cases r with
    | removed v => exact he.versions _ h
    | pinned q life => exact System.Pinned.mono h he
    | updated m r life =>
      obtain ⟨hd, v, hv, hl, hr⟩ := h
      exact ⟨hd, v, he.versions v hv, hl, hr⟩
    | created => trivial
    | opened o => trivial
    | released q r => trivial
    | failed e => trivial
  | removeRead => trivial
  | pinRead q => trivial
  | pinPut q wanted current => trivial
  | pinReread q wanted current => trivial
  | releaseRead q => trivial
  | releasePut q current => trivial
  | releaseReread q current => trivial
  | updateLock h m => trivial

theorem Handle.Tracks.mono {h : Nat} {hd : Handle} (ht : hd.Tracks s h) (he : s.Extends s') :
    hd.Tracks s' h where
  epoch := ht.epoch
  nonce := he.nonces _ ht.nonce
  version := by
    obtain ⟨v, hv, hl⟩ := ht.version
    exact ⟨v, he.versions v hv, hl⟩
  exact hf := he.versions _ (ht.exact hf)

theorem Authored.mono {id : Nat} {w : RecordWrite} (h : Authored s id w) (he : s.Extends s') :
    Authored s' id w := by
  cases w with
  | create next => exact he.nonces _ h
  | replace etag next =>
    refine h.imp (he.nonces _) ?_
    rintro ⟨v, hv, ht⟩
    exact ⟨v, he.versions v hv, ht⟩
  | remove etag => trivial

theorem Request.Lawful.mono {id : Nat} {q : Request} (hq : q.Lawful vm s id) (he : s.Extends s') :
    q.Lawful vm s' id where
  obeys := hq.obeys.mono he.versions
  authored := hq.authored.mono he
  via h hh := by
    obtain ⟨etag, next, hw, v, hv, ht, hold⟩ := hq.via h hh
    exact ⟨etag, next, hw, v, he.versions v hv, ht, he.holds _ _ hold⟩

theorem Landing.Stored.mono {l : Landing} (hl : l.Stored s) (he : s.Extends s')
    (hs : ∀ p ∈ s.sent, p ∈ s'.sent) : l.Stored s' where
  sent := hs _ hl.sent
  after v hv := ⟨he.versions v (hl.after v hv).1, (hl.after v hv).2⟩

end Extends

/-! ## Turns -/

section Turn

variable {vm : List Char} {s : System} {id : Nat} {t : Turn}

theorem System.mem_turn_sent {p : Nat × Request} (hp : p ∈ (s.turn id t).sent) :
    p ∈ s.sent ∨ ∃ q, t.request = some q ∧ p = (id, q) := by
  rcases mem_append.mp hp with hp | hp
  · exact .inl hp
  · obtain ⟨q, hq, rfl⟩ := map_eq_some_iff.mp (mem_toList.mp hp)
    exact .inr ⟨q, hq, rfl⟩

theorem System.turn_handles (h : Nat) (s : System) (id : Nat) (t : Turn) :
    (∃ hd, t.handle = some (h, hd) ∧ (s.turn id t).handles h = some hd) ∨
      (s.turn id t).handles h = s.handles h := by
  rcases ht : t.handle with _ | ⟨h', hd⟩
  · exact .inr (by simp only [System.turn, ht])
  · by_cases hh : h = h'
    · subst hh
      exact .inl ⟨hd, rfl, by simp only [System.turn, ht, update_self]⟩
    · exact .inr (by simp only [System.turn, ht, update_of_ne hh])

theorem System.turn_extends (hI : Inv vm s) (hid : ∀ r, s.calls id ≠ some (.returned r))
    (ht : t.Lawful vm s id) : s.Extends (s.turn id t) where
  versions _ hv := hv
  nonces _ hp := hp
  holds h epoch := by
    rintro ⟨hd, hh, rfl⟩
    rcases System.turn_handles h s id t with ⟨hd', hth, heq⟩ | heq
    · rcases (ht.handle h hd' hth).2 with ⟨hd₀, hh₀, he⟩ | ⟨rfl, -⟩
      · cases hh.symm.trans hh₀
        exact ⟨hd', heq, he.symm⟩
      · obtain ⟨r, hr⟩ := hI.returned h hd hh
        exact absurd hr (hid r)
    · exact ⟨hd, heq.trans hh, rfl⟩

theorem inv_turn (hI : Inv vm s) (hid : ∀ r, s.calls id ≠ some (.returned r))
    (ht : t.Lawful vm s id) : Inv vm (s.turn id t) := by
  have he := System.turn_extends hI hid ht
  refine ⟨hI.store, fun p hp => ?_, fun p hp => ?_, fun l hl => ?_, hI.authors, fun id' c hc => ?_,
    fun h hd hh => ?_, fun h hd hh => ?_, hI.nonces⟩
  · rcases System.mem_turn_sent hp with hp | ⟨q, hq, rfl⟩
    · exact (hI.sent p hp).mono he
    · exact (ht.request q hq).mono he
  · by_cases hi : p.1 = id
    · simp only [System.turn, hi, update_self, ne_eq, reduceCtorEq, not_false_eq_true]
    · simp only [System.turn, update_of_ne hi]
      rcases System.mem_turn_sent hp with hp | ⟨q, hq, rfl⟩
      · exact hI.started p hp
      · exact absurd rfl hi
  · exact (hI.landings l hl).mono he fun p hp => mem_append_left _ hp
  · by_cases hi : id' = id
    · subst hi
      cases (update_self ..).symm.trans hc
      exact ht.call.mono he
    · exact (hI.calls id' c ((update_of_ne hi ..).symm.trans hc)).mono he
  · rcases System.turn_handles h s id t with ⟨hd', hth, heq⟩ | heq
    · cases heq.symm.trans hh
      exact (ht.handle h hd hth).1.mono he
    · exact (hI.handles h hd (heq.symm.trans hh)).mono he
  · have hold : ∀ hd₀, s.handles h = some hd₀ → ∃ r, (s.turn id t).calls h = some (.returned r) := by
      intro hd₀ hh₀
      obtain ⟨r, hr⟩ := hI.returned h hd₀ hh₀
      have hne : h ≠ id := by
        rintro rfl
        exact hid r hr
      exact ⟨r, (update_of_ne hne ..).trans hr⟩
    rcases System.turn_handles h s id t with ⟨hd', hth, -⟩ | heq
    · rcases (ht.handle h hd' hth).2 with ⟨hd₀, hh₀, -⟩ | ⟨rfl, r, hr⟩
      · exact hold hd₀ hh₀
      · exact ⟨r, by simp only [System.turn, update_self, hr]⟩
    · exact hold hd (heq.symm.trans hh)

theorem inv_draw (hI : Inv vm s) {nonce : Nonce} (hn : s.Fresh id nonce) :
    Inv vm (s.draw id nonce) := by
  have he : s.Extends (s.draw id nonce) :=
    ⟨fun _ h => h, fun p hp => mem_append_left _ hp, fun _ _ h => h⟩
  refine ⟨hI.store, fun p hp => (hI.sent p hp).mono he, hI.started,
    fun l hl => (hI.landings l hl).mono he fun p hp => hp, fun v hv => ?_,
    fun id' c hc => (hI.calls id' c hc).mono he,
    fun h hd hh => (hI.handles h hd hh).mono he, hI.returned, fun p hp p' hp' => ?_⟩
  · obtain ⟨l, hl, hn⟩ := hI.authors v hv
    exact ⟨l, hl, he.nonces _ hn⟩
  rcases mem_append.mp hp with hp | hp <;> rcases mem_append.mp hp' with hp' | hp'
  · exact hI.nonces p hp p' hp'
  · cases mem_singleton.mp hp'
    exact ⟨fun h => absurd h (hn p hp).1, fun h => absurd h (hn p hp).2⟩
  · cases mem_singleton.mp hp
    exact ⟨fun h => absurd h.symm (hn p' hp').1, fun h => absurd h.symm (hn p' hp').2⟩
  · rw [mem_singleton.mp hp, mem_singleton.mp hp']
    exact ⟨fun _ => rfl, fun _ => rfl⟩

theorem mem_draw (s : System) (id : Nat) (nonce : Nonce) : (id, nonce) ∈ (s.draw id nonce).nonces :=
  mem_append_right _ (mem_singleton_self _)

theorem readRecord_ok {stored : Option RecordVersion} {v : RecordVersion}
    (h : readRecord vm stored = .ok v) : stored = some v := by
  cases stored with
  | none => cases h
  | some u =>
    simp only [readRecord] at h
    split at h
    · cases h
    · cases h; rfl

theorem Inv.seen (hI : Inv vm s) : Seen s (readRecord vm s.store.stored) :=
  fun _ hv => hI.store.mem_versions (readRecord_ok hv)

theorem onRead_lawful (hI : Inv vm s) {c : Call} {r : Except Error RecordVersion}
    (hk : c.Knows s id) (hr : Seen s r) (ht : c.onRead id s.handles r = some t) :
    t.Lawful vm s id := by
  cases c with
  | createRead record refused => cases ht; exact createReread_lawful hk hr
  | openRead o => cases ht; exact openRead_lawful hk hr
  | openReread o next => cases ht; exact openReread_lawful hk hr
  | removeRead => cases ht; exact removeRead_lawful hr
  | removeReread current => cases ht; exact removeReread_lawful hk
  | pinRead q => cases ht; exact pinRead_lawful hr
  | pinReread q wanted current => cases ht; exact pinReread_lawful hr
  | releaseRead q => cases ht; exact releaseRead_lawful hr
  | releaseReread q current => cases ht; exact releaseReread_lawful
  | updateReread h m next =>
    obtain ⟨hd, hh, rfl⟩ := map_eq_some_iff.mp ht
    obtain ⟨hd', hh', he⟩ := hk.1
    cases hh.symm.trans hh'
    exact updateReread_lawful (hI.handles h hd hh) ⟨hd, hh, rfl⟩ hk he.symm hr
  | createPut record => cases ht
  | openPut o etag next => cases ht
  | removeDelete current => cases ht
  | pinPut q wanted current => cases ht
  | releasePut q current => cases ht
  | updateLock h m => cases ht
  | updatePut h m etag next => cases ht
  | returned r => cases ht

theorem Inv.stored_of_reply (hI : Inv vm s) {c : Call} {v : RecordVersion}
    (hr : s.MayReply id c (.ok (some v))) :
    v ∈ s.store.versions ∧ c.awaits.bind stores = some v.value := by
  obtain ⟨l, hl, -, haw, hafter⟩ := hr
  obtain ⟨hv, hst⟩ := (hI.landings l hl).after v hafter
  exact ⟨hv, by rw [haw]; exact hst⟩

theorem onReply_lawful (hI : Inv vm s) {c : Call} {r : Reply} (hk : c.Knows s id)
    (hr : s.MayReply id c r) (ht : c.onReply id s.handles r = some t) : t.Lawful vm s id := by
  rcases r with (_ | v) | _ | _
  · cases c <;> cases ht
    exact .of_call hk
  · obtain ⟨hv, hst⟩ := hI.stored_of_reply hr
    cases c with
    | createPut record =>
      cases ht
      cases hst
      exact .of_handle trivial hv hk
    | openPut o etag next =>
      cases ht
      cases hst
      exact .of_handle trivial hv (hk.2 ▸ hk.1)
    | pinPut q wanted current =>
      cases ht
      have hp := Option.some.inj hst
      exact .of_call ⟨v, hv, rfl, hp ▸ Record.mem_withPin.mpr (.inl rfl)⟩
    | releasePut q current => cases ht; exact .of_call trivial
    | updatePut h m etag next =>
      obtain ⟨hd, hh, rfl⟩ := map_eq_some_iff.mp ht
      obtain ⟨hd', hh', he⟩ := hk.1
      cases hh.symm.trans hh'
      cases hst
      exact finish_lawful ⟨hk.2.2, v, hv, rfl, rfl⟩ (settle_tracks hv he.symm hk.2.1) ⟨hd, hh, rfl⟩
    | _ => cases ht
  -- A refusal and a lost reply lead to a read that needs no more than the write did.
  · cases c <;> cases ht <;> exact .of_call (by first | exact hk | exact hk.1 | trivial)
  · cases c <;> cases ht <;> exact .of_call (by first | exact hk | exact hk.1)

end Turn

/-! ## Steps and runs -/

section Steps

variable {vm : List Char} {s s' : System}

/-- A version that lands brings the nonce of its call, or that of a version before it. -/
theorem inv_land_authors (hI : Inv vm s) {id : Nat} {q : Request} {store' : Store Record ETag}
    (hq : (id, q) ∈ s.sent) (hl : Lands s.store q.write store') :
    ∀ v ∈ store'.versions, ∃ l ∈ s.landings ++ [⟨id, q, s.store.stored, store'.stored⟩],
      (l.call, v.value.nonce) ∈ s.nonces := by
  have hold : ∀ v ∈ s.store.versions, ∃ l ∈ s.landings ++ [⟨id, q, s.store.stored, store'.stored⟩],
      (l.call, v.value.nonce) ∈ s.nonces := fun v hv => by
    obtain ⟨l, hl, hn⟩ := hI.authors v hv
    exact ⟨l, mem_append_left _ hl, hn⟩
  have hnew : (⟨id, q, s.store.stored, store'.stored⟩ : Landing) ∈
      s.landings ++ [⟨id, q, s.store.stored, store'.stored⟩] :=
    mem_append_right _ (mem_singleton_self _)
  have ha := (hI.sent _ hq).authored
  generalize hw : q.write = w at hl ha
  cases hl with
  | create next t hs ht =>
    intro v hv
    rcases mem_append.mp hv with hv | hv
    · exact hold v hv
    · cases mem_singleton.mp hv
      exact ⟨_, hnew, ha⟩
  | replace u next t hs ht =>
    intro v hv
    rcases mem_append.mp hv with hv | hv
    · exact hold v hv
    · cases mem_singleton.mp hv
      rcases ha with ha | ⟨u', hu', htag, hn⟩
      · exact ⟨_, hnew, ha⟩
      · exact hn ▸ hold u' hu'
  | remove u hs => exact hold

theorem inv_land (hI : Inv vm s) {id : Nat} {q : Request} {store' : Store Record ETag}
    (hq : (id, q) ∈ s.sent) (hl : Lands s.store q.write store') :
    Inv vm (s.landing id q store') := by
  have he : s.Extends (s.landing id q store') :=
    ⟨fun v hv => hl.mem_versions hv, fun _ h => h, fun _ _ h => h⟩
  refine ⟨hI.store.lands (hI.sent _ hq).obeys hl, fun p hp => (hI.sent p hp).mono he, hI.started,
    fun l hm => ?_, inv_land_authors hI hq hl, fun id' c hc => (hI.calls id' c hc).mono he,
    fun h hd hh => (hI.handles h hd hh).mono he, hI.returned, hI.nonces⟩
  rcases mem_append.mp hm with hm | hm
  · exact (hI.landings l hm).mono he fun p hp => hp
  · cases mem_singleton.mp hm
    refine ⟨hq, fun v hv => ?_⟩
    generalize q.write = w at hl
    cases hl with
    | create next t hs ht => cases hv; exact ⟨mem_append_right _ (mem_singleton_self _), rfl⟩
    | replace u next t hs ht =>
      cases hv; exact ⟨mem_append_right _ (mem_singleton_self _), rfl⟩
    | remove u hs => cases hv

theorem inv_close (hI : Inv vm s) {h : Nat} {hd : Handle} (hh : s.handles h = some hd) :
    Inv vm { s with
      handles := Function.update s.handles h (some { hd with closed := true }) } := by
  have hcases : ∀ h' hd', Function.update s.handles h (some { hd with closed := true }) h' = some hd' →
      ∃ hd₀, s.handles h' = some hd₀ ∧ (hd' = hd₀ ∨ hd' = { hd₀ with closed := true }) := by
    intro h' hd' hh'
    by_cases hi : h' = h
    · subst hi
      cases (update_self ..).symm.trans hh'
      exact ⟨hd, hh, .inr rfl⟩
    · exact ⟨hd', (update_of_ne hi ..).symm.trans hh', .inl rfl⟩
  have he : s.Extends { s with
      handles := Function.update s.handles h (some { hd with closed := true }) } := by
    refine ⟨fun _ hv => hv, fun _ hp => hp, ?_⟩
    rintro h' epoch ⟨hd', hh', rfl⟩
    by_cases hi : h' = h
    · subst hi
      cases hh.symm.trans hh'
      exact ⟨_, update_self .., rfl⟩
    · exact ⟨hd', (update_of_ne hi ..).trans hh', rfl⟩
  refine ⟨hI.store, fun p hp => (hI.sent p hp).mono he, hI.started,
    fun l hl => (hI.landings l hl).mono he fun p hp => hp, hI.authors,
    fun id c hc => (hI.calls id c hc).mono he, fun h' hd' hh' => ?_, fun h' hd' hh' => ?_, hI.nonces⟩
  · obtain ⟨hd₀, hh₀, rfl | rfl⟩ := hcases h' hd' hh'
    · exact (hI.handles h' hd' hh₀).mono he
    · have ht := (hI.handles h' hd₀ hh₀).mono he
      exact { ht with }
  · obtain ⟨hd₀, hh₀, -⟩ := hcases h' hd' hh'
    exact hI.returned h' hd₀ hh₀

theorem inv_step {a : Action} (hI : Inv vm s) (h : Step vm s a s') : Inv vm s' := by
  have hnone : ∀ {id : Nat}, s.calls id = none → ∀ r, s.calls id ≠ some (.returned r) :=
    fun hid r hr => by rw [hid] at hr; cases hr
  cases h with
  | create id selected published nonce hid hn hsize =>
    exact inv_turn (inv_draw hI hn) (hnone hid) (create_lawful (mem_draw s id nonce))
  | opens id o hid hn hsize =>
    exact inv_turn (inv_draw hI hn) (hnone hid) (startOpen_lawful (mem_draw s id o.nonce))
  | remove id hid => exact inv_turn hI (hnone hid) (.of_call trivial)
  | pin id q hid => exact inv_turn hI (hnone hid) (.of_call trivial)
  | release id q hid hq => exact inv_turn hI (hnone hid) (.of_call trivial)
  | update id h m hid => exact inv_turn hI (hnone hid) (.of_call trivial)
  | lock id h m hd hc hh hfree =>
    refine inv_turn hI (fun r hr => ?_) (update_lawful (hI.handles h hd hh) ⟨hd, hh, rfl⟩)
    cases hc.symm.trans hr
  | read id c t hc ht =>
    refine inv_turn hI (fun r hr => ?_) (onRead_lawful hI (hI.calls id c hc) hI.seen ht)
    cases hc.symm.trans hr
    cases ht
  | readFails id c t hc ht =>
    refine inv_turn hI (fun r hr => ?_)
      (onRead_lawful hI (hI.calls id c hc) (fun v hv => by cases hv) ht)
    cases hc.symm.trans hr
    cases ht
  | reply id c r t hc hr ht =>
    refine inv_turn hI (fun r' hr' => ?_) (onReply_lawful hI (hI.calls id c hc) hr ht)
    cases hc.symm.trans hr'
    cases ht
  | land index tag id q store' hq hl htag => exact inv_land hI (mem_of_getElem? hq) hl
  | close h hd hh => exact inv_close hI hh

theorem inv_empty : Inv vm {} :=
  ⟨sound_empty, by simp, by simp, by simp, by simp, by simp, by simp, by simp, by simp⟩

theorem Reaches.inv (h : Reaches vm s) : Inv vm s := by
  induction h with
  | refl => exact inv_empty
  | tail _ hstep ih =>
    obtain ⟨a, ha⟩ := hstep
    exact inv_step ih ha

end Steps

/-! ## What one call has written -/

section Derives

variable {vm : List Char} {s s' : System} {id : Nat} {P : Record → Record → Prop} {q : Request}
  {store' : Store Record ETag}

theorem System.Derives.frame (h : s.Derives id P) (hl : s'.landed id = s.landed id)
    (hs : ∀ p ∈ s'.sent, p.1 = id → p ∈ s.sent)
    (hv : ∀ v ∈ s.store.versions, v ∈ s'.store.versions) : s'.Derives id P where
  sent p hp hid := by
    obtain ⟨u, hu, hw⟩ := h.sent p (hs p hp hid) hid
    exact ⟨u, hv u hu, hw⟩
  landed l hm := h.landed l (hl ▸ hm)

theorem System.Derives.turn {t : Turn} (h : s.Derives id P)
    (hq : ∀ q, t.request = some q →
      ∃ u ∈ s.store.versions, ∃ next, q.write = .replace u.tag next ∧ P u.value next) :
    (s.turn id t).Derives id P where
  sent p hp hid := by
    rcases System.mem_turn_sent hp with hp | ⟨q, hreq, rfl⟩
    · exact h.sent p hp hid
    · exact hq q hreq
  landed := h.landed

theorem mem_landed {l : Landing} (hl : l ∈ s.landings) (hid : l.call = id) : l ∈ s.landed id :=
  mem_filter.mpr ⟨hl, decide_eq_true hid⟩

theorem Inv.landed_eq_nil (hI : Inv vm s) (hid : s.calls id = none) : s.landed id = [] := by
  refine filter_eq_nil_iff.mpr fun l hl hcall => ?_
  have hcall : l.call = id := of_decide_eq_true hcall
  exact hI.started _ (hI.landings l hl).sent (hcall ▸ hid)

theorem Inv.derives_nothing (hI : Inv vm s) (hid : s.calls id = none) : s.Derives id P where
  sent p hp hp1 := absurd (hp1 ▸ hid) (hI.started p hp)
  landed l hl := by
    rw [hI.landed_eq_nil hid] at hl
    cases hl

theorem System.landed_landing (id' : Nat) :
    (s.landing id q store').landed id' = s.landed id' ++
      if id = id' then [⟨id, q, s.store.stored, store'.stored⟩] else [] := by
  simp only [System.landed, System.landing, filter_append, filter_singleton]
  by_cases h : id = id' <;> simp [h]

/-- A write lands on a version with the tag of the one it was made from, which has its value. -/
theorem System.Derives.landing (h : s.Derives id P) (hI : Inv vm s) (hq : (id, q) ∈ s.sent)
    (hl : Lands s.store q.write store') : (s.landing id q store').Derives id P where
  sent p hp hid := by
    obtain ⟨u, hu, hw⟩ := h.sent p hp hid
    exact ⟨u, hl.mem_versions hu, hw⟩
  landed l hm := by
    rw [System.landed_landing, if_pos rfl] at hm
    rcases mem_append.mp hm with hm | hm
    · exact h.landed l hm
    · cases mem_singleton.mp hm
      obtain ⟨u, hu, next, hw, hP⟩ := h.sent _ hq rfl
      rw [hw] at hl
      generalize htag : u.tag = tag at hl
      cases hl with
      | replace b _ t hs ht =>
        have hb : u.value = b.value := hI.store.tags u hu b (hI.store.mem_versions hs) htag
        exact ⟨b, _, hs, rfl, hb ▸ hP⟩

end Derives

/-! ## Computed runs -/

section Computed

variable {vm : List Char} {s s' : System} {id : Nat}

theorem System.begin_some {t : Turn} (h : s.begin id t = some s') :
    s.calls id = none ∧ s' = s.turn id t := by
  simp only [System.begin, ite_none_right_eq_some, Option.some.injEq] at h
  exact ⟨h.1, h.2.symm⟩

theorem System.beginDrawn_some {nonce : Nonce} {t : Turn} (h : s.beginDrawn id nonce t = some s') :
    s.calls id = none ∧ s.Fresh id nonce ∧ nonce.length = nonceSize ∧
      s' = (s.draw id nonce).turn id t := by
  simp only [System.beginDrawn, ite_none_right_eq_some, Option.some.injEq] at h
  exact ⟨h.1.1, h.1.2.1, h.1.2.2, h.2.symm⟩

theorem System.perform_step {a : Action} (h : s.perform vm a = some s') : Step vm s a s' := by
  cases a with
  | create id selected published nonce =>
    obtain ⟨hid, hn, hsize, rfl⟩ := System.beginDrawn_some h
    exact .create id selected published nonce hid hn hsize
  | opens id o =>
    obtain ⟨hid, hn, hsize, rfl⟩ := System.beginDrawn_some h
    exact .opens id o hid hn hsize
  | remove id =>
    obtain ⟨hid, rfl⟩ := System.begin_some h
    exact .remove id hid
  | pin id q =>
    obtain ⟨hid, rfl⟩ := System.begin_some h
    exact .pin id q hid
  | release id q =>
    simp only [System.perform, ite_none_right_eq_some] at h
    obtain ⟨hid, rfl⟩ := System.begin_some h.2
    exact .release id q hid h.1
  | update id hn m =>
    obtain ⟨hid, rfl⟩ := System.begin_some h
    exact .update id hn m hid
  | lock id =>
    simp only [System.perform] at h
    split at h
    · split at h
      · simp only [ite_none_right_eq_some, Option.some.injEq] at h
        obtain ⟨hfree, rfl⟩ := h
        exact .lock id _ _ _ ‹_› ‹_› hfree
      · cases h
    · cases h
  | read id =>
    simp only [System.perform, bind_eq_bind, bind_eq_some_iff, Option.some.injEq] at h
    obtain ⟨c, hc, t, ht, rfl⟩ := h
    exact .read id c t hc ht
  | readFails id =>
    simp only [System.perform, bind_eq_bind, bind_eq_some_iff, Option.some.injEq] at h
    obtain ⟨c, hc, t, ht, rfl⟩ := h
    exact .readFails id c t hc ht
  | reply id r =>
    simp only [System.perform, bind_eq_bind, bind_eq_some_iff,
      ite_none_right_eq_some, Option.some.injEq] at h
    obtain ⟨c, hc, t, ht, hr, rfl⟩ := h
    exact .reply id c r t hc hr ht
  | land index tag =>
    simp only [System.perform, bind_eq_bind, bind_eq_some_iff, Option.some.injEq] at h
    obtain ⟨⟨id, q⟩, hp, store', hl, rfl⟩ := h
    obtain ⟨hlands, htag⟩ := Store.lands_of_land hl
    exact .land index tag id q store' hp hlands htag
  | close h' =>
    simp only [System.perform, bind_eq_bind, bind_eq_some_iff, Option.some.injEq] at h
    obtain ⟨hd, hh, rfl⟩ := h
    exact .close h' hd hh

theorem System.runWhile_steps {ok : System → Action → Bool} (h : s.runWhile vm ok l = some s') :
    Relation.ReflTransGen (fun s s' => ∃ a, Step vm s a s' ∧ ok s a) s s' := by
  induction l generalizing s with
  | nil => cases h; exact .refl
  | cons a l ih =>
    simp only [System.runWhile, ite_none_right_eq_some, bind_eq_bind,
      bind_eq_some_iff] at h
    obtain ⟨hok, s₁, h₁, h₂⟩ := h
    exact .head ⟨a, System.perform_step h₁, hok⟩ (ih h₂)

theorem Leads.of_allowed {P : System → Action → Prop}
    (h : Relation.ReflTransGen (fun s s' => ∃ a, Step vm s a s' ∧ P s a) s s') :
    Leads vm s s' := by
  refine Relation.ReflTransGen.mono ?_ _ _ h
  rintro s₁ s₂ ⟨a, ha, -⟩
  exact ⟨a, ha⟩

theorem System.run_leads (h : (s.run vm l).isSome) : Leads vm s ((s.run vm l).get h) :=
  .of_allowed (System.runWhile_steps (some_get h).symm)

end Computed

end Sproutfs.Control
