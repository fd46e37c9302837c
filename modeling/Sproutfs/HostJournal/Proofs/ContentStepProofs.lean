import Sproutfs.HostJournal.Proofs.ContentProofs

/-!
# Stores, captures, batches and seals keep the bytes behind the entries
-/

namespace Sproutfs.HostJournal

open List Option Function Machine Page

variable {P B β δ : Type} {hash : β → δ} {s s' : Disk P B β δ} {k : Seal P B β} {p : P} {i : Nat}

namespace Content

/-! ## Pages of a seal -/

section

variable (h : Content hash s)

include h

/-- A page the guest shares with the seal is what every outcome over the seal's checkpoint gives it. -/
theorem seal_gives {n : Nat} (hc : Chosen s) (hk : s.standing = some k)
    (hf : s.Follow hash (k.base n) (k.part p).version p) (hheld : (s.pages p).held = true) :
    (k.base n).bytes p = (s.pages p).bytes ∧ ∀ l, l.Sublist (s.tail ++ s.batch) →
      (k.base n).replay (s.synced ++ l) p = (s.pages p).bytes := by
  have hver := hc.unstored k hk p hheld
  constructor
  · rw [bytes, hver]
    exact hf.base
  · exact fun l hl => hf.settled hver (h.recorded p) (hl.append_left s.synced).subset

theorem sel_gives (hc : Chosen s) (hk : s.standing = some k) (hsel : k.selected = true)
    (hheld : (s.pages p).held = true) :
    s.sel.bytes p = (s.pages p).bytes ∧ ∀ l, l.Sublist (s.tail ++ s.batch) →
      s.sel.replay (s.synced ++ l) p = (s.pages p).bytes := by
  obtain ⟨n, hst, heq⟩ := (h.standing k hk).sel hsel
  rw [heq]
  exact h.seal_gives hc hk (((h.standing k hk).paused n hst).2 (hc.selected k hk hsel).1 p) hheld

theorem reseal {stage : SealStage} {selected ending : Bool} (hk : s.standing = some k)
    (hend : k.ending → ending) (hok : SealOk hash s k → SealOk hash s { k with stage, selected, ending }) :
    Content hash { s with standing := some { k with stage, selected, ending } } := by
  refine { h with known := fun p => (h.known p).mono id ?_, standing := ?_ }
  · rintro ⟨k', hk', hend', hl⟩
    cases hk.symm.trans hk'
    exact ⟨_, rfl, hend hend', hl⟩
  · rintro _ ⟨⟩
    obtain ⟨hbytes, hle, hselections, horigin, hsel, hpaused, hunpaused⟩ := hok (h.standing k hk)
    exact ⟨hbytes, hle, hselections, horigin, hsel, hpaused, hunpaused⟩

theorem endSeal (hk : s.standing = some k) :
    Content hash { s with standing := some { k with ending := true } } := by
  refine h.reseal hk (fun _ => rfl) fun ok => ⟨ok.bytes, ok.le, ok.selections, ok.origin, ok.sel,
    fun n hn => ⟨(ok.paused n hn).1, ?_⟩, fun hn p => ⟨(ok.unpaused hn p).1, ?_⟩⟩
  · rintro ⟨⟩
  · rintro ⟨⟩

theorem repage (hstanding : s'.standing = s.standing) (hsel : s'.sel = s.sel)
    (hselections : s'.selections = s.selections)
    (hpages : ∀ p, (s'.pages p).version = (s.pages p).version ∧ (s'.pages p).history = (s.pages p).history ∧ (s'.pages p).held = (s.pages p).held ∧ (s'.pages p).dirty = (s.pages p).dirty)
    (hentries : s'.entries = s.entries) (hcaptures : s.captures ≤ s'.captures)
    (hbefore : ∀ n, s.Before n → s'.Before n)
    (hknown : ∀ p, Known hash (s'.pages p) (s'.Takes p) (s'.Ending p))
    (hfollow : ∀ X w p, s.Follow hash X w p → s'.Follow hash X w p) : Content hash s' := by
  have hgrows : ∀ p, Grows (s.pages p) (s'.pages p) := fun p => .of_eq (hpages p).1 (hpages p).2.1
  obtain ⟨w, hw, hmax, hall⟩ := h.selected
  refine ⟨hknown, ?_, ?_, ?_, ⟨w, hselections ▸ hw, hselections ▸ hmax, ?_⟩, ?_⟩
  · rw [hentries]
    exact fun p => (h.recorded p).grow (hgrows p)
  · rw [hentries]
    exact fun c hc => (h.ordinals c hc).trans hcaptures
  · rw [hsel]
    exact hbefore _ h.covered
  · rw [hsel]
    exact fun p => hfollow _ _ p (hall p)
  · intro k hk
    refine (h.standing k (hstanding ▸ hk)).grow hgrows ?_ hsel hselections hbefore
      (fun n _ _ hall p => hfollow _ _ p (hall p)) fun _ p => ⟨(hpages p).1, fun _ => ?_⟩
    · exact fun p hp => (hpages p).2.2.1.symm.trans hp
    · rw [(hpages p).2.2.1, (hpages p).2.2.2]
      exact id

end

/-! ## Faults and stores -/

section Pages

variable [DecidableEq P]

section

variable (h : Content hash s)

include h

theorem setPage {g : Page B β δ} (hg : Grows (s.pages p) g)
    (hheld : g.held = true → (s.pages p).held = true) (hknown : Known hash g (s.Takes p) (s.Ending p))
    (hsel : ∀ w, s.Follow hash s.sel w p → Follows hash p g s.synced s.tail s.batch s.sel w)
    (hseal : ∀ k n, s.standing = some k → k.stage = .paused n → k.ending = false → s.Follow hash (k.base n) (k.part p).version p → Follows hash p g s.synced s.tail s.batch (k.base n) (k.part p).version)
    (hstill : ∀ k, s.standing = some k → (∀ n, k.stage ≠ .paused n) → g.version = (s.pages p).version ∧ (k.ending = false → ((s.pages p).dirty = true → (s.pages p).held = true) → g.dirty = true → g.held = true)) :
    Content hash (s.setPage p g) := by
  have hgrows : ∀ q, Grows (s.pages q) ((s.setPage p g).pages q) := by
    intro q
    obtain ⟨rfl, hq⟩ | hq := setPage_pages s p q g <;> rw [hq]
    · exact hg
    · exact .of_eq rfl rfl
  refine ⟨?_, fun q => (h.recorded q).grow (hgrows q), h.ordinals, h.covered, ?_, ?_⟩
  · intro q
    obtain ⟨rfl, hq⟩ | hq := setPage_pages s p q g <;> rw [hq]
    · exact hknown
    · exact h.known q
  · obtain ⟨w, hw, hmax, hfollow⟩ := h.selected
    refine ⟨w, hw, hmax, fun q => ?_⟩
    unfold Disk.Follow
    obtain ⟨rfl, hq⟩ | hq := setPage_pages s p q g <;> rw [hq]
    · exact hsel _ (hfollow q)
    · exact hfollow q
  · intro k hk
    refine (h.standing k hk).grow hgrows ?_ rfl rfl (fun _ hn => hn) ?_ ?_
    · intro q
      obtain ⟨rfl, hq⟩ | hq := setPage_pages s p q g <;> rw [hq]
      · exact hheld
      · exact id
    · intro n hn hend hf q
      unfold Disk.Follow
      obtain ⟨rfl, hq⟩ | hq := setPage_pages s p q g <;> rw [hq]
      · exact hseal k n hk hn hend (hf q)
      · exact hf q
    · intro hn q
      obtain ⟨rfl, hq⟩ | hq := setPage_pages s p q g <;> rw [hq]
      · exact hstill k hk hn
      · exact ⟨rfl, fun _ => id⟩

theorem traps {known : Bool} (hs : s.traps p known = some s') : Content hash s' := by
  obtain ⟨hok, rfl⟩ := ite_some_none_eq_some.mp hs
  simp only [Bool.and_eq_true] at hok
  refine h.setPage (.of_eq version_trap history_trap) ?_ (h.known p).trap (fun w hf => hf.trap)
    (fun k n _ _ _ hf => hf.trap) ?_
  · rw [held_trap]
    exact nofun
  · intro k hk hn
    obtain ⟨n, hst⟩ := Disk.paused_of_guestRuns hok.1.1 hk
    exact absurd hst (hn n)

theorem stores [DecidableEq B] {b : B} {x : β} (hc : Chosen s) (hs : s.stores p b x = some s') :
    Content hash s' := by
  obtain ⟨hok, rfl⟩ := ite_some_none_eq_some.mp hs
  rw [Bool.and_eq_true] at hok
  refine h.setPage .store id ((h.known p).store hok.2 (hc.writable p hok.2))
    (fun w hf => hf.store hok.2) (fun k n _ _ _ hf => hf.store hok.2) ?_
  intro k hk hn
  obtain ⟨n, hst⟩ := Disk.paused_of_guestRuns hok.1 hk
  exact absurd hst (hn n)

/-! ## Pages that leave a seal -/

theorem retire (hc : Chosen s)
    (hsel : (s.pages p).held = true → s.sel.bytes p = (s.pages p).bytes ∧ ∀ l, l.Sublist (s.tail ++ s.batch) → s.sel.replay (s.synced ++ l) p = (s.pages p).bytes) :
    Content hash (s.setPage p (s.pages p).retired) := by
  refine h.setPage (.of_eq version_retired history_retired) ?_ (h.known p).retired
    (fun w hf => hf.retired hsel) ?_ ?_
  · rw [held_retired]
    exact nofun
  · exact fun k n hk hn hend hf => hf.retired (h.seal_gives hc hk hf)
  · intro k hk hn
    refine ⟨version_retired, fun _ hd hd' => ?_⟩
    rw [dirty_retired, Bool.and_eq_true, Bool.not_eq_true'] at hd'
    have := hd hd'.1
    rw [hd'.2] at this
    cases this

theorem settles [DecidableEq (B → β)] (hc : Chosen s) (hun : s.Unwritten (.settles p))
    (hs : s.settles p = some s') : Content hash s' := by
  obtain ⟨k, hk, hs⟩ := bind_eq_some_iff.mp hs
  obtain ⟨hok, rfl⟩ := ite_some_none_eq_some.mp hs
  simp only [Bool.and_eq_true, Bool.not_eq_true', decide_eq_true_eq] at hok
  obtain ⟨⟨⟨⟨-, hsel⟩, -⟩, hheld⟩, horigin⟩ := hok
  refine h.retire hc fun _ => ?_
  -- The page is back at what its copy was made from, which the selected checkpoint holds.
  have hbase : s.sel.bytes p = (s.pages p).bytes := by
    rw [(h.standing k hk).origin hsel p hheld _ horigin, (h.standing k hk).bytes p, bytes,
      hc.unstored k hk p hheld]
  refine ⟨hbase, fun l hl => (Base.replay_none fun c hc hcov => ?_).trans hbase⟩
  refine hun c ?_ hcov
  rw [append_assoc]
  exact (hl.append_left s.synced).subset hc

theorem finalizes (hc : Chosen s) (hs : s.finalizes p = some s') : Content hash s' := by
  obtain ⟨k, hk, hs⟩ := bind_eq_some_iff.mp hs
  obtain ⟨hok, rfl⟩ := ite_some_none_eq_some.mp hs
  rw [Bool.and_eq_true] at hok
  exact h.retire hc (h.sel_gives hc hk hok.2)

theorem restores (hs : s.restores p = some s') : Content hash s' := by
  obtain ⟨k, hk, hs⟩ := bind_eq_some_iff.mp hs
  obtain ⟨hok, rfl⟩ := ite_some_none_eq_some.mp hs
  rw [Bool.and_eq_true, Bool.not_eq_true'] at hok
  refine (h.endSeal hk).setPage (.of_eq version_restored history_restored) ?_
    ((h.endSeal hk).known p).restored (fun w hf => hf.restored (fun hh => ((h.known p).held hh).2) ?_)
    ?_ ?_
  · rw [held_restored]
    exact nofun
  · exact fun hh => (h.standing k hk).origin hok.2 p hh
  · rintro _ n ⟨⟩ _ ⟨⟩
  · rintro _ ⟨⟩ _
    exact ⟨version_restored, nofun⟩

end

end Pages

/-! ## Captures -/

theorem takes (h : Content hash s) (hs : s.takes i = some s') : Content hash s' := by
  obtain ⟨f, hf, hs⟩ := bind_eq_some_iff.mp hs
  split at hs
  case h_2 => cases hs
  case h_1 asked hst =>
    obtain ⟨hok, rfl⟩ := ite_some_none_eq_some.mp hs
    rw [Bool.and_eq_true, Disk.regionFree_iff] at hok
    have hfree := hok.1.1
    refine h.repage rfl rfl rfl ?_ rfl (Nat.le_succ _)
      (fun n hn => ⟨Nat.le_succ_of_le hn.1, fun _ => Nat.lt_succ_of_le hn.1⟩) ?_ ?_
    · intro p
      simp only [Disk.capture]
      split <;> exact ⟨rfl, rfl, rfl, rfl⟩
    · intro p
      show Known hash (if _ then _ else _) _ _
      split
      · next hp =>
        exact (h.known p).markCaptured ⟨i, _, _, rfl, setFlush_get_self hf, rfl, hp⟩
      · exact (h.known p).mono (fun ht => absurd ht (not_takes hfree)) id
    · intro X w p hf
      show Follows hash p (if _ then _ else _) _ _ _ _ _
      split
      · exact hf.markCaptured
      · exact hf

theorem reads [DecidableEq δ] {resident : P → Bool} (hinj : Injective hash)
    (h : Content hash s) (hc : Chosen s) (hs : s.reads hash i resident = some s') :
    Content hash s' := by
  obtain ⟨f, hf, hs⟩ := bind_eq_some_iff.mp hs
  split at hs <;> cases hs
  rename_i taken hst
  have hcap : s.capturing = some i := by
    have := (hc.flushes i f hf).2
    rw [hst] at this
    exact this.1
  have hsome : s.capturing.isSome = true := by rw [hcap]; rfl
  have hpages : ∀ p, Grows (s.pages p) ((s.readCaptured hash i f.began taken resident).pages p) := by
    intro p
    show Grows _ (if _ then _ else _)
    split
    · exact .of_eq (version_recordCaptured hash) (history_recordCaptured hash)
    · exact .of_eq rfl rfl
  have hfollow : ∀ (X : Base P B β) w p, X.covered < s.captures → s.Follow hash X w p →
      (s.readCaptured hash i f.began taken resident).Follow hash X w p :=
    fun X w p hcov hf => Follows.capture hinj hf (h.recorded p) (fun hh => ((h.known p).held hh).2)
      rfl hcov
  have hbefore : ∀ n, s.Before n → (s.readCaptured hash i f.began taken resident).Before n :=
    fun n hn => ⟨hn.1, nofun⟩
  have hentries : ∀ c ∈ (s.readCaptured hash i f.began taken resident).entries,
      c ∈ s.entries ∨ c = s.readCommit hash taken resident := by
    intro c hc
    simp only [Disk.entries, Disk.readCaptured, mem_append, mem_singleton] at hc ⊢
    tauto
  refine ⟨?_, ?_, ?_, hbefore _ h.covered, ?_, ?_⟩
  · intro p
    show Known hash (if _ then _ else _) _ _
    split
    · exact (h.known p).recordCaptured
    · next hp =>
      refine (h.known p).mono (fun ht => absurd ((hc.takes_iff hf hst).mp ht) hp) ?_
      rintro ⟨k, hk, hend, hl⟩
      refine ⟨k.strike s.pages taken, ?_, hend, ?_⟩
      · show s.standing.map _ = _
        rw [hk]
        rfl
      · simp [Seal.strike, hl, hp]
  · intro p c hc
    rcases hentries c hc with hc | rfl
    · exact (h.recorded p).grow (hpages p) c hc
    · refine ⟨(hpages p).version, fun b x hb => ?_⟩
      obtain ⟨htake, heq⟩ := part_some hb
      exact ⟨htake, heq.trans (congrFun ((hpages p).history _ (Nat.le_refl _)).symm b)⟩
  · intro c hc
    rcases hentries c hc with hc | rfl
    · exact h.ordinals c hc
    · exact Nat.le_refl _
  · obtain ⟨w, hw, hmax, hall⟩ := h.selected
    exact ⟨w, hw, hmax, fun p => hfollow _ _ p (h.covered.2 hsome) (hall p)⟩
  · intro k' hk'
    obtain ⟨k, hk, rfl⟩ := map_eq_some_iff.mp hk'
    refine (h.standing k hk).strike.grow hpages ?_ rfl rfl hbefore ?_ ?_
    · intro p
      show (if _ then _ else _ : Page B β δ).held = true → _
      split
      · rw [held_recordCaptured]
        exact id
      · exact id
    · exact fun n hn _ hall p =>
        hfollow _ _ p (((h.standing k hk).paused n hn).1.2 hsome) (hall p)
    · intro _ p
      constructor
      · show (if _ then _ else _ : Page B β δ).version = _
        split
        · exact version_recordCaptured hash
        · rfl
      · show _ → _ → (if _ then _ else _ : Page B β δ).dirty = true →
          (if _ then _ else _ : Page B β δ).held = true
        split
        · rw [dirty_recordCaptured, held_recordCaptured]
          exact fun _ => id
        · exact fun _ => id

section

variable (h : Content hash s)

include h

theorem readFails (hc : Chosen s) (hs : s.readFails i = some s') : Content hash s' := by
  obtain ⟨f, hf, hs⟩ := bind_eq_some_iff.mp hs
  split at hs <;> cases hs
  rename_i taken hst
  refine h.repage rfl rfl rfl ?_ rfl (Nat.le_refl _) (fun n hn => ⟨hn.1, nofun⟩)
    ?_ ?_
  · intro p
    simp only [Disk.giveBackCaptured]
    split <;> exact ⟨rfl, rfl, rfl, rfl⟩
  · intro p
    show Known hash (if _ then _ else _) _ _
    split
    · exact (h.known p).giveBack
    · next hp => exact (h.known p).mono (fun ht => absurd ((hc.takes_iff hf hst).mp ht) hp) id
  · intro X w p hf
    show Follows hash p (if _ then _ else _) _ _ _ _ _
    split
    · exact hf.giveBack
    · exact hf

/-! ## Batches -/

theorem lands (hc : Chosen s) (hs : s.lands = some s') : Content hash s' := by
  obtain ⟨hw, rfl⟩ := ite_some_none_eq_some.mp hs
  have hfree := hc.writing hw
  have hentries : s.synced ++ s.batch ++ ([] ++ []) ⊆ s.entries := by
    intro c hc
    simp only [append_nil, mem_append] at hc
    simp only [Disk.entries, mem_append]
    exact hc.imp_right .inr
  refine ⟨?_, fun p => (h.recorded p).mono hentries, fun c hc => h.ordinals c (hentries hc),
    h.covered, ?_, ?_⟩
  · exact fun p => (h.known p).mono (fun ht => absurd ht (not_takes hfree)) id
  · obtain ⟨w, hw, hmax, hall⟩ := h.selected
    exact ⟨w, hw, hmax, fun p => (hall p).lands⟩
  · intro k hk
    exact (h.standing k hk).grow (fun _ => .of_eq rfl rfl) (fun _ => id) rfl rfl (fun _ => id)
      (fun n _ _ hall p => (hall p).lands) (fun _ _ => ⟨rfl, fun _ => id⟩)

theorem fails (hc : Chosen s) (hs : s.fails = some s') : Content hash s' := by
  obtain ⟨hw, rfl⟩ := ite_some_none_eq_some.mp hs
  have hfree := hc.writing hw
  refine h.repage rfl rfl rfl ?_ ?_ (Nat.le_refl _) (fun _ => id) ?_
    fun X w p hf => hf.fails (h.recorded p)
  · intro p
    dsimp only
    split <;> exact ⟨rfl, rfl, rfl, rfl⟩
  · show s.synced ++ (s.tail ++ s.batch ++ []) = s.entries
    rw [append_nil, Disk.entries]
  · intro p
    show Known hash (if _ then _ else _) _ _
    split
    · exact (h.known p).giveBack
    · exact (h.known p).mono (fun ht => absurd ht (not_takes hfree)) id

/-! ## Seals -/

theorem seals (hc : Chosen s) (hs : s.seals = some s') : Content hash s' := by
  unfold Disk.seals at hs
  split at hs <;> cases hs
  rename_i hnone hfree
  have hheld := hc.free hnone
  have hpages : ∀ p, Grows (s.pages p) (s.pages p).sealedPage :=
    fun p => .of_eq version_sealedPage history_sealedPage
  obtain ⟨w, hw, hmax, hall⟩ := h.selected
  refine ⟨?_, fun p => (h.recorded p).grow (hpages p), h.ordinals, h.covered,
    ⟨w, hw, hmax, fun p => (hall p).sealedPage (hheld p)⟩, ?_⟩
  · intro p
    refine (h.known p).sealedPage (not_takes hfree) ?_
    rintro ⟨k, hk, -⟩
    rw [hnone] at hk
    cases hk
  · rintro _ ⟨⟩
    refine ⟨?_, ?_, ?_, ?_, ?_, ?_, ?_⟩
    · intro p
      rw [history_sealedPage]
      rfl
    · exact fun p => Nat.le_of_eq version_sealedPage.symm
    · exact fun v hv p => (hmax v hv p).trans (hall p).le
    · intro _ p hp o ho
      have hp' : (s.pages p).sealedPage.held = true := hp
      rw [held_sealedPage (hheld p)] at hp'
      exact ((hall p).origin hp' (hheld p) o ho).1
    · rintro ⟨⟩
    · rintro n ⟨⟩
    · intro _ p
      refine ⟨version_sealedPage, fun _ hd => ?_⟩
      rw [held_sealedPage (hheld p)]
      exact dirty_sealedPage.symm.trans hd

theorem records (hs : s.records = some s') : Content hash s' := by
  obtain ⟨k, hk, hs⟩ := bind_eq_some_iff.mp hs
  obtain ⟨hst, rfl⟩ := ite_some_none_eq_some.mp hs
  refine h.reseal hk id fun ok => ⟨ok.bytes, ok.le, ok.selections, ok.origin, fun hk => ?_,
    nofun, fun _ => ok.unpaused (by simp [hst])⟩
  obtain ⟨n, hn, -⟩ := ok.sel hk
  rw [hst] at hn
  cases hn

theorem pauses (hs : s.pauses = some s') : Content hash s' := by
  unfold Disk.pauses at hs
  split at hs
  case h_2 => cases hs
  case h_1 k hk hfree =>
    obtain ⟨hst, rfl⟩ := ite_some_none_eq_some.mp hs
    refine h.reseal hk id fun ok => ⟨ok.bytes, ok.le, ok.selections, ok.origin, fun hk => ?_, ?_,
      fun hn => absurd rfl (hn _)⟩
    · obtain ⟨n, hn, -⟩ := ok.sel hk
      rw [hst] at hn
      cases hn
    · rintro n ⟨⟩
      refine ⟨⟨Nat.le_refl _, fun hcap => ?_⟩, fun hend p => ?_⟩
      · rw [hfree] at hcap
        cases hcap
      · -- The guest has stored nothing since the seal, and every entry is covered.
        obtain ⟨hver, hd⟩ := ok.unpaused (by simp [hst]) p
        have hX : (k.part p).bytes = (s.pages p).bytes := by rw [ok.bytes p, bytes, hver]
        have hfollow : s.Follow hash (k.base s.captures) (s.pages p).version p :=
          .of_covered h.ordinals (h.recorded p) hX
            (fun d hdig => (h.known p).sums_of_still hdig (hd hend)) (hd hend)
        rw [hver] at hfollow
        exact hfollow

theorem selects (hs : s.selects = some s') : Content hash s' := by
  obtain ⟨k, hk, hs⟩ := bind_eq_some_iff.mp hs
  split at hs <;> cases hs
  rename_i covered hst hopen
  have hend : k.ending = false := (Bool.or_eq_false_iff.mp hopen).2
  obtain ⟨hbytes, hle, hselections, horigin, hsel, hpaused, hunpaused⟩ := h.standing k hk
  obtain ⟨hbefore, hfollow⟩ := hpaused covered hst
  have hmax : ∀ v ∈ s.selections ++ [fun p => (k.part p).version], ∀ p, v p ≤ (k.part p).version := by
    intro v hv p
    rcases mem_append.mp hv with hv | hv
    · exact hselections v hv p
    · rw [mem_singleton.mp hv]
  refine ⟨fun p => (h.known p).mono id ?_, h.recorded, h.ordinals, hbefore,
    ⟨_, mem_append_right _ mem_cons_self, hmax, hfollow hend⟩, ?_⟩
  · rintro ⟨k', hk', hend, hl⟩
    rw [hk] at hk'
    cases hk'
    exact ⟨_, rfl, hend, hl⟩
  · rintro _ ⟨⟩
    exact ⟨hbytes, hle, hmax, nofun, fun _ => ⟨covered, hst, rfl⟩, hpaused, hunpaused⟩

theorem retires (hc : Chosen s) (hs : s.retires = some s') : Content hash s' := by
  obtain ⟨k, hk, hs⟩ := bind_eq_some_iff.mp hs
  obtain ⟨hok, rfl⟩ := ite_some_none_eq_some.mp hs
  rw [Bool.and_eq_true] at hok
  have hpages : ∀ p, Grows (s.pages p) ((s.pages p).published (k.part p).list) :=
    fun p => .of_eq version_published history_published
  refine ⟨?_, fun p => (h.recorded p).grow (hpages p), h.ordinals, h.covered, ?_, ?_⟩
  · intro p
    refine (h.known p).published.mono id ?_
    rintro ⟨k', hk', hend, -⟩
    rw [hk] at hk'
    cases hk'
    rw [(hc.selected k hk hok.2).1] at hend
    cases hend
  · obtain ⟨w, hw, hmax, hall⟩ := h.selected
    exact ⟨w, hw, hmax, fun p => (hall p).published (h.sel_gives hc hk hok.2)⟩
  · rintro _ ⟨⟩

theorem abandons (hs : s.abandons = some s') : Content hash s' := by
  obtain ⟨k, hk, hs⟩ := bind_eq_some_iff.mp hs
  obtain ⟨hok, rfl⟩ := ite_some_none_eq_some.mp hs
  rw [Bool.and_eq_true, Bool.not_eq_true'] at hok
  have hpages : ∀ p, Grows (s.pages p) ((s.pages p).abandoned (k.part p)) :=
    fun p => .of_eq version_abandoned history_abandoned
  refine ⟨?_, fun p => (h.recorded p).grow (hpages p), h.ordinals, h.covered, ?_, ?_⟩
  · intro p
    refine (h.known p).abandoned ?_
    rintro ⟨k', hk', -, hl⟩
    rw [hk] at hk'
    cases hk'
    exact hl
  · obtain ⟨w, hw, hmax, hall⟩ := h.selected
    exact ⟨w, hw, hmax, fun p => (hall p).abandoned (fun hh => ((h.known p).held hh).2)
      ((h.standing k hk).origin hok.2 p)⟩
  · rintro _ ⟨⟩

end

/-! ## Runs -/

theorem opened (bytes : P → B → β) : Content hash (Disk.opened bytes : Disk P B β δ) := by
  refine ⟨fun p => ⟨?_, ?_, ?_⟩, ?_, ?_, ⟨Nat.le_refl _, ?_⟩, ⟨_, mem_singleton.mpr rfl, ?_, ?_⟩, ?_⟩
  · rintro ⟨⟩
  · rintro ⟨⟩
  · rintro d ⟨⟩
  · intro p c hc
    cases hc
  · intro c hc
    cases hc
  · rintro ⟨⟩
  · intro v hv p
    rw [mem_singleton.mp hv]
  · intro p
    refine .of_covered nofun nofun rfl ?_ ?_
    · rintro d ⟨⟩
    · rintro ⟨⟩
  · rintro k ⟨⟩

section Runs

variable [DecidableEq P] [DecidableEq B] [DecidableEq δ] [DecidableEq (B → β)]

theorem step {a : FlushAction P B β} (hinj : Injective hash) (h : Content hash s)
    (hc : Chosen s) (hun : s.Unwritten a) (hs : s.step hash a = some s') : Content hash s' := by
  cases a with
  | traps p known => exact h.traps hs
  | stores p b x => exact h.stores hc hs
  | arrives => exact h.arrives hs
  | peeks i | looks i | chooses i | refuses i | releases i =>
    -- The flush only moves on, and no capture is its.
    obtain ⟨f, hf, hs⟩ := bind_eq_some_iff.mp hs
    split at hs <;> cases hs <;> exact h.setFlush hf (by simp [*])
  | takes i => exact h.takes hs
  | reads i resident => exact h.reads hinj hc hs
  | readFails i => exact h.readFails hc hs
  | writes => exact h.writes hs
  | lands => exact h.lands hc hs
  | fails => exact h.fails hc hs
  | seals => exact h.seals hc hs
  | records => exact h.records hs
  | pauses => exact h.pauses hs
  | settles p => exact h.settles hc hun hs
  | selects => exact h.selects hs
  | finalizes p => exact h.finalizes hc hs
  | retires => exact h.retires hc hs
  | restores p => exact h.restores hs
  | abandons => exact h.abandons hs

end Runs

end Content

section Runs

variable [DecidableEq P] [DecidableEq B] [DecidableEq δ] [DecidableEq (B → β)]

end Runs

/-! ## A settle over an entry -/

end Sproutfs.HostJournal
