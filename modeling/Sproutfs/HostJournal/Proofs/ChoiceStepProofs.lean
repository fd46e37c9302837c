import Sproutfs.HostJournal.Proofs.ChoiceProofs

/-!
# Flushes, captures, batches and seals keep track of every store
-/

namespace Sproutfs.HostJournal

open List Option Machine Page

variable {P B β δ : Type} {s s' : Disk P B β δ} {p : P} {v i : Nat} {taken resident : P → Bool}
  {f : Flush P B β} {F : Flush P B β → Flush P B β} {a : FlushAction P B β}

theorem Flush.holds_land (f : Flush P B β) : f.land.holds = f.holds := by
  unfold Flush.land
  split
  · next h => simp [Flush.holds, h]
  · rfl

theorem Flush.holds_lose (f : Flush P B β) : f.lose.holds = f.holds := by
  unfold Flush.lose
  split
  · next h => simp [Flush.holds, h]
  · rfl

namespace Chosen

/-! ## Choosing the pages -/

section

variable (h : Chosen s)

include h

theorem arrives (hs : s.arrives = some s') : Chosen s' := by
  cases hs
  have hold : ∀ (j : Nat) (f : Flush P B β), s.flushes[j]? = some f →
      (s.flushes ++ [{ began := fun p => (s.pages p).version }])[j]? = some f := by
    intro j f hj
    rw [List.getElem?_append_left (List.getElem?_eq_some_iff.mp hj).1]
    exact hj
  have hnew : ∀ (j : Nat) (f : Flush P B β),
      (s.flushes ++ [{ began := fun p => (s.pages p).version }])[j]? = some f →
      s.flushes[j]? = some f ∨ j = s.flushes.length ∧ f = { began := fun p => (s.pages p).version } := by
    intro j f hj
    rcases getElem?_append .. ▸ hj with hj
    split at hj
    · exact .inl hj
    · next hge =>
      rw [getElem?_singleton] at hj
      split at hj
      · next hz => exact .inr ⟨by omega, (Option.some.inj hj).symm⟩
      · cases hj
  have hfwd : ∀ p, s.Takes p →
      ({ s with flushes := s.flushes ++ [{ began := fun p => (s.pages p).version }] } :
        Disk P B β δ).Takes p :=
    fun p ⟨j, f, pages, hj, hf, hst⟩ => ⟨j, f, pages, hj, hold j f hf, hst⟩
  refine h.reflush (fun p => ⟨?_, hfwd p⟩) ?_ ?_
  · rintro ⟨j, f, pages, hj, hf, hst, hp⟩
    rcases hnew j f hf with hf | ⟨-, rfl⟩
    · exact ⟨j, f, pages, hj, hf, hst, hp⟩
    · cases hst
  · intro c hc
    obtain ⟨j, f, hf, hst⟩ := h.batch c hc
    exact ⟨j, f, hold j f hf, hst⟩
  · intro j f hf
    rcases hnew j f hf with hf | ⟨-, rfl⟩
    · refine (h.flushes j f hf).keep ⟨fun _ h => h, fun _ h => h, fun _ => Nat.le_refl _, fun _ _ h => h⟩
        (Nat.ne_of_lt (List.getElem?_eq_some_iff.mp hf).1) (fun _ _ => ?_) (.inr fun _ h => h) fun _ _ k hk => ⟨k, hk, rfl⟩
      rintro p v - (ht | ⟨l, g, c, hg, hc⟩)
      · exact .inr (.inl (hfwd p ht))
      · exact .inr (.inr ⟨l, g, c, hold l g hg, hc⟩)
    · exact ⟨fun _ => Nat.le_refl _, trivial⟩

theorem peeks (hcalm : s.Calm (.peeks i)) (hs : s.peeks i = some s') : Chosen s' := by
  obtain ⟨f, hf, hs⟩ := bind_eq_some_iff.mp hs
  split at hs <;> cases hs
  rename_i hst
  refine h.moveFlush hf (by simp [hst]) (by simp [Flush.holds, hst]) (by simp) ?_
  refine ⟨(h.flushes i f hf).1, fun k hk => ?_⟩
  have hk' : s.standing = some k := hk
  rw [hk', bind_some, if_neg (hcalm k hk')]

theorem looks (hs : s.looks i = some s') : Chosen s' := by
  obtain ⟨f, hf, hs⟩ := bind_eq_some_iff.mp hs
  split at hs <;> cases hs
  rename_i seen hst
  obtain ⟨hbegan, hseen⟩ := h.flushes i f hf
  rw [hst] at hseen
  refine h.moveFlush hf (by simp [hst]) (by simp [Flush.holds, hst]) (by simp) ⟨hbegan, fun p => ?_⟩
  have hfinds := setFlush_finds (s := s) (.looked fun p => (s.pages p).unjournaled ||
    (s.standing.any fun k => some k.number = seen && (k.part p).list)) hf (by simp [hst])
    (by simp [Flush.holds, hst])
  rcases h.pending p with hd | hu | hl | ht | hb
  · exact .inl (hd.le (hbegan p))
  · exact .inr (.inl (by simp [hu]))
  · -- The seal that stands is the one the flush read.
    obtain ⟨k, hk, hl⟩ := listed_iff.mp hl
    refine .inr (.inl ?_)
    simp [hk, hl, (hseen k hk).symm]
  · rcases hfinds p _ (hbegan p) (.inl ht) with h | h
    · exact .inl h
    · exact .inr (.inr h)
  · obtain ⟨c, hc, htaken, hle⟩ := hb.le (hbegan p)
    obtain ⟨j, g, hg, hcap⟩ := h.batch c hc
    have hheld : s.HeldFrom p (f.began p) := ⟨j, g, c, hg, by simp [Flush.holds, hcap], htaken, hle⟩
    rcases hfinds p _ (hbegan p) (.inr hheld) with h | h
    · exact .inl h
    · exact .inr (.inr h)

theorem chooses (hs : s.chooses i = some s') : Chosen s' := by
  obtain ⟨f, hf, hs⟩ := bind_eq_some_iff.mp hs
  split at hs <;> cases hs
  rename_i pages hst hfree
  obtain ⟨hbegan, hlooked⟩ := h.flushes i f hf
  rw [hst] at hlooked
  refine h.moveFlush hf (by simp [hst]) (by simp [Flush.holds, hst]) (by simp) ⟨hbegan, fun p => ?_⟩
  rcases hlooked p with hd | hp | ht | hheld
  · exact .inl hd
  · exact .inr (by simp [hp])
  · exact absurd ht (not_takes hfree)
  · exact .inr (by simp [hheld.inflight])

theorem refuses (hs : s.refuses i = some s') : Chosen s' := by
  obtain ⟨f, hf, hs⟩ := bind_eq_some_iff.mp hs
  have hok : (∀ pages, f.stage ≠ .taking pages) ∧ f.holds = none ∧ s' = s.setFlush i f.began .failed := by
    split at hs
    case h_5 => cases hs
    all_goals
      next hst =>
      cases hs
      exact ⟨by simp [hst], by simp [Flush.holds, hst], rfl⟩
  obtain ⟨htaking, hholds, rfl⟩ := hok
  exact h.moveFlush hf htaking hholds (by simp) ⟨(h.flushes i f hf).1, trivial⟩

/-! ## Capturing -/

theorem takes_iff (hf : s.flushes[i]? = some f) (hst : f.stage = .taking taken) :
    s.Takes p ↔ taken p = true := by
  have hcap : s.capturing = some i := by
    have := (h.flushes i f hf).2
    rw [hst] at this
    exact this.1
  constructor
  · rintro ⟨j, g, pages, hj, hg, hst', hp⟩
    rw [hcap] at hj
    cases hj
    rw [hf] at hg
    cases hg
    rw [hst] at hst'
    cases hst'
    exact hp
  · exact fun hp => ⟨i, f, taken, hcap, hf, hst, hp⟩

/-- A capture takes pages: each page the flush asked for that is not taken was captured since, or is
durable. -/
theorem capture {asked : P → Bool} (hf : s.flushes[i]? = some f) (hst : f.stage = .chosen asked)
    (hfree : s.capturing = none) (hidle : s.writing = false)
    (htaken : ∀ p, asked p → taken p = false → (s.pages p).unjournaled = false ∧ s.listed p = false) :
    Chosen (s.capture i f.began taken) := by
  obtain ⟨hbegan, hchosen⟩ := h.flushes i f hf
  rw [hst] at hchosen
  have hpage : ∀ p, taken p = true ∧ (s.capture i f.began taken).pages p = (s.pages p).markCaptured ∨
      taken p = false ∧ (s.capture i f.began taken).pages p = s.pages p := by
    intro p
    by_cases hp : taken p = true
    · exact .inl ⟨hp, if_pos hp⟩
    · exact .inr ⟨by simpa using hp, if_neg hp⟩
  have hver : ∀ p, ((s.capture i f.began taken).pages p).version = (s.pages p).version := by
    intro p
    rcases hpage p with ⟨-, heq⟩ | ⟨-, heq⟩ <;> rw [heq]
    rfl
  have hheld : ∀ p, ((s.capture i f.began taken).pages p).held = (s.pages p).held := by
    intro p
    rcases hpage p with ⟨-, heq⟩ | ⟨-, heq⟩ <;> rw [heq]
    rfl
  have htakes : ∀ p, (s.capture i f.began taken).Takes p ↔ taken p = true := by
    intro p
    constructor
    · rintro ⟨j, g, q, hj, hg, hstq, hq⟩
      cases hj
      rw [show (s.capture i f.began taken).flushes[i]? = some ⟨f.began, .taking taken⟩ from
        setFlush_get_self hf] at hg
      cases hg
      cases hstq
      exact hq
    · exact fun hp => ⟨i, _, taken, rfl, setFlush_get_self hf, rfl, hp⟩
  refine ⟨?_, ?_, ?_, ?_, ?_, ?_, ?_, h.selected, ?_, ?_, ?_⟩
  · intro p
    rcases hpage p with ⟨hp, -⟩ | ⟨-, heq⟩
    · exact .inr (.inr (.inr (.inl ((htakes p).mpr hp))))
    · rw [heq]
      rcases h.pending p with h | h | h | h | h
      · exact .inl h
      · exact .inr (.inl h)
      · exact .inr (.inr (.inl h))
      · exact absurd h (not_takes hfree)
      · exact .inr (.inr (.inr (.inr h)))
  · intro p
    rcases hpage p with ⟨-, heq⟩ | ⟨-, heq⟩
    · simp [heq]
    · rw [heq]
      exact h.writable p
  · exact fun hnone p => (hheld p).trans (h.free hnone p)
  · exact fun k hk p hp => h.shared k hk p ((hheld p).symm.trans hp)
  · intro k hk hend p hl
    rcases hpage p with ⟨hp, -⟩ | ⟨-, heq⟩
    · exact .inr (.inr ((htakes p).mpr hp))
    · rw [heq]
      rcases h.since k hk hend p hl with h | h | h
      · exact .inl h
      · exact .inr (.inl h)
      · exact absurd h (not_takes hfree)
  · exact fun k hk p hp => (hver p).trans (h.unstored k hk p ((hheld p).symm.trans hp))
  · intro p hp
    rcases hpage p with ⟨-, heq⟩ | ⟨hnot, -⟩
    · rw [heq]
      exact writable_markCaptured
    · rw [htakes, hnot] at hp
      cases hp
  · intro c hc
    obtain ⟨j, g, hg, hcap⟩ := h.batch c hc
    refine ⟨j, g, setFlush_keeps hf hg ?_, hcap⟩
    rintro rfl
    rw [hst] at hcap
    cases hcap
  · intro hw
    rw [show s.writing = true from hw] at hidle
    cases hidle
  · intro j g hg
    rcases setFlush_get (s := s) hg with ⟨rfl, rfl⟩ | ⟨hne, hg⟩
    · refine ⟨fun p => (hbegan p).trans (Nat.le_of_eq (hver p).symm), rfl, fun p => ?_⟩
      rcases hchosen p with hd | hp
      · exact .inl hd
      · by_cases htp : taken p = true
        · exact .inr (.inl htp)
        · obtain ⟨hu, hl⟩ := htaken p hp (by simpa using htp)
          rcases h.pending p with hd | hu' | hl' | ht | hb
          · exact .inl (hd.le (hbegan p))
          · rw [hu] at hu'
            cases hu'
          · rw [hl] at hl'
            cases hl'
          · exact absurd ht (not_takes hfree)
          · exact .inr (.inr (hb.le (hbegan p)))
    · refine (h.flushes j g hg).keep (t := i) ⟨fun _ h => h, fun _ h => h,
        fun p => Nat.le_of_eq (hver p).symm, ?_⟩ hne (fun _ _ => ?_) (.inr fun _ h => h) fun _ _ k hk => ⟨k, hk, rfl⟩
      · intro l _ hl
        rw [hfree] at hl
        cases hl
      · rintro p v - (ht | hheld)
        · exact absurd ht (not_takes hfree)
        · exact .inr (.inr (hheld.setFlush hf (by simp [Flush.holds, hst])))

theorem takes (hs : s.takes i = some s') : Chosen s' := by
  obtain ⟨f, hf, hs⟩ := bind_eq_some_iff.mp hs
  split at hs
  case h_2 => cases hs
  case h_1 asked hst =>
    obtain ⟨hok, rfl⟩ := ite_some_none_eq_some.mp hs
    rw [Bool.and_eq_true, Disk.regionFree_iff, Bool.not_eq_true'] at hok
    refine h.capture hf hst hok.1.1 hok.2 fun p hp hnot => ?_
    simpa [Disk.takeForCapture, hp] using hnot

/-- The capture's pages are read: each is in the batch, at the version it holds. -/
theorem readCaptured [DecidableEq δ] {hash : β → δ} (hf : s.flushes[i]? = some f)
    (hst : f.stage = .taking taken) : Chosen (s.readCaptured hash i f.began taken resident) := by
  obtain ⟨hbegan, hcap, htaking⟩ : (∀ p, f.began p ≤ (s.pages p).version) ∧ s.capturing = some i ∧
      ∀ p, s.Durable p (f.began p) ∨ taken p ∨ s.InBatch p (f.began p) := by
    have := h.flushes i f hf
    rw [Flush.Ok, hst] at this
    exact this
  have hin : ∀ p, taken p = true →
      (s.readCaptured hash i f.began taken resident).InBatch p (s.pages p).version := by
    intro p hp
    refine ⟨s.readCommit hash taken resident, mem_append_right _ mem_cons_self, ?_, ?_⟩
    · exact hp
    · exact Nat.le_refl _
  have hsame : ∀ p, ((s.readCaptured hash i f.began taken resident).pages p).version = (s.pages p).version ∧
      ((s.readCaptured hash i f.began taken resident).pages p).held = (s.pages p).held ∧
      ((s.readCaptured hash i f.began taken resident).pages p).unjournaled = (s.pages p).unjournaled ∧
      ((s.readCaptured hash i f.began taken resident).pages p).writable = (s.pages p).writable := by
    intro p
    simp only [Disk.readCaptured]
    split <;> simp
  choose hver hheld hunj hwr using hsame
  have hseal : ∀ k', (s.readCaptured hash i f.began taken resident).standing = some k' →
      ∃ k, s.standing = some k ∧ k' = k.strike s.pages taken := by
    intro k' hk'
    obtain ⟨k, hk, rfl⟩ := map_eq_some_iff.mp hk'
    exact ⟨k, hk, rfl⟩
  have hkept : ∀ k, s.standing = some k → ∀ p, taken p = false → (k.part p).list = true →
      ((k.strike s.pages taken).part p).list = true := by
    intro k _ p hp hl
    simp [Seal.strike, hp, hl]
  refine ⟨?_, ?_, ?_, ?_, ?_, ?_, ?_, ?_, ?_, ?_, ?_⟩
  · intro p
    rw [hver, hunj]
    by_cases hp : taken p = true
    · exact .inr (.inr (.inr (.inr (hin p hp))))
    · rcases h.pending p with hd | hu | hl | ht | ⟨c, hc, hb⟩
      · exact .inl hd
      · exact .inr (.inl hu)
      · obtain ⟨k, hk, hl⟩ := listed_iff.mp hl
        refine .inr (.inr (.inl (listed_iff.mpr ⟨k.strike s.pages taken, ?_, ?_⟩)))
        · show s.standing.map _ = _
          rw [hk]
          rfl
        · exact hkept k hk p (by simpa using hp) hl
      · exact absurd ((h.takes_iff hf hst).mp ht) hp
      · exact .inr (.inr (.inr (.inr ⟨c, mem_append_left _ hc, hb⟩)))
  · intro p hp
    rw [hunj]
    rw [hwr] at hp
    rcases h.writable p hp with hu | ⟨k, hk, hend, hl⟩
    · exact .inl hu
    · refine .inr ⟨k.strike s.pages taken, ?_, hend, hkept k hk p ?_ hl⟩
      · show s.standing.map _ = _
        rw [hk]
        rfl
      · -- What the capture took is not writable.
        by_contra htp
        have := h.still p ((h.takes_iff hf hst).mpr (by simpa using htp))
        rw [hp] at this
        cases this
  · intro hnone p
    exact (hheld p).trans (h.free (map_eq_none_iff.mp hnone) p)
  · intro k' hk' p hp hprot
    obtain ⟨k, hk, rfl⟩ := hseal k' hk'
    rw [hheld] at hp
    have hl := h.shared k hk p hp hprot
    simp [Seal.strike, hl, hp]
  · intro k' hk' hend p hl
    obtain ⟨k, hk, rfl⟩ := hseal k' hk'
    rw [hver, hunj]
    simp only [Seal.strike, Bool.and_eq_true, Bool.not_eq_true', Bool.and_eq_false_iff,
      Bool.not_eq_false'] at hl
    rcases h.since k hk hend p hl.1 with h' | h' | ht
    · exact .inl h'
    · exact .inr (.inl h')
    · -- A page the capture took and that stays on the list is the seal's.
      rw [h.takes_iff hf hst] at ht
      rcases hl.2 with hnot | hp
      · rw [ht] at hnot
        cases hnot
      · exact .inl (h.unstored k hk p hp)
  · intro k' hk' p hp
    obtain ⟨k, hk, rfl⟩ := hseal k' hk'
    rw [hheld] at hp
    exact (hver p).trans (h.unstored k hk p hp)
  · intro p hp
    exact absurd hp (not_takes rfl)
  · intro k' hk' hsel
    obtain ⟨k, hk, rfl⟩ := hseal k' hk'
    exact h.selected k hk hsel
  · intro c hc
    rcases mem_append.mp hc with hc | hc
    · obtain ⟨j, g, hg, hst'⟩ := h.batch c hc
      refine ⟨j, g, setFlush_keeps hf hg ?_, hst'⟩
      rintro rfl
      rw [hst] at hst'
      cases hst'
    · rw [mem_singleton] at hc
      subst hc
      exact ⟨i, _, setFlush_get_self hf, rfl⟩
  · exact fun _ => rfl
  · intro j g hg
    rcases setFlush_get (s := s) hg with ⟨rfl, rfl⟩ | ⟨hne, hg⟩
    · refine ⟨fun p => (hbegan p).trans (Nat.le_of_eq (hver p).symm),
        mem_append_right _ mem_cons_self, fun p => ?_⟩
      rcases htaking p with hd | hp | ⟨c, hc, hb⟩
      · exact .inl hd
      · exact .inr ((hin p hp).le (hbegan p))
      · exact .inr ⟨c, mem_append_left _ hc, hb⟩
    · refine (h.flushes j g hg).keep (t := i) ⟨fun _ h => h, fun _ h => h,
        fun p => Nat.le_of_eq (hver p).symm, ?_⟩ hne
        (fun _ _ => ?_) (.inr fun c hc => mem_append_left _ hc) fun _ _ k' hk' => ?_
      · intro l hl hcap'
        rw [hcap] at hcap'
        exact absurd (Option.some.inj hcap').symm hl
      · rintro p v hv (ht | hheld)
        · -- What the capture took is now in flight.
          refine .inr (.inr ⟨i, _, s.readCommit hash taken resident, setFlush_get_self hf, rfl, ?_, hv⟩)
          exact (h.takes_iff hf hst).mp ht
        · exact .inr (.inr (hheld.setFlush hf (by simp [Flush.holds, hst])))
      · obtain ⟨k, hk, rfl⟩ := hseal k' hk'
        exact ⟨k, hk, rfl⟩

theorem reads [DecidableEq δ] {hash : β → δ} (hs : s.reads hash i resident = some s') : Chosen s' := by
  obtain ⟨f, hf, hs⟩ := bind_eq_some_iff.mp hs
  split at hs <;> cases hs
  rename_i taken hst
  exact h.readCaptured hf hst

/-- Pages are given back, among them all that the capture under way took, and all that leave the
batch. -/
theorem givesBack {back : P → Bool}
    (hpages : s'.pages = fun p => if back p then (s.pages p).giveBack else s.pages p)
    (hfree : s'.capturing = none) (htakes : ∀ p, s.Takes p → back p)
    (hin : ∀ p v, s.InBatch p v → back p ∨ s'.InBatch p v)
    (hbatch : ∀ c ∈ s'.batch, ∃ (i : Nat) (f : Flush P B β), s'.flushes[i]? = some f ∧ f.stage = .captured c)
    (hflushes : (∀ p, (s'.pages p).version = (s.pages p).version) → ∀ (i : Nat) (f : Flush P B β), s'.flushes[i]? = some f → f.Ok s' i)
    (hs : s'.standing = s.standing) (hsynced : s'.synced = s.synced)
    (hsel : s'.selections = s.selections) : Chosen s' := by
  have hpage : ∀ p, (s'.pages p).version = (s.pages p).version ∧
      (s'.pages p).held = (s.pages p).held ∧
      (back p = true ∧ (s'.pages p).unjournaled = true ∨ back p = false ∧ s'.pages p = s.pages p) := by
    intro p
    rw [hpages]
    by_cases hp : back p = true
    · simp [hp]
    · simp [hp]
  refine ⟨?_, ?_, ?_, ?_, ?_, ?_, fun p hp => absurd hp (not_takes hfree), ?_, hbatch, fun _ => hfree,
    hflushes fun p => (hpage p).1⟩
  · intro p
    obtain ⟨-, -, ⟨-, hu⟩ | ⟨hp, heq⟩⟩ := hpage p
    · exact .inr (.inl hu)
    · rw [heq, Disk.Durable, hsynced, hsel, Disk.listed, hs]
      rcases h.pending p with h' | h' | h' | h' | h'
      · exact .inl h'
      · exact .inr (.inl h')
      · exact .inr (.inr (.inl h'))
      · exact absurd (htakes p h') (by simp [hp])
      · exact .inr (.inr (.inr (.inr ((hin p _ h').resolve_left (by simp [hp])))))
  · intro p
    obtain ⟨-, -, ⟨-, hu⟩ | ⟨hp, heq⟩⟩ := hpage p
    · exact fun _ => .inl hu
    · rw [heq, hs]
      exact h.writable p
  · exact fun hnone p => (hpage p).2.1.trans (h.free (hs ▸ hnone) p)
  · exact fun k hk p hp => h.shared k (hs ▸ hk) p ((hpage p).2.1.symm.trans hp)
  · intro k hk hend p hl
    obtain ⟨-, -, ⟨-, hu⟩ | ⟨hp, heq⟩⟩ := hpage p
    · exact .inr (.inl hu)
    · rw [heq]
      rcases h.since k (hs ▸ hk) hend p hl with h' | h' | h'
      · exact .inl h'
      · exact .inr (.inl h')
      · exact absurd (htakes p h') (by simp [hp])
  · exact fun k hk p hp =>
      (hpage p).1.trans (h.unstored k (hs ▸ hk) p ((hpage p).2.1.symm.trans hp))
  · exact fun k hk hk' => hsel ▸ h.selected k (hs ▸ hk) hk'

theorem readFails (hcalm : s.Calm (.readFails i)) (hs : s.readFails i = some s') : Chosen s' := by
  obtain ⟨f, hf, hs⟩ := bind_eq_some_iff.mp hs
  split at hs <;> cases hs
  rename_i taken hst
  have hcap : s.capturing = some i := by
    have := (h.flushes i f hf).2
    rw [hst] at this
    exact this.1
  refine h.givesBack rfl rfl (fun p => (h.takes_iff hf hst).mp) (fun _ _ hb => .inr hb) ?_
    (fun hver j g hg => ?_) rfl rfl rfl
  · intro c hc
    obtain ⟨j, g, hg, hst'⟩ := h.batch c hc
    refine ⟨j, g, setFlush_keeps hf hg ?_, hst'⟩
    rintro rfl
    rw [hst] at hst'
    cases hst'
  · rcases setFlush_get (s := s) hg with ⟨rfl, rfl⟩ | ⟨hne, hg⟩
    · exact ⟨fun p => ((h.flushes j f hf).1 p).trans (Nat.le_of_eq (hver p).symm), trivial⟩
    · refine (h.flushes j g hg).keep (t := i) ⟨fun _ h => h, fun _ h => h,
        fun p => Nat.le_of_eq (hver p).symm, ?_⟩ hne (fun pages hlooked => ?_) (.inr fun _ h => h)
        fun _ _ k hk => ⟨k, hk, rfl⟩
      · intro l hl hcap'
        rw [hcap] at hcap'
        exact absurd (Option.some.inj hcap').symm hl
      · exact absurd hlooked (hcalm g (mem_flushes_iff.mpr ⟨j, hg⟩) pages)

/-! ## Batches -/

theorem writes (hs : s.writes = some s') : Chosen s' := by
  obtain ⟨hok, rfl⟩ := ite_some_none_eq_some.mp hs
  rw [Bool.and_eq_true, isNone_iff_eq_none] at hok
  exact { h with writing := fun _ => hok.1, flushes := h.keepAll ⟨fun _ h => h, fun _ h => h,
    fun _ => Nat.le_refl _, fun _ _ h => h⟩ rfl rfl rfl fun _ _ _ _ k hk => ⟨k, hk, rfl⟩ }

end

theorem map_get {j : Nat} {g : Flush P B β} (h : (s.flushes.map F)[j]? = some g) :
    ∃ f, s.flushes[j]? = some f ∧ g = F f := by
  rw [getElem?_map] at h
  obtain ⟨f, hf, rfl⟩ := map_eq_some_iff.mp h
  exact ⟨f, hf, rfl⟩

/-- A batch's end changes no flush but those of its commits, which hold their pages still. -/
theorem ended (hF : ∀ f : Flush P B β, (F f).holds = f.holds) (hfree : s.capturing = none)
    (hf : s'.flushes = s.flushes.map F) : Finds s s' := by
  rintro p v - (ht | ⟨l, e, c, he, hc, hp⟩)
  · exact absurd ht (not_takes hfree)
  · refine .inr (.inr ⟨l, F e, c, ?_, (hF e).trans hc, hp⟩)
    rw [hf, getElem?_map, he]
    rfl

section

variable (h : Chosen s)

include h

/-- A flush outside the batch when the batch ends. -/
theorem apart {j : Nat} (hfree : s.capturing = none) (hf : s.flushes[j]? = some f)
    (hcap : ∀ c, f.stage ≠ .captured c) : f.Apart := by
  refine ⟨hcap, fun pages hst => ?_⟩
  have := (h.flushes j f hf).2
  rw [hst] at this
  exact absurd this.1 (by rw [hfree]; simp)

theorem lands (hs : s.lands = some s') : Chosen s' := by
  obtain ⟨hw, rfl⟩ := ite_some_none_eq_some.mp hs
  have hfree := h.writing hw
  have hsynced : ∀ p v, s.Durable p v ∨ s.InBatch p v →
      (∃ c ∈ s.synced ++ s.batch, (c.part p).taken ∧ v ≤ (c.part p).version) ∨
        ∃ k ∈ s.selections, v ≤ k p := by
    rintro p v ((⟨c, hc, hd⟩ | hd) | ⟨c, hc, hb⟩)
    · exact .inl ⟨c, mem_append_left _ hc, hd⟩
    · exact .inr hd
    · exact .inl ⟨c, mem_append_right _ hc, hb⟩
  refine ⟨?_, h.writable, h.free, h.shared, ?_, h.unstored, ?_, h.selected, ?_, fun _ => hfree, ?_⟩
  · intro p
    rcases h.pending p with h' | h' | h' | h' | h'
    · exact .inl (hsynced p _ (.inl h'))
    · exact .inr (.inl h')
    · exact .inr (.inr (.inl h'))
    · exact absurd h' (not_takes hfree)
    · exact .inl (hsynced p _ (.inr h'))
  · intro k hk hend p hl
    rcases h.since k hk hend p hl with h' | h' | h'
    · exact .inl h'
    · exact .inr (.inl h')
    · exact absurd h' (not_takes hfree)
  · exact fun p hp => absurd hp (not_takes hfree)
  · intro c hc
    cases hc
  · intro j g hg
    obtain ⟨f, hf, rfl⟩ := map_get hg
    by_cases hcap : ∃ c, f.stage = .captured c
    · obtain ⟨c, hst⟩ := hcap
      obtain ⟨hbegan, hok⟩ := h.flushes j f hf
      rw [hst] at hok
      rw [show f.land = ⟨f.began, .landed c⟩ by simp [Flush.land, hst]]
      exact ⟨hbegan, mem_append_right _ hok.1, fun p => hsynced p _ (hok.2 p)⟩
    · rw [not_exists] at hcap
      rw [show f.land = f by unfold Flush.land; split <;> simp_all]
      exact (h.flushes j f hf).keep ⟨fun c hc => mem_append_left _ hc, fun _ h => h,
        fun _ => Nat.le_refl _, fun _ _ h => h⟩ (Nat.ne_of_lt (List.getElem?_eq_some_iff.mp hf).1)
        (fun _ _ => ended Flush.holds_land hfree rfl) (.inl (h.apart hfree hf hcap)) fun _ _ k hk => ⟨k, hk, rfl⟩

theorem fails (hs : s.fails = some s') : Chosen s' := by
  obtain ⟨hw, rfl⟩ := ite_some_none_eq_some.mp hs
  have hfree := h.writing hw
  refine h.givesBack rfl hfree (fun p hp => absurd hp (not_takes hfree)) ?_ ?_
    (fun hver j g hg => ?_) rfl rfl rfl
  · rintro p v ⟨c, hc, ht, -⟩
    exact .inl (any_eq_true.mpr ⟨c, hc, ht⟩)
  · intro c hc
    cases hc
  · obtain ⟨f, hf, rfl⟩ := map_get hg
    by_cases hcap : ∃ c, f.stage = .captured c
    · obtain ⟨c, hst⟩ := hcap
      rw [show f.lose = ⟨f.began, .lost c⟩ by simp [Flush.lose, hst]]
      exact ⟨fun p => ((h.flushes j f hf).1 p).trans (Nat.le_of_eq (hver p).symm), trivial⟩
    · rw [not_exists] at hcap
      rw [show f.lose = f by unfold Flush.lose; split <;> simp_all]
      exact (h.flushes j f hf).keep ⟨fun _ h => h, fun _ h => h, fun p => Nat.le_of_eq (hver p).symm,
        fun _ _ h => h⟩ (Nat.ne_of_lt (List.getElem?_eq_some_iff.mp hf).1)
        (fun _ _ => ended Flush.holds_lose hfree rfl) (.inl (h.apart hfree hf hcap)) fun _ _ k hk => ⟨k, hk, rfl⟩

theorem releases (hcalm : s.Calm (.releases i)) (hs : s.releases i = some s') : Chosen s' := by
  obtain ⟨f, hf, hs⟩ := bind_eq_some_iff.mp hs
  obtain ⟨hbegan, hok⟩ := h.flushes i f hf
  split at hs
  case h_1 c hst =>
    cases hs
    rw [hst] at hok
    refine h.moveOne hf (by simp [hst]) (by simp [hst]) (by simp) ⟨hbegan, hok.2⟩ fun _ _ _ _ => ?_
    rintro p v - (ht | ⟨j, g, d, hg, hd, hp⟩)
    · exact .inr (.inl (ht.setFlush hf (by simp [hst])))
    · by_cases hgf : g = f
      · -- What the flush held has landed.
        subst hgf
        rw [show g.holds = some c by simp [Flush.holds, hst]] at hd
        cases hd
        exact .inl (.inl ⟨c, hok.1, hp⟩)
      · exact .inr (.inr ⟨j, g, d, setFlush_keeps hf hg hgf, hd, hp⟩)
  case h_2 c hst =>
    cases hs
    refine h.moveOne hf (by simp [hst]) (by simp [hst]) (by simp) ⟨hbegan, trivial⟩
      fun g hg pages hlooked => ?_
    exact absurd hlooked (hcalm ⟨f, c, hf, hst⟩ g hg pages)
  case h_3 => cases hs

/-! ## Seals -/

theorem seals (hcalm : s.Calm .seals) (hs : s.seals = some s') : Chosen s' := by
  unfold Disk.seals at hs
  split at hs <;> cases hs
  rename_i hnone hfree
  have hheld := h.free hnone
  refine ⟨?_, ?_, ?_, ?_, ?_, ?_, ?_, ?_, h.batch, h.writing, ?_⟩
  · intro p
    simp only [version_sealedPage]
    rcases h.pending p with h' | h' | h' | h' | h'
    · exact .inl h'
    · exact .inr (.inr (.inl (listed_iff.mpr ⟨_, rfl, h'⟩)))
    · obtain ⟨k, hk, -⟩ := listed_iff.mp h'
      rw [hnone] at hk
      cases hk
    · exact absurd h' (not_takes hfree)
    · exact .inr (.inr (.inr (.inr h')))
  · intro p hp
    rw [writable_sealedPage] at hp
    cases hp
  · rintro ⟨⟩
  · rintro _ ⟨⟩ p hp hprot
    -- An unprotected page of the region's own was writable.
    rw [held_sealedPage (hheld p)] at hp
    have hw : (s.pages p).writable = true := by
      have hprot' : (s.pages p).isProtected = false := hprot
      simp [Page.writable, hp, hheld p, hprot']
    rcases h.writable p hw with hu | ⟨k, hk, -⟩
    · exact hu
    · rw [hnone] at hk
      cases hk
  · rintro _ ⟨⟩ - p -
    exact .inl version_sealedPage
  · rintro _ ⟨⟩ p -
    exact version_sealedPage
  · exact fun p hp => absurd hp (not_takes hfree)
  · rintro _ ⟨⟩ hsel
    cases hsel
  · exact h.keepAll ⟨fun _ h => h, fun _ h => h, fun p => Nat.le_of_eq version_sealedPage.symm,
      fun _ _ h => h⟩ rfl rfl rfl fun f hf seen hst => absurd hst (hcalm f hf seen)

theorem setStage {k : Seal P B β} {stage : SealStage} (hk : s.standing = some k) :
    Chosen (s.setStage k stage) :=
  h.reseal hk id (List.Subset.refl _) (h.selected k hk)

theorem records (hs : s.records = some s') : Chosen s' := by
  obtain ⟨k, hk, hs⟩ := bind_eq_some_iff.mp hs
  split at hs <;> cases hs
  exact h.setStage hk

theorem pauses (hs : s.pauses = some s') : Chosen s' := by
  unfold Disk.pauses at hs
  split at hs
  case h_2 => cases hs
  case h_1 k hk hfree =>
    split at hs <;> cases hs
    exact h.setStage hk

theorem selects (hs : s.selects = some s') : Chosen s' := by
  obtain ⟨k, hk, hs⟩ := bind_eq_some_iff.mp hs
  split at hs <;> cases hs
  rename_i covered hst hopen
  have hend : k.ending = false := (Bool.or_eq_false_iff.mp hopen).2
  exact h.reseal hk id (subset_append_left _ _)
    fun _ => ⟨hend, mem_append_right _ mem_cons_self⟩

theorem retires (hs : s.retires = some s') : Chosen s' := by
  obtain ⟨k, hk, hs⟩ := bind_eq_some_iff.mp hs
  obtain ⟨hok, rfl⟩ := ite_some_none_eq_some.mp hs
  rw [Bool.and_eq_true, Disk.regionFree_iff] at hok
  obtain ⟨⟨hfree, -⟩, hsel⟩ := hok
  obtain ⟨hend, hmem⟩ := h.selected k hk hsel
  refine ⟨?_, ?_, fun _ p => held_published, ?_, ?_, ?_, ?_, ?_, h.batch, h.writing, ?_⟩
  · intro p
    simp only [version_published, unjournaled_published]
    rcases h.pending p with h' | h' | h' | h' | h'
    · exact .inl h'
    · exact .inr (.inl h')
    · -- The checkpoint that was selected holds a page of its list, or the page is stored to since.
      obtain ⟨k', hk', hl⟩ := listed_iff.mp h'
      rw [hk] at hk'
      cases hk'
      rcases h.since k hk hend p hl with hv | hu | ht
      · exact .inl (.inr ⟨_, hmem, Nat.le_of_eq hv⟩)
      · exact .inr (.inl hu)
      · exact absurd ht (not_takes hfree)
    · exact absurd h' (not_takes hfree)
    · exact .inr (.inr (.inr (.inr h')))
  · intro p hp
    rw [writable_published] at hp
    rw [unjournaled_published]
    rcases h.writable p hp with hu | ⟨k', hk', hend', -⟩
    · exact .inl hu
    · rw [hk] at hk'
      cases hk'
      rw [hend] at hend'
      cases hend'
  · rintro _ ⟨⟩
  · rintro _ ⟨⟩
  · rintro _ ⟨⟩
  · exact fun p hp => absurd hp (not_takes hfree)
  · rintro _ ⟨⟩
  · refine h.keepAll ⟨fun _ h => h, fun _ h => h, fun p => Nat.le_of_eq version_published.symm,
      fun _ _ h => h⟩ rfl rfl rfl ?_
    rintro _ _ _ _ _ ⟨⟩

theorem abandons (hs : s.abandons = some s') : Chosen s' := by
  obtain ⟨k, hk, hs⟩ := bind_eq_some_iff.mp hs
  obtain ⟨hok, rfl⟩ := ite_some_none_eq_some.mp hs
  rw [Bool.and_eq_true, Disk.regionFree_iff] at hok
  obtain ⟨⟨hfree, -⟩, hsel⟩ := hok
  refine ⟨?_, ?_, fun _ p => held_abandoned, ?_, ?_, ?_, ?_, ?_, h.batch, h.writing, ?_⟩
  · intro p
    simp only [version_abandoned, unjournaled_abandoned, Bool.or_eq_true]
    rcases h.pending p with h' | h' | h' | h' | h'
    · exact .inl h'
    · exact .inr (.inl (.inr h'))
    · obtain ⟨k', hk', hl⟩ := listed_iff.mp h'
      rw [hk] at hk'
      cases hk'
      exact .inr (.inl (.inl hl))
    · exact absurd h' (not_takes hfree)
    · exact .inr (.inr (.inr (.inr h')))
  · intro p hp
    simp only [unjournaled_abandoned, Bool.or_eq_true]
    rcases writable_abandoned hp with hw | ⟨hheld, hprot⟩
    · rcases h.writable p hw with hu | ⟨k', hk', -, hl⟩
      · exact .inl (.inr hu)
      · rw [hk] at hk'
        cases hk'
        exact .inl (.inl hl)
    · exact .inl (.inl (h.shared k hk p hheld hprot))
  · rintro _ ⟨⟩
  · rintro _ ⟨⟩
  · rintro _ ⟨⟩
  · exact fun p hp => absurd hp (not_takes hfree)
  · rintro _ ⟨⟩
  · refine h.keepAll ⟨fun _ h => h, fun _ h => h, fun p => Nat.le_of_eq version_abandoned.symm,
      fun _ _ h => h⟩ rfl rfl rfl ?_
    rintro _ _ _ _ _ ⟨⟩

end

/-! ## Runs -/

theorem opened (bytes : P → B → β) : Chosen (Disk.opened bytes : Disk P B β δ) := by
  refine ⟨fun p => .inl (.inr ⟨_, mem_singleton.mpr rfl, Nat.le_refl _⟩), ?_, fun _ _ => rfl,
    ?_, ?_, ?_, ?_, ?_, ?_, ?_, ?_⟩
  · intro p hp
    cases hp
  all_goals simp [Disk.opened, Disk.Takes]

section Runs

variable [DecidableEq P] [DecidableEq B] [DecidableEq δ] [DecidableEq (B → β)] {hash : β → δ}

theorem step (h : Chosen s) (hok : s.Calm a) (hs : s.step hash a = some s') : Chosen s' := by
  cases a with
  | traps p known => exact h.traps hs
  | stores p b x => exact h.stores hs
  | arrives => exact h.arrives hs
  | peeks i => exact h.peeks hok hs
  | looks i => exact h.looks hs
  | chooses i => exact h.chooses hs
  | refuses i => exact h.refuses hs
  | takes i => exact h.takes hs
  | reads i resident => exact h.reads hs
  | readFails i => exact h.readFails hok hs
  | writes => exact h.writes hs
  | lands => exact h.lands hs
  | fails => exact h.fails hs
  | releases i => exact h.releases hok hs
  | seals => exact h.seals hok hs
  | records => exact h.records hs
  | pauses => exact h.pauses hs
  | settles p => exact h.settles hs
  | selects => exact h.selects hs
  | finalizes p => exact h.finalizes hs
  | retires => exact h.retires hs
  | restores p => exact h.restores hs
  | abandons => exact h.abandons hs

theorem of_runs {ok : Disk P B β δ → FlushAction P B β → Prop} (hok : ∀ s a, ok s a → s.Calm a)
    {bytes : P → B → β} (hr : Runs (Disk.step hash) ok (.opened bytes) s) : Chosen s :=
  hr.invariant (fun _ _ _ h ha hs => h.step (hok _ _ ha) hs) (.opened bytes)

end Runs

end Chosen

/-- A disk of one page of one block. -/
def sampleDisk : Disk Unit Unit Bool Bool := .opened fun _ _ => false

end Sproutfs.HostJournal
