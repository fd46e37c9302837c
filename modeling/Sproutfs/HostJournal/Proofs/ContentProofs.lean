import Sproutfs.HostJournal.Proofs.ChoiceStepProofs
import Sproutfs.HostJournal.Proofs.ReplayProofs

/-!
# The bytes behind the entries

The digests a page has are those of its bytes, unless the guest may have stored into it since its last
capture. Every page follows the selected checkpoint, and the standing seal's once the pause ended, so
that the selection may take effect at any moment.
-/

namespace Sproutfs.HostJournal

open Option Machine Page

variable {P B β δ : Type} {hash : β → δ} {g : Page B β δ} {t e t' e' : Prop}

/-! ## The digests of a page -/

/-- What the digests of a page say of its bytes. `t` is that the capture under way took it, `e` that it
is on the list of a seal that is being abandoned. -/
structure Known (hash : β → δ) (g : Page B β δ) (t e : Prop) : Prop where
  held : g.held = true → g.dirty = true ∧ g.digests ≠ .absent
  absent : g.dirty = true → g.digests = .absent → g.unjournaled = true ∨ t
  sums : ∀ d, g.digests = .known d → (∀ b, d b = hash (g.bytes b)) ∨
    g.dirty = true ∧ g.held = false ∧ (g.unjournaled = true ∨ t ∨ e)

namespace Known

section

variable (h : Known hash g t e)

include h

theorem mono (ht : t → t') (he : e → e') : Known hash g t' e' := by
  refine ⟨h.held, fun hd ha => (h.absent hd ha).imp_right ht, fun d hd => ?_⟩
  rcases h.sums d hd with h | ⟨hdirty, hheld, h | h | h⟩
  · exact .inl h
  · exact .inr ⟨hdirty, hheld, .inl h⟩
  · exact .inr ⟨hdirty, hheld, .inr (.inl (ht h))⟩
  · exact .inr ⟨hdirty, hheld, .inr (.inr (he h))⟩

theorem sums_of_still {d : B → δ} (hd : g.digests = .known d) (hstill : g.dirty = true → g.held = true)
    (b : B) : d b = hash (g.bytes b) := by
  rcases h.sums d hd with h | ⟨hdirty, hheld, -⟩
  · exact h b
  · rw [hstill hdirty] at hheld
    cases hheld

theorem trap {known : Bool} : Known hash (g.trap known) t e := by
  have hdirty : (g.trap known).dirty = true := by
    rw [dirty_trap]
    by_cases hh : g.held = true
    · simp [hh, (h.held hh).1]
    · simp [hh]
  refine ⟨fun hh => ?_, fun _ _ => .inl unjournaled_trap,
    fun _ _ => .inr ⟨hdirty, held_trap, .inl unjournaled_trap⟩⟩
  rw [held_trap] at hh
  cases hh

theorem store [DecidableEq B] {b : B} {x : β} (hw : g.writable = true) (hu : g.unjournaled = true ∨ e) :
    Known hash (g.store b x) t e := by
  have hpage : g.dirty = true ∧ g.held = false := by
    simp only [writable, Bool.and_eq_true, Bool.not_eq_true'] at hw
    exact hw.1
  exact ⟨h.held, h.absent, fun d _ => .inr ⟨hpage.1, hpage.2, hu.imp_right .inr⟩⟩

theorem sealedPage (ht : ¬ t) (he : ¬ e) : Known hash g.sealedPage t' e' := by
  have hsums : ∀ d, g.sealedPage.digests = .known d →
      g.unjournaled = false ∧ g.digests = .known d := by
    intro d hd
    rw [digests_sealedPage] at hd
    split at hd
    · cases hd
    · next hu => exact ⟨by simpa using hu, hd⟩
  have habsent : g.dirty = true → g.sealedPage.digests ≠ .absent := by
    intro hd
    rw [digests_sealedPage]
    split
    · simp
    · next hu => exact fun ha => (h.absent hd ha).elim hu ht
  refine ⟨fun hh => ?_, fun hd ha => ?_, fun d hd => .inl fun b => ?_⟩
  · by_cases hd : g.dirty = true
    · exact ⟨dirty_sealedPage.trans hd, habsent hd⟩
    · -- A page that shares a seal's copy is the region's own.
      have hheld : g.sealedPage.held = g.held := by
        unfold Page.sealedPage
        simp [hd]
      exact absurd (h.held (hheld ▸ hh)).1 hd
  · exact absurd ha (habsent (dirty_sealedPage ▸ hd))
  · obtain ⟨hu, hd⟩ := hsums d hd
    have hb : g.sealedPage.bytes = g.bytes := by rw [bytes, bytes, version_sealedPage, history_sealedPage]
    rw [hb]
    rcases h.sums d hd with h | ⟨-, -, h | h | h⟩
    · exact h b
    · rw [hu] at h
      cases h
    · exact absurd h ht
    · exact absurd h he

theorem markCaptured (ht : t') : Known hash g.markCaptured t' e := by
  refine ⟨h.held, fun _ _ => .inr ht, fun d hd => ?_⟩
  rcases h.sums d hd with h | ⟨hdirty, hheld, -⟩
  · exact .inl h
  · exact .inr ⟨hdirty, hheld, .inr (.inl ht)⟩

theorem recordCaptured : Known hash (g.recordCaptured hash) t' e' := by
  unfold Page.recordCaptured
  split
  · next hd =>
    refine ⟨fun hh => ⟨hd, by simp⟩, nofun, fun d hd' => .inl fun b => ?_⟩
    cases hd'
    rfl
  · next hd =>
    refine ⟨fun hh => absurd (h.held hh).1 hd, fun hd' => absurd hd' hd, fun d hdig => ?_⟩
    rcases h.sums d hdig with h | ⟨hdirty, -⟩
    · exact .inl h
    · exact absurd hdirty hd

theorem giveBack : Known hash g.giveBack t' e' := by
  refine ⟨fun hh => ⟨(h.held hh).1, ?_⟩, nofun, nofun⟩
  rintro ⟨⟩

theorem retired : Known hash g.retired t e := by
  unfold Page.retired
  split
  · next hheld =>
    refine ⟨nofun, nofun, fun d hd => ?_⟩
    rcases h.sums d hd with h | ⟨-, hnot, -⟩
    · exact .inl h
    · rw [hheld] at hnot
      cases hnot
  · exact h

theorem published {list : Bool} : Known hash (g.published list) t e := by
  unfold Page.published
  split
  · next hclean =>
    rw [Bool.and_eq_true, Bool.not_eq_true'] at hclean
    refine ⟨fun hh => ?_, fun hd => ?_, nofun⟩
    · have : g.retired.held = true := hh
      rw [held_retired] at this
      cases this
    · have : g.retired.dirty = true := hd
      rw [hclean.2] at this
      cases this
  · exact h.retired

theorem restored {k : Sealed B β} : Known hash (g.restored k) t e := by
  unfold Page.restored
  split
  · next hheld =>
    refine ⟨nofun, fun _ ha => absurd ha (h.held hheld).2, fun d hd => ?_⟩
    rcases h.sums d hd with h | ⟨-, hnot, -⟩
    · exact .inl h
    · rw [hheld] at hnot
      cases hnot
  · exact h

theorem abandoned {k : Sealed B β} (he : e → k.list = true) : Known hash (g.abandoned k) t e' := by
  unfold Page.abandoned
  split
  · exact h.restored.giveBack
  · next hl => exact h.restored.mono id fun h => absurd (he h) hl

end

end Known

/-! ## The whole disk -/

variable {s s' : Disk P B β δ} {k : Seal P B β} {p : P} {i : Nat}

/-- The page is on the list of a seal that is being abandoned. -/
def Disk.Ending (s : Disk P B β δ) (p : P) : Prop :=
  ∃ k, s.standing = some k ∧ k.ending = true ∧ (k.part p).list = true

/-- Every entry that may be on the disk. -/
def Disk.entries (s : Disk P B β δ) : List (Commit P B β) := s.synced ++ (s.tail ++ s.batch)

/-- A page follows a checkpoint. -/
def Disk.Follow (hash : β → δ) (s : Disk P B β δ) (X : Base P B β) (w : Nat) (p : P) : Prop :=
  Follows hash p (s.pages p) s.synced s.tail s.batch X w

/-- The checkpoint of a seal whose pause ended after `n` captures. -/
def Seal.base (k : Seal P B β) (n : Nat) : Base P B β := ⟨fun p => (k.part p).bytes, n⟩

/-- A count of captures before the capture under way. -/
def Disk.Before (s : Disk P B β δ) (n : Nat) : Prop :=
  n ≤ s.captures ∧ (s.capturing.isSome → n < s.captures)

/-- What is known of the standing seal. Until the pause ends the guest stores nothing and copies no
page. -/
structure SealOk (hash : β → δ) (s : Disk P B β δ) (k : Seal P B β) : Prop where
  bytes : ∀ p, (k.part p).bytes = (s.pages p).history (k.part p).version
  le : ∀ p, (k.part p).version ≤ (s.pages p).version
  selections : ∀ v ∈ s.selections, ∀ p, v p ≤ (k.part p).version
  origin : k.selected = false → ∀ p, (s.pages p).held = true → ∀ o, (k.part p).origin = some o →
    s.sel.bytes p = o
  sel : k.selected = true → ∃ n, k.stage = .paused n ∧ s.sel = k.base n
  paused : ∀ n, k.stage = .paused n → s.Before n ∧
    (k.ending = false → ∀ p, s.Follow hash (k.base n) (k.part p).version p)
  unpaused : (∀ n, k.stage ≠ .paused n) → ∀ p, (s.pages p).version = (k.part p).version ∧
    (k.ending = false → (s.pages p).dirty = true → (s.pages p).held = true)

structure Content (hash : β → δ) (s : Disk P B β δ) : Prop where
  known : ∀ p, Known hash (s.pages p) (s.Takes p) (s.Ending p)
  recorded : ∀ p, Recorded p (s.pages p) s.entries
  ordinals : ∀ c ∈ s.entries, c.ordinal ≤ s.captures
  covered : s.Before s.sel.covered
  selected : ∃ w ∈ s.selections, (∀ v ∈ s.selections, ∀ p, v p ≤ w p) ∧
    ∀ p, s.Follow hash s.sel (w p) p
  standing : ∀ k, s.standing = some k → SealOk hash s k

theorem SealOk.grow (h : SealOk hash s k) (hg : ∀ p, Grows (s.pages p) (s'.pages p))
    (hheld : ∀ p, (s'.pages p).held = true → (s.pages p).held = true) (hsel : s'.sel = s.sel)
    (hselections : s'.selections = s.selections) (hbefore : ∀ n, s.Before n → s'.Before n)
    (hfollow : ∀ n, k.stage = .paused n → k.ending = false →
      (∀ p, s.Follow hash (k.base n) (k.part p).version p) →
      ∀ p, s'.Follow hash (k.base n) (k.part p).version p)
    (hstill : (∀ n, k.stage ≠ .paused n) → ∀ p, (s'.pages p).version = (s.pages p).version ∧
      (k.ending = false → ((s.pages p).dirty = true → (s.pages p).held = true) →
        (s'.pages p).dirty = true → (s'.pages p).held = true)) : SealOk hash s' k := by
  refine ⟨?_, fun p => (h.le p).trans (hg p).version, ?_, ?_, ?_, ?_, ?_⟩
  · intro p
    rw [(hg p).history _ (h.le p)]
    exact h.bytes p
  · rw [hselections]
    exact h.selections
  · rw [hsel]
    exact fun hk p hp => h.origin hk p (hheld p hp)
  · rw [hsel]
    exact h.sel
  · intro n hn
    obtain ⟨hb, hf⟩ := h.paused n hn
    exact ⟨hbefore n hb, fun hend => hfollow n hn hend (hf hend)⟩
  · intro hn p
    obtain ⟨hver, hd⟩ := h.unpaused hn p
    obtain ⟨hver', hd'⟩ := hstill hn p
    exact ⟨hver'.trans hver, fun hend => hd' hend (hd hend)⟩

theorem SealOk.strike {taken : P → Bool} (h : SealOk hash s k) :
    SealOk hash s (k.strike s.pages taken) :=
  { h with }

theorem Disk.paused_of_guestRuns (h : s.guestRuns = true) (hk : s.standing = some k) :
    ∃ n, k.stage = .paused n := by
  unfold Disk.guestRuns at h
  rw [hk] at h
  cases hst : k.stage with
  | paused n => exact ⟨n, rfl⟩
  | taking => simp [hst] at h
  | recorded => simp [hst] at h

namespace Content

section

variable (h : Content hash s)

include h

theorem moveFlushes (flushes : List (Flush P B β)) (writing : Bool)
    (htakes : ∀ p, s.Takes p → ({ s with flushes, writing } : Disk P B β δ).Takes p) :
    Content hash { s with flushes, writing } := by
  refine { h with known := fun p => (h.known p).mono (htakes p) id, standing := ?_ }
  intro k hk
  obtain ⟨hbytes, hle, hselections, horigin, hsel, hpaused, hunpaused⟩ := h.standing k hk
  exact ⟨hbytes, hle, hselections, horigin, hsel, hpaused, hunpaused⟩

theorem setFlush {f : Flush P B β} {stage : FlushStage P B β} (hf : s.flushes[i]? = some f)
    (htaking : ∀ pages, f.stage ≠ .taking pages) : Content hash (s.setFlush i f.began stage) := by
  exact h.moveFlushes _ s.writing fun p ht => ht.setFlush hf htaking

theorem arrives (hs : s.arrives = some s') : Content hash s' := by
  cases hs
  refine h.moveFlushes _ s.writing ?_
  rintro p ⟨j, g, pages, hj, hg, hst⟩
  refine ⟨j, g, pages, hj, ?_, hst⟩
  rw [List.getElem?_append_left (List.getElem?_eq_some_iff.mp hg).1]
  exact hg

theorem writes (hs : s.writes = some s') : Content hash s' := by
  obtain ⟨-, rfl⟩ := ite_some_none_eq_some.mp hs
  exact h.moveFlushes s.flushes true fun p hp => hp

end

end Content

end Sproutfs.HostJournal
