import Sproutfs.HostJournal.Flush
import Sproutfs.HostJournal.Proofs.PageProofs

/-!
# A flush covers every page stored to before it

A page whose last store is not durable is unjournaled, on the standing seal's list, taken by the capture
under way, or in the batch in flight. Where no seal and no failure falls between a flush's reads, it finds
the page in one of these places.
-/

namespace Sproutfs.HostJournal

open List Option Machine Page

variable {P B β δ : Type} {s s' : Disk P B β δ} {p : P} {v : Nat} {stage : FlushStage P B β}
  {f : Flush P B β} {t i j v' : Nat} {began : P → Nat}

/-! ## Where a store that is not durable is found -/

namespace Disk

/-- The capture under way took the page. -/
def Takes (s : Disk P B β δ) (p : P) : Prop :=
  ∃ (i : Nat) (f : Flush P B β) (pages : P → Bool), s.capturing = some i ∧ s.flushes[i]? = some f ∧
    f.stage = .taking pages ∧ pages p = true

/-- A commit of the batch in flight took the page at version `v` or later. -/
def InBatch (s : Disk P B β δ) (p : P) (v : Nat) : Prop :=
  ∃ c ∈ s.batch, (c.part p).taken ∧ v ≤ (c.part p).version

/-- A flush holds the page in flight, taken at version `v` or later. -/
def HeldFrom (s : Disk P B β δ) (p : P) (v : Nat) : Prop :=
  ∃ (i : Nat) (f : Flush P B β) (c : Commit P B β), s.flushes[i]? = some f ∧ f.holds = some c ∧
    (c.part p).taken ∧ v ≤ (c.part p).version

end Disk

/-- What is known of a flush at each stage. -/
def Flush.Ok (s : Disk P B β δ) (i : Nat) (f : Flush P B β) : Prop :=
  (∀ p, f.began p ≤ (s.pages p).version) ∧
    match f.stage with
    | .waiting => True
    | .peeked seen => ∀ k, s.standing = some k → seen = some k.number
    | .looked pages => ∀ p, s.Durable p (f.began p) ∨ pages p ∨ s.Takes p ∨ s.HeldFrom p (f.began p)
    | .chosen pages => ∀ p, s.Durable p (f.began p) ∨ pages p
    | .taking pages => s.capturing = some i ∧
        ∀ p, s.Durable p (f.began p) ∨ pages p ∨ s.InBatch p (f.began p)
    | .captured c => c ∈ s.batch ∧ ∀ p, s.Durable p (f.began p) ∨ s.InBatch p (f.began p)
    | .landed c => c ∈ s.synced ∧ ∀ p, s.Durable p (f.began p)
    | .lost _ => True
    | .answered => ∀ p, s.Durable p (f.began p)
    | .failed => True

structure Chosen (s : Disk P B β δ) : Prop where
  pending : ∀ p, s.Durable p (s.pages p).version ∨ (s.pages p).unjournaled ∨ s.listed p ∨ s.Takes p ∨
    s.InBatch p (s.pages p).version
  writable : ∀ p, (s.pages p).writable → (s.pages p).unjournaled ∨
    ∃ k, s.standing = some k ∧ k.ending ∧ (k.part p).list
  free : s.standing = none → ∀ p, (s.pages p).held = false
  shared : ∀ k, s.standing = some k → ∀ p, (s.pages p).held → (k.part p).isProtected = false →
    (k.part p).list
  since : ∀ k, s.standing = some k → k.ending = false → ∀ p, (k.part p).list →
    (s.pages p).version = (k.part p).version ∨ (s.pages p).unjournaled ∨ s.Takes p
  unstored : ∀ k, s.standing = some k → ∀ p, (s.pages p).held →
    (s.pages p).version = (k.part p).version
  still : ∀ p, s.Takes p → (s.pages p).writable = false
  selected : ∀ k, s.standing = some k → k.selected →
    k.ending = false ∧ (fun p => (k.part p).version) ∈ s.selections
  batch : ∀ c ∈ s.batch, ∃ (i : Nat) (f : Flush P B β), s.flushes[i]? = some f ∧ f.stage = .captured c
  writing : s.writing → s.capturing = none
  flushes : ∀ (i : Nat) (f : Flush P B β), s.flushes[i]? = some f → f.Ok s i

/-! ## Frames -/

/-- What a step leaves in place for every flush but the `t`-th. -/
structure Keeps (t : Nat) (s s' : Disk P B β δ) : Prop where
  synced : ∀ c ∈ s.synced, c ∈ s'.synced
  selections : ∀ k ∈ s.selections, k ∈ s'.selections
  version : ∀ p, (s.pages p).version ≤ (s'.pages p).version
  capturing : ∀ i, i ≠ t → s.capturing = some i → s'.capturing = some i

/-- A page a flush has looked past stays where its read of the pages in flight finds it, or becomes
durable. -/
def Finds (s s' : Disk P B β δ) : Prop :=
  ∀ p v, v ≤ (s.pages p).version → s.Takes p ∨ s.HeldFrom p v →
    s'.Durable p v ∨ s'.Takes p ∨ s'.HeldFrom p v

/-- The standing seal stands, or has ended. -/
def SameSeal (s s' : Disk P B β δ) : Prop :=
  ∀ k', s'.standing = some k' → ∃ k, s.standing = some k ∧ k.number = k'.number

theorem Keeps.durable (h : Keeps t s s') (hd : s.Durable p v) : s'.Durable p v := by
  rcases hd with ⟨c, hc, hd⟩ | ⟨k, hk, hv⟩
  · exact .inl ⟨c, h.synced c hc, hd⟩
  · exact .inr ⟨k, h.selections k hk, hv⟩

theorem Disk.InBatch.mono (hb : s.InBatch p v) (h : s.batch ⊆ s'.batch) : s'.InBatch p v := by
  obtain ⟨c, hc, hb⟩ := hb
  exact ⟨c, h hc, hb⟩

/-- A flush waits for nothing of the batch in flight. -/
def Flush.Apart (f : Flush P B β) : Prop :=
  (∀ c, f.stage ≠ .captured c) ∧ ∀ pages, f.stage ≠ .taking pages

theorem Flush.Ok.keep (h : f.Ok s i) (hk : Keeps t s s') (hi : i ≠ t)
    (hfinds : ∀ pages, f.stage = .looked pages → Finds s s') (b : f.Apart ∨ s.batch ⊆ s'.batch)
    (k : ∀ seen, f.stage = .peeked seen → SameSeal s s') : f.Ok s' i := by
  obtain ⟨hbegan, h⟩ := h
  refine ⟨fun p => (hbegan p).trans (hk.version p), ?_⟩
  cases hst : f.stage with
  | waiting => trivial
  | peeked seen =>
    rw [hst] at h
    intro k' hk'
    obtain ⟨k, hs, hnum⟩ := k seen hst k' hk'
    rw [← hnum]
    exact h k hs
  | looked pages =>
    rw [hst] at h
    intro p
    rcases h p with hd | hp | hd
    · exact .inl (hk.durable hd)
    · exact .inr (.inl hp)
    · rcases hfinds pages hst p _ (hbegan p) hd with hd | hd
      · exact .inl hd
      · exact .inr (.inr hd)
  | chosen pages =>
    rw [hst] at h
    exact fun p => (h p).imp_left hk.durable
  | taking pages =>
    rw [hst] at h
    refine ⟨hk.capturing i hi h.1, fun p => ?_⟩
    rcases h.2 p with hd | hp | hb
    · exact .inl (hk.durable hd)
    · exact .inr (.inl hp)
    · exact .inr (.inr (hb.mono (b.resolve_left fun hf => hf.2 pages hst)))
  | captured c =>
    rw [hst] at h
    have hin := b.resolve_left fun hf => hf.1 c hst
    exact ⟨hin h.1, fun p => (h.2 p).imp hk.durable fun hb => hb.mono hin⟩
  | landed c =>
    rw [hst] at h
    exact ⟨hk.synced c h.1, fun p => hk.durable (h.2 p)⟩
  | lost c => trivial
  | answered =>
    rw [hst] at h
    exact fun p => hk.durable (h p)
  | failed => trivial

theorem setFlush_get (h : (s.setFlush i began stage).flushes[j]? = some f) :
    (j = i ∧ f = ⟨began, stage⟩) ∨ (j ≠ i ∧ s.flushes[j]? = some f) := by
  simp only [Disk.setFlush, getElem?_set] at h
  by_cases hj : i = j
  · subst hj
    rw [if_pos rfl] at h
    obtain ⟨-, h⟩ := ite_none_right_eq_some.mp h
    exact .inl ⟨rfl, (Option.some.inj h).symm⟩
  · rw [if_neg hj] at h
    exact .inr ⟨fun h => hj h.symm, h⟩

theorem setFlush_get_self (h : s.flushes[i]? = some f) :
    (s.setFlush i began stage).flushes[i]? = some ⟨began, stage⟩ := by
  have hlt : i < s.flushes.length := (List.getElem?_eq_some_iff.mp h).1
  simp [Disk.setFlush, hlt]

theorem setFlush_get_ne (h : j ≠ i) : (s.setFlush i began stage).flushes[j]? = s.flushes[j]? := by
  simp only [Disk.setFlush, getElem?_set]
  rw [if_neg fun hij => h hij.symm]

theorem mem_flushes_iff : f ∈ s.flushes ↔ ∃ i : Nat, s.flushes[i]? = some f :=
  mem_iff_getElem?

theorem Disk.HeldFrom.inflight (h : s.HeldFrom p v) : s.inflight p = true := by
  obtain ⟨i, f, c, hf, hc, ht, -⟩ := h
  refine any_eq_true.mpr ⟨f, mem_flushes_iff.mpr ⟨i, hf⟩, ?_⟩
  rw [hc, any_some]
  exact ht

theorem listed_iff : s.listed p = true ↔ ∃ k, s.standing = some k ∧ (k.part p).list = true := by
  unfold Disk.listed
  cases s.standing <;> simp

theorem Disk.regionFree_iff :
    s.regionFree = true ↔ s.capturing = none ∧ ∀ k, s.standing = some k → k.stage ≠ .taking := by
  unfold Disk.regionFree
  cases s.standing <;> simp [isNone_iff_eq_none]

theorem not_takes (h : s.capturing = none) : ¬ s.Takes p := by
  rintro ⟨i, f, pages, hc, -⟩
  rw [h] at hc
  cases hc

theorem Disk.Durable.le (h : s.Durable p v) (hv : v' ≤ v) : s.Durable p v' := by
  rcases h with ⟨c, hc, ht, hle⟩ | ⟨k, hk, hle⟩
  · exact .inl ⟨c, hc, ht, hv.trans hle⟩
  · exact .inr ⟨k, hk, hv.trans hle⟩

theorem Disk.InBatch.le (h : s.InBatch p v) (hv : v' ≤ v) : s.InBatch p v' := by
  obtain ⟨c, hc, ht, hle⟩ := h
  exact ⟨c, hc, ht, hv.trans hle⟩

theorem Chosen.keepAll (h : Chosen s) (hk : Keeps s.flushes.length s s')
    (hf : s'.flushes = s.flushes) (hc : s'.capturing = s.capturing) (hb : s'.batch = s.batch)
    (k : ∀ f ∈ s.flushes, ∀ seen, f.stage = .peeked seen → SameSeal s s') :
    ∀ (i : Nat) (f : Flush P B β), s'.flushes[i]? = some f → f.Ok s' i := by
  intro i f hi
  rw [hf] at hi
  have hlt : i < s.flushes.length := (List.getElem?_eq_some_iff.mp hi).1
  refine (h.flushes i f hi).keep hk (by omega) (fun _ _ => ?_) (.inr (hb ▸ Subset.refl _))
    (k f (mem_flushes_iff.mpr ⟨i, hi⟩))
  rintro p v - (⟨j, g, pages, hj, hg⟩ | ⟨j, g, c, hg⟩)
  · exact .inr (.inl ⟨j, g, pages, hc.trans hj, hf ▸ hg⟩)
  · exact .inr (.inr ⟨j, g, c, hf ▸ hg⟩)

theorem setFlush_keeps {g : Flush P B β} (hf : s.flushes[i]? = some f) (hg : s.flushes[j]? = some g)
    (hne : g ≠ f) : (s.setFlush i began stage).flushes[j]? = some g := by
  rw [setFlush_get_ne]
  · exact hg
  · rintro rfl
    rw [hf] at hg
    cases hg
    exact hne rfl

theorem Disk.Takes.setFlush (h : s.Takes p) (hf : s.flushes[i]? = some f)
    (htaking : ∀ pages, f.stage ≠ .taking pages) : (s.setFlush i began stage).Takes p := by
  obtain ⟨j, g, pages, hj, hg, hst, hp⟩ := h
  refine ⟨j, g, pages, hj, setFlush_keeps hf hg ?_, hst, hp⟩
  rintro rfl
  exact htaking pages hst

theorem Disk.HeldFrom.setFlush (h : s.HeldFrom p v) (hf : s.flushes[i]? = some f)
    (hholds : f.holds = none) : (s.setFlush i began stage).HeldFrom p v := by
  obtain ⟨j, g, c, hg, hc, hp⟩ := h
  refine ⟨j, g, c, setFlush_keeps hf hg ?_, hc, hp⟩
  rintro rfl
  rw [hholds] at hc
  cases hc

theorem setFlush_finds (stage : FlushStage P B β) (hf : s.flushes[i]? = some f)
    (htaking : ∀ pages, f.stage ≠ .taking pages) (hholds : f.holds = none) :
    Finds s (s.setFlush i f.began stage) := by
  rintro p v - (ht | hheld)
  · exact .inr (.inl (ht.setFlush hf htaking))
  · exact .inr (.inr (hheld.setFlush hf hholds))

theorem takes_of_setFlush (hstage : ∀ pages, stage ≠ .taking pages)
    (h : (s.setFlush i began stage).Takes p) : s.Takes p := by
  obtain ⟨j, g, pages, hj, hg, hst, hp⟩ := h
  rcases setFlush_get hg with ⟨-, rfl⟩ | ⟨-, hg⟩
  · exact absurd hst (hstage pages)
  · exact ⟨j, g, pages, hj, hg, hst, hp⟩

theorem Chosen.reflush {flushes : List (Flush P B β)} (h : Chosen s)
    (htakes : ∀ p, ({ s with flushes } : Disk P B β δ).Takes p ↔ s.Takes p)
    (hbatch : ∀ c ∈ s.batch, ∃ (i : Nat) (f : Flush P B β), flushes[i]? = some f ∧ f.stage = .captured c)
    (hflushes : ∀ (i : Nat) (f : Flush P B β), flushes[i]? = some f → f.Ok { s with flushes } i) :
    Chosen { s with flushes } := by
  refine { h with pending := ?_, since := ?_, still := ?_, batch := hbatch, flushes := hflushes }
  · intro p
    rw [htakes]
    exact h.pending p
  · intro k hk hend p
    rw [htakes]
    exact h.since k hk hend p
  · intro p
    rw [htakes]
    exact h.still p

/-- One flush moves on, from a stage in which it captures nothing and is not in the batch to one in
which it captures nothing. -/
theorem Chosen.moveOne (h : Chosen s) (hf : s.flushes[i]? = some f)
    (htaking : ∀ pages, f.stage ≠ .taking pages) (hcaptured : ∀ c, f.stage ≠ .captured c)
    (htaking' : ∀ pages, stage ≠ .taking pages)
    (hok : Flush.Ok (s.setFlush i f.began stage) i ⟨f.began, stage⟩)
    (hfinds : ∀ g ∈ s.flushes, ∀ pages, g.stage = .looked pages → Finds s (s.setFlush i f.began stage)) :
    Chosen (s.setFlush i f.began stage) := by
  refine h.reflush (fun p => ⟨takes_of_setFlush htaking', fun ht => ht.setFlush hf htaking⟩) ?_ ?_
  · intro c hc
    obtain ⟨j, g, hg, hst⟩ := h.batch c hc
    refine ⟨j, g, setFlush_keeps hf hg ?_, hst⟩
    rintro rfl
    exact hcaptured c hst
  · intro j g hg
    rcases setFlush_get hg with ⟨rfl, rfl⟩ | ⟨hne, hg⟩
    · exact hok
    · exact (h.flushes j g hg).keep ⟨fun _ h => h, fun _ h => h, fun _ => Nat.le_refl _, fun _ _ h => h⟩
        hne (hfinds g (mem_flushes_iff.mpr ⟨j, hg⟩)) (.inr fun _ h => h) fun _ _ k hk => ⟨k, hk, rfl⟩

theorem Chosen.moveFlush (h : Chosen s) (hf : s.flushes[i]? = some f)
    (htaking : ∀ pages, f.stage ≠ .taking pages) (hholds : f.holds = none)
    (htaking' : ∀ pages, stage ≠ .taking pages)
    (hok : Flush.Ok (s.setFlush i f.began stage) i ⟨f.began, stage⟩) :
    Chosen (s.setFlush i f.began stage) := by
  refine h.moveOne hf htaking (fun c hst => ?_) htaking' hok
    fun _ _ _ _ => setFlush_finds stage hf htaking hholds
  rw [Flush.holds, hst] at hholds
  cases hholds

theorem Chosen.reseal {k : Seal P B β} {stage : SealStage} {selected ending : Bool}
    {sel : Base P B β} {selections : List (P → Nat)} (h : Chosen s) (hk : s.standing = some k)
    (hend : k.ending → ending) (hsub : s.selections ⊆ selections)
    (hselected : selected → ending = false ∧ (fun p => (k.part p).version) ∈ selections) :
    Chosen { s with sel, selections, standing := some { k with stage, selected, ending } } := by
  have hkeeps : Keeps s.flushes.length s
      { s with sel, selections, standing := some { k with stage, selected, ending } } :=
    ⟨fun _ h => h, hsub, fun _ => Nat.le_refl _, fun _ _ h => h⟩
  refine ⟨?_, ?_, ?_, ?_, ?_, ?_, h.still, ?_, h.batch, h.writing, ?_⟩
  · intro p
    rcases h.pending p with h' | h' | h' | h'
    · exact .inl (hkeeps.durable h')
    · exact .inr (.inl h')
    · obtain ⟨k', hk', hl⟩ := listed_iff.mp h'
      cases hk.symm.trans hk'
      exact .inr (.inr (.inl (listed_iff.mpr ⟨_, rfl, hl⟩)))
    · exact .inr (.inr (.inr h'))
  · intro p hp
    rcases h.writable p hp with hu | ⟨k', hk', hend', hl⟩
    · exact .inl hu
    · cases hk.symm.trans hk'
      exact .inr ⟨_, rfl, hend hend', hl⟩
  · rintro ⟨⟩
  · rintro _ ⟨⟩
    exact h.shared k hk
  · rintro _ ⟨⟩ hopen
    refine h.since k hk (Bool.not_eq_true _ ▸ fun hk' => ?_)
    exact Bool.noConfusion (hopen.symm.trans (hend hk'))
  · rintro _ ⟨⟩
    exact h.unstored k hk
  · rintro _ ⟨⟩
    exact hselected
  · refine h.keepAll hkeeps rfl rfl rfl ?_
    rintro _ _ _ _ _ ⟨⟩
    exact ⟨k, hk, rfl⟩

/-! ## Faults and stores -/

section Pages

variable [DecidableEq P]

theorem setPage_pages (s : Disk P B β δ) (p q : P) (g : Page B β δ) :
    q = p ∧ (s.setPage p g).pages q = g ∨ (s.setPage p g).pages q = s.pages q := by
  by_cases hq : q = p
  · subst hq
    exact .inl ⟨rfl, Function.update_self _ _ _⟩
  · exact .inr (Function.update_of_ne hq _ _)

section

variable (h : Chosen s)

include h

theorem Chosen.setPage {g : Page B β δ} (hver : (s.pages p).version ≤ g.version)
    (hpending : s.Durable p g.version ∨ g.unjournaled ∨ s.listed p ∨ s.Takes p ∨ s.InBatch p g.version)
    (hwritable : g.writable → g.unjournaled ∨ ∃ k, s.standing = some k ∧ k.ending ∧ (k.part p).list)
    (hheld : g.held → (s.pages p).held ∧ g.version = (s.pages p).version)
    (hsince : ∀ k, s.standing = some k → k.ending = false → (k.part p).list → g.version = (k.part p).version ∨ g.unjournaled ∨ s.Takes p)
    (hstill : s.Takes p → g.writable = false) : Chosen (s.setPage p g) := by
  refine ⟨?_, ?_, ?_, ?_, ?_, ?_, ?_, h.selected, h.batch, h.writing, ?_⟩
  · intro q
    obtain ⟨rfl, hq⟩ | hq := setPage_pages s p q g <;> rw [hq]
    · exact hpending
    · exact h.pending q
  · intro q
    obtain ⟨rfl, hq⟩ | hq := setPage_pages s p q g <;> rw [hq]
    · exact hwritable
    · exact h.writable q
  · intro hnone q
    obtain ⟨rfl, hq⟩ | hq := setPage_pages s p q g <;> rw [hq]
    · rw [← Bool.not_eq_true]
      intro hg
      cases (h.free hnone q).symm.trans (hheld hg).1
    · exact h.free hnone q
  · intro k hk q
    obtain ⟨rfl, hq⟩ | hq := setPage_pages s p q g <;> rw [hq]
    · exact fun hg => h.shared k hk q (hheld hg).1
    · exact h.shared k hk q
  · intro k hk hend q
    obtain ⟨rfl, hq⟩ | hq := setPage_pages s p q g <;> rw [hq]
    · exact hsince k hk hend
    · exact h.since k hk hend q
  · intro k hk q
    obtain ⟨rfl, hq⟩ | hq := setPage_pages s p q g <;> rw [hq]
    · intro hg
      rw [(hheld hg).2]
      exact h.unstored k hk q (hheld hg).1
    · exact h.unstored k hk q
  · intro q
    obtain ⟨rfl, hq⟩ | hq := setPage_pages s p q g <;> rw [hq]
    · exact hstill
    · exact h.still q
  · refine h.keepAll ⟨fun _ h => h, fun _ h => h, fun q => ?_, fun _ _ h => h⟩ rfl rfl rfl
      fun _ _ _ _ k hk => ⟨k, hk, rfl⟩
    obtain ⟨rfl, hq⟩ | hq := setPage_pages s p q g <;> rw [hq]
    exact hver

theorem Chosen.traps {known : Bool} (hs : s.traps p known = some s') : Chosen s' := by
  obtain ⟨hok, rfl⟩ := ite_some_none_eq_some.mp hs
  simp only [Bool.and_eq_true, isNone_iff_eq_none] at hok
  refine h.setPage (Nat.le_of_eq version_trap.symm) (.inr (.inl unjournaled_trap))
    (fun _ => .inl unjournaled_trap) ?_ (fun _ _ _ _ => .inr (.inl unjournaled_trap))
    fun ht => absurd ht (not_takes hok.1.2)
  intro hg
  rw [held_trap] at hg
  cases hg

theorem Chosen.stores [DecidableEq B] {b : B} {x : β} (hs : s.stores p b x = some s') : Chosen s' := by
  obtain ⟨hok, rfl⟩ := ite_some_none_eq_some.mp hs
  rw [Bool.and_eq_true] at hok
  have hw := h.writable p hok.2
  refine h.setPage (Nat.le_succ _) ?_ (fun _ => hw) ?_ ?_ ?_
  · rcases hw with hu | ⟨k, hk, -, hl⟩
    · exact .inr (.inl hu)
    · exact .inr (.inr (.inl (listed_iff.mpr ⟨k, hk, hl⟩)))
  · intro hg
    have hnot : (s.pages p).held = false := by
      have := hok.2
      simp only [Page.writable, Bool.and_eq_true, Bool.not_eq_true'] at this
      exact this.1.2
    rw [show ((s.pages p).store b x).held = (s.pages p).held from rfl, hnot] at hg
    cases hg
  · intro k hk hend _
    rcases hw with hu | ⟨k', hk', hend', -⟩
    · exact .inr (.inl hu)
    · rw [hk] at hk'
      cases hk'
      rw [hend] at hend'
      cases hend'
  · intro ht
    have := h.still p ht
    rw [hok.2] at this
    cases this

theorem Chosen.retirePage : Chosen (s.setPage p (s.pages p).retired) := by
  refine h.setPage (Nat.le_of_eq version_retired.symm) ?_ ?_ ?_ ?_ ?_
  · rw [version_retired, unjournaled_retired]
    exact h.pending p
  · rw [writable_retired, unjournaled_retired]
    exact h.writable p
  · intro hg
    rw [held_retired] at hg
    cases hg
  · rw [version_retired, unjournaled_retired]
    exact fun k hk hend hl => h.since k hk hend p hl
  · rw [writable_retired]
    exact h.still p

theorem Chosen.settles [DecidableEq (B → β)] (hs : s.settles p = some s') : Chosen s' := by
  obtain ⟨k, -, hs⟩ := bind_eq_some_iff.mp hs
  obtain ⟨-, rfl⟩ := ite_some_none_eq_some.mp hs
  exact h.retirePage

theorem Chosen.finalizes (hs : s.finalizes p = some s') : Chosen s' := by
  obtain ⟨k, -, hs⟩ := bind_eq_some_iff.mp hs
  obtain ⟨-, rfl⟩ := ite_some_none_eq_some.mp hs
  exact h.retirePage

omit [DecidableEq P] in
theorem Chosen.endSeal {k : Seal P B β} (hk : s.standing = some k) (hsel : k.selected = false) :
    Chosen { s with standing := some { k with ending := true } } :=
  h.reseal hk (fun _ => rfl) (List.Subset.refl _) fun hsel' => absurd (hsel.symm.trans hsel') (by simp)

theorem Chosen.restores (hs : s.restores p = some s') : Chosen s' := by
  obtain ⟨k, hk, hs⟩ := bind_eq_some_iff.mp hs
  obtain ⟨hok, rfl⟩ := ite_some_none_eq_some.mp hs
  rw [Bool.and_eq_true, Bool.not_eq_true', Disk.regionFree_iff] at hok
  refine (h.endSeal hk hok.2).setPage (p := p) (g := (s.pages p).restored (k.part p))
    (Nat.le_of_eq version_restored.symm) ?_ ?_ ?_ ?_ ?_
  · rw [version_restored, unjournaled_restored]
    exact (h.endSeal hk hok.2).pending p
  · intro hg
    rw [unjournaled_restored]
    rcases writable_restored hg with hw | ⟨hheld, hprot⟩
    · exact (h.endSeal hk hok.2).writable p hw
    · exact .inr ⟨_, rfl, rfl, h.shared k hk p hheld hprot⟩
  · intro hg
    rw [held_restored] at hg
    cases hg
  · rintro _ ⟨⟩ hend
    cases hend
  · exact fun ht => absurd ht (not_takes hok.1.1)

end

end Pages

end Sproutfs.HostJournal
