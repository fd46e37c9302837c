import Sproutfs.HostJournal.Flush
import Sproutfs.HostJournal.Proofs.PageProofs

/-!
# What a replay gives one page

The entries that name a page hold what it held when they were captured. Over a checkpoint, the entries
that landed give each block what it held at the last capture that took the page, or later.
-/

namespace Sproutfs.HostJournal

open List Function Page

variable {P B β δ : Type} {p : P} {X : Base P B β} {l m : List (Commit P B β)} {c : Commit P B β}

/-! ## Replaying -/

theorem Base.replay_append_none (h : ∀ c ∈ m, X.covered < c.ordinal → ∀ b, (c.part p).blocks b = none) :
    X.replay (l ++ m) p = X.replay l p := by
  funext b
  unfold Base.replay
  rw [filter_append, map_append, Overlay.replay_append]
  refine Overlay.replay_untouched fun w hw => ?_
  obtain ⟨c, hc, rfl⟩ := mem_map.mp hw
  obtain ⟨hc, hcov⟩ := mem_filter.mp hc
  exact h c hc (of_decide_eq_true hcov) b

theorem Base.replay_none (h : ∀ c ∈ m, X.covered < c.ordinal → ∀ b, (c.part p).blocks b = none) :
    X.replay m p = X.bytes p :=
  replay_append_none (l := []) h

theorem Base.replay_covered (h : ∀ c ∈ l, c.ordinal ≤ X.covered) : X.replay l p = X.bytes p :=
  replay_none fun c hc hcov => absurd (h c hc) (by omega)

theorem Base.replay_snoc (h : X.covered < c.ordinal) :
    X.replay (l ++ [c]) p = Overlay.lay (X.replay l p) (c.part p).blocks := by
  unfold Base.replay
  rw [filter_append, map_append, Overlay.replay_append, filter_singleton,
    decide_eq_true h]
  rfl

theorem Base.replay_mem (b : B) : X.replay l p b = X.bytes p b ∨
    ∃ c ∈ l, X.covered < c.ordinal ∧ (c.part p).blocks b = some (X.replay l p b) := by
  rcases Overlay.replay_mem (X.bytes p)
    ((l.filter fun c => X.covered < c.ordinal).map fun c => (c.part p).blocks) b with h | ⟨w, hw, h⟩
  · exact .inl h
  · obtain ⟨c, hc, rfl⟩ := mem_map.mp hw
    obtain ⟨hc, hcov⟩ := mem_filter.mp hc
    exact .inr ⟨c, hc, of_decide_eq_true hcov, h⟩

/-! ## The entries of a page -/

variable {g g' : Page B β δ}

/-- The entries of a page hold what it held when they were captured. -/
def Recorded (p : P) (g : Page B β δ) (l : List (Commit P B β)) : Prop :=
  ∀ c ∈ l, (c.part p).version ≤ g.version ∧
    ∀ b x, (c.part p).blocks b = some x → (c.part p).taken ∧ x = g.history (c.part p).version b

/-- A page moves on: it holds what it held, and later contents. -/
structure Grows (g g' : Page B β δ) : Prop where
  version : g.version ≤ g'.version
  history : ∀ n ≤ g.version, g'.history n = g.history n

theorem Grows.of_eq (hver : g'.version = g.version) (hhist : g'.history = g.history) : Grows g g' :=
  ⟨Nat.le_of_eq hver.symm, fun n _ => congrFun hhist n⟩

theorem Grows.store [DecidableEq B] {b : B} {x : β} : Grows g (g.store b x) := by
  refine ⟨Nat.le_succ _, fun n hn => ?_⟩
  exact update_of_ne (by omega) _ _

theorem Recorded.grow (h : Recorded p g l) (hg : Grows g g') : Recorded p g' l := by
  intro c hc
  obtain ⟨hver, hblocks⟩ := h c hc
  refine ⟨hver.trans hg.version, fun b x hb => ?_⟩
  rw [hg.history _ hver]
  exact hblocks b x hb

theorem Recorded.mono (h : Recorded p g l) (hm : m ⊆ l) : Recorded p g m := fun c hc => h c (hm hc)

theorem Recorded.untaken (h : Recorded p g l) (hc : c ∈ l) (ht : (c.part p).taken = false) (b : B) :
    (c.part p).blocks b = none := by
  cases hb : (c.part p).blocks b with
  | none => rfl
  | some x =>
    have := ((h c hc).2 b x hb).1
    rw [ht] at this
    cases this

section Part

variable [DecidableEq δ] {hash : β → δ} {take resident : Bool}

theorem part_untaken (b : B) : (g.part hash false resident).blocks b = none := rfl

theorem part_clean (h : g.dirty = false) (b : B) : (g.part hash take resident).blocks b = none := by
  show (if take then g.changed hash resident else fun _ => none) b = none
  split
  · simp [changed, h]
  · rfl

theorem part_some {b : B} {x : β} (h : (g.part hash take resident).blocks b = some x) :
    take = true ∧ x = g.bytes b := by
  have hb : (if take then g.changed hash resident else fun _ => none) b = some x := h
  cases take with
  | false => cases hb
  | true =>
    refine ⟨rfl, ?_⟩
    rw [if_pos rfl, changed] at hb
    obtain ⟨-, hb⟩ := Option.ite_none_right_eq_some.mp hb
    split at hb
    · split at hb
      · cases hb
      · exact (Option.some.inj hb).symm
    · exact (Option.some.inj hb).symm

/-- A block a capture that took the page leaves out has the digest it is compared with. -/
theorem part_none (hd : g.dirty = true) {b : B} (h : (g.part hash true resident).blocks b = none) :
    ∃ sums, g.previous hash resident = some sums ∧ sums b = hash (g.bytes b) := by
  have hb : g.changed hash resident b = none := h
  rw [changed, if_pos hd] at hb
  split at hb
  · next sums hp =>
    split at hb
    · next heq => exact ⟨sums, hp, heq⟩
    · cases hb
  · cases hb

end Part

/-! ## The page over a checkpoint -/

/-- What is known of a page over the checkpoint `X`, which holds it as it was after `w` stores. -/
structure Follows (hash : β → δ) (p : P) (g : Page B β δ) (synced tail batch : List (Commit P B β))
    (X : Base P B β) (w : Nat) : Prop where
  base : X.bytes p = g.history w
  le : w ≤ g.version
  later : ∀ c ∈ synced ++ (tail ++ batch), X.covered < c.ordinal → (c.part p).taken →
    w ≤ (c.part p).version
  landed : ∀ c ∈ synced, (c.part p).taken → ∀ l, l.Sublist (tail ++ batch) → ∀ b, ∃ k,
    (c.part p).version ≤ k ∧ k ≤ g.version ∧ X.replay (synced ++ l) p b = g.history k b
  landing : ∀ c ∈ batch, (c.part p).taken → ∀ b, ∃ k,
    (c.part p).version ≤ k ∧ k ≤ g.version ∧ X.replay (synced ++ batch) p b = g.history k b
  sums : ∀ d, g.digests = .known d → ∀ b, d b = hash (X.replay (synced ++ batch) p b)
  clean : g.dirty = false → X.bytes p = g.bytes ∧
    ∀ l, l.Sublist (tail ++ batch) → X.replay (synced ++ l) p = g.bytes
  origin : g.dirty = true → g.held = false → ∀ o, g.origin = some o → X.bytes p = o ∧
    (g.digests = .absent → ∀ l, l.Sublist (tail ++ batch) → X.replay (synced ++ l) p = o)

namespace Follows

variable {hash : β → δ} {synced tail batch : List (Commit P B β)} {w : Nat}

/-- Every outcome of a crash gives a block what it held at the checkpoint, or later. -/
theorem after (h : Follows hash p g synced tail batch X w)
    (hrec : Recorded p g (synced ++ (tail ++ batch))) (hl : l ⊆ synced ++ (tail ++ batch)) (b : B) :
    ∃ k, w ≤ k ∧ k ≤ g.version ∧ X.replay l p b = g.history k b := by
  rcases Base.replay_mem (X := X) (l := l) (p := p) b with heq | ⟨c, hc, hcov, hb⟩
  · exact ⟨w, Nat.le_refl _, h.le, by rw [heq, h.base]⟩
  · obtain ⟨hver, hblocks⟩ := hrec c (hl hc)
    obtain ⟨htaken, heq⟩ := hblocks b _ hb
    exact ⟨_, h.later c (hl hc) hcov htaken, hver, heq⟩

theorem settled (h : Follows hash p g synced tail batch X w) (hw : g.version = w)
    (hrec : Recorded p g (synced ++ (tail ++ batch))) (hl : l ⊆ synced ++ (tail ++ batch)) :
    X.replay l p = g.bytes := by
  funext b
  obtain ⟨k, hwk, hk, heq⟩ := h.after hrec hl b
  rw [heq, bytes, show k = g.version by omega]

theorem of_covered (hcov : ∀ c ∈ synced ++ (tail ++ batch), c.ordinal ≤ X.covered)
    (hrec : Recorded p g (synced ++ (tail ++ batch))) (hX : X.bytes p = g.bytes)
    (hsums : ∀ d, g.digests = .known d → ∀ b, d b = hash (g.bytes b))
    (hheld : g.dirty = true → g.held = true) :
    Follows hash p g synced tail batch X g.version := by
  have hgives : ∀ l, l ⊆ synced ++ (tail ++ batch) → X.replay l p = g.bytes :=
    fun l hl => (Base.replay_covered fun c hc => hcov c (hl hc)).trans hX
  have hsub : ∀ l, l.Sublist (tail ++ batch) → synced ++ l ⊆ synced ++ (tail ++ batch) :=
    fun l hl => (hl.append_left synced).subset
  have hbatch : synced ++ batch ⊆ synced ++ (tail ++ batch) :=
    hsub batch (sublist_append_right _ _)
  refine ⟨hX, Nat.le_refl _, ?_, ?_, ?_, ?_, ?_, ?_⟩
  · intro c hc hlt
    have := hcov c hc
    omega
  · intro c hc _ l hl b
    exact ⟨g.version, (hrec c (mem_append_left _ hc)).1, Nat.le_refl _,
      congrFun (hgives _ (hsub l hl)) b⟩
  · intro c hc _ b
    exact ⟨g.version, (hrec c (hbatch (mem_append_right _ hc))).1, Nat.le_refl _,
      congrFun (hgives _ hbatch) b⟩
  · intro d hd b
    rw [hgives _ hbatch]
    exact hsums d hd b
  · exact fun _ => ⟨hX, fun l hl => hgives _ (hsub l hl)⟩
  · intro hd hnot
    rw [hheld hd] at hnot
    cases hnot

/-! ## Changes of the page -/

section

variable (h : Follows hash p g synced tail batch X w)

include h

theorem grow (hg : Grows g g') (hsums : ∀ d, g'.digests = .known d → g.digests = .known d)
    (hclean : g'.dirty = false → X.bytes p = g'.bytes ∧ ∀ l, l.Sublist (tail ++ batch) → X.replay (synced ++ l) p = g'.bytes)
    (horigin : g'.dirty = true → g'.held = false → ∀ o, g'.origin = some o → X.bytes p = o ∧ (g'.digests = .absent → ∀ l, l.Sublist (tail ++ batch) → X.replay (synced ++ l) p = o)) :
    Follows hash p g' synced tail batch X w := by
  refine ⟨?_, h.le.trans hg.version, h.later, ?_, ?_, fun d hd => h.sums d (hsums d hd), hclean, horigin⟩
  · rw [hg.history w h.le]
    exact h.base
  · intro c hc ht l hl b
    obtain ⟨k, hck, hk, heq⟩ := h.landed c hc ht l hl b
    exact ⟨k, hck, hk.trans hg.version, by rw [heq, hg.history k hk]⟩
  · intro c hc ht b
    obtain ⟨k, hck, hk, heq⟩ := h.landing c hc ht b
    exact ⟨k, hck, hk.trans hg.version, by rw [heq, hg.history k hk]⟩

theorem trap {known : Bool} : Follows hash p (g.trap known) synced tail batch X w := by
  refine h.grow (.of_eq version_trap history_trap) (fun d hd => digests_trap ▸ hd) ?_ ?_
  · intro hclean
    rw [dirty_trap] at hclean
    -- A page a fault leaves clean shared a seal's copy, and was clean then.
    have hd : g.dirty = false := by
      cases hh : g.held <;> simp_all
    have hb : (g.trap known).bytes = g.bytes := by rw [bytes, bytes, version_trap, history_trap]
    rw [hb]
    exact h.clean hd
  · intro _ _ o ho
    rw [digests_trap]
    unfold Page.trap noteStored at ho
    split at ho
    · cases ho
    · next hheld =>
      rw [Bool.not_eq_true] at hheld
      split at ho
      · next hd => exact h.origin hd hheld o ho
      · next hd =>
        rw [Bool.not_eq_true] at hd
        obtain ⟨hbase, hall⟩ := h.clean hd
        have heq : o = g.bytes := by
          cases known with
          | false => cases ho
          | true => exact (Option.some.inj ho).symm
        rw [heq]
        exact ⟨hbase, fun _ => hall⟩

theorem store [DecidableEq B] {b : B} {x : β} (hw : g.writable = true) :
    Follows hash p (g.store b x) synced tail batch X w := by
  refine h.grow .store (fun _ hd => hd) ?_ h.origin
  intro hclean
  have hd : g.dirty = false := hclean
  rw [writable, hd] at hw
  cases hw

theorem sealedPage (hheld : g.held = false) : Follows hash p g.sealedPage synced tail batch X w := by
  refine h.grow (.of_eq version_sealedPage history_sealedPage) ?_ ?_ ?_
  · intro d hd
    rw [digests_sealedPage] at hd
    split at hd
    · cases hd
    · exact hd
  · intro hclean
    rw [dirty_sealedPage] at hclean
    rw [bytes, version_sealedPage, history_sealedPage]
    exact h.clean hclean
  · intro hd hnot
    rw [held_sealedPage hheld] at hnot
    rw [dirty_sealedPage, hnot] at hd
    cases hd

theorem markCaptured : Follows hash p g.markCaptured synced tail batch X w :=
  { h with }

theorem giveBack : Follows hash p g.giveBack synced tail batch X w := by
  refine h.grow (.of_eq rfl rfl) nofun h.clean ?_
  exact fun hd hheld o ho => ⟨(h.origin hd hheld o ho).1, nofun⟩

section

variable (hheld : g.held = true → X.bytes p = g.bytes ∧ ∀ l, l.Sublist (tail ++ batch) → X.replay (synced ++ l) p = g.bytes)

include hheld

theorem retired : Follows hash p g.retired synced tail batch X w := by
  by_cases hh : g.held = true
  · rw [Page.retired, if_pos hh]
    exact h.grow (.of_eq rfl rfl) (fun _ hd => hd) (fun _ => hheld hh) nofun
  · rw [Page.retired, if_neg hh]
    exact h

theorem published {list : Bool} : Follows hash p (g.published list) synced tail batch X w := by
  have h' := h.retired hheld
  unfold Page.published
  split
  · next hclean =>
    rw [Bool.and_eq_true, Bool.not_eq_true'] at hclean
    refine h'.grow (.of_eq rfl rfl) nofun h'.clean ?_
    intro hd
    have hd' : g.retired.dirty = true := hd
    rw [hclean.2] at hd'
    cases hd'
  · exact h'

end

theorem restored {k : Sealed B β} (habsent : g.held = true → g.digests ≠ .absent)
    (horigin : g.held = true → ∀ o, k.origin = some o → X.bytes p = o) :
    Follows hash p (g.restored k) synced tail batch X w := by
  by_cases hh : g.held = true
  · rw [Page.restored, if_pos hh]
    exact h.grow (.of_eq rfl rfl) (fun _ hd => hd) h.clean
      fun _ _ o ho => ⟨horigin hh o ho, fun ha => absurd ha (habsent hh)⟩
  · rw [Page.restored, if_neg hh]
    exact h

theorem abandoned {k : Sealed B β} (habsent : g.held = true → g.digests ≠ .absent)
    (horigin : g.held = true → ∀ o, k.origin = some o → X.bytes p = o) :
    Follows hash p (g.abandoned k) synced tail batch X w := by
  unfold Page.abandoned
  split
  · exact (h.restored habsent horigin).giveBack
  · exact h.restored habsent horigin

end

/-! ## Captures and batches -/

theorem taken_gives [DecidableEq δ] {resident : Bool} {c : Commit P B β}
    (hinj : Injective hash) (h : Follows hash p g synced tail batch X w)
    (habsent : g.held = true → g.digests ≠ .absent) (hc : c.part p = g.part hash true resident)
    (hcov : X.covered < c.ordinal) : X.replay (synced ++ (batch ++ [c])) p = g.bytes := by
  have hsub : batch.Sublist (tail ++ batch) := sublist_append_right _ _
  funext b
  rw [← append_assoc, Base.replay_snoc hcov, hc]
  by_cases hd : g.dirty = true
  · cases hb : (g.part hash true resident).blocks b with
    | some x => rw [Overlay.lay_some hb, (part_some hb).2]
    | none =>
      rw [Overlay.lay_none hb]
      obtain ⟨sums, hprev, heq⟩ := part_none hd hb
      -- The block was left out for its digest: the one its last entry has, or that of its origin.
      unfold previous at hprev
      split at hprev
      · next d hdig =>
        cases hprev
        exact hinj ((h.sums _ hdig b).symm.trans heq)
      · cases hprev
      · next hdig =>
        obtain ⟨-, hprev⟩ := Option.ite_none_right_eq_some.mp hprev
        obtain ⟨o, ho, rfl⟩ := Option.map_eq_some_iff.mp hprev
        have hheld : g.held = false := by
          rw [← Bool.not_eq_true]
          exact fun hh => habsent hh hdig
        rw [((h.origin hd hheld o ho).2 hdig batch hsub)]
        exact hinj heq
  · rw [Bool.not_eq_true] at hd
    rw [Overlay.lay_none (part_clean hd b), (h.clean hd).2 batch hsub]

/-- An outcome with one more entry in flight is one without it, or ends in it. -/
theorem sublist_snoc (hl : l.Sublist (tail ++ (batch ++ [c]))) :
    l.Sublist (tail ++ batch) ∨ ∃ m, m.Sublist (tail ++ batch) ∧ l = m ++ [c] := by
  rw [← append_assoc] at hl
  obtain ⟨m, n, rfl, hm, hn⟩ := sublist_append_iff.mp hl
  rcases sublist_singleton.mp hn with rfl | rfl
  · exact .inl (by simpa using hm)
  · exact .inr ⟨m, hm, rfl⟩

theorem capture [DecidableEq δ] {take resident : Bool} {c : Commit P B β}
    (hinj : Injective hash) (h : Follows hash p g synced tail batch X w)
    (hrec : Recorded p g (synced ++ (tail ++ batch))) (habsent : g.held = true → g.digests ≠ .absent)
    (hc : c.part p = g.part hash take resident) (hcov : X.covered < c.ordinal) :
    Follows hash p (if take then g.recordCaptured hash else g) synced tail (batch ++ [c]) X w := by
  have hver : (c.part p).version = g.version := by rw [hc]; rfl
  have htaken : (c.part p).taken = take := by rw [hc]; rfl
  have hbatch : batch ⊆ synced ++ (tail ++ batch) := fun c hc => by simp [hc]
  -- The entry changes nothing of a page it has no block of.
  have hsame : (∀ b, (c.part p).blocks b = none) → ∀ l,
      X.replay (l ++ [c]) p = X.replay l p := by
    intro hnone l
    refine Base.replay_append_none fun d hd _ => ?_
    rw [mem_singleton.mp hd]
    exact hnone
  have hgives : ∀ l, (∀ b, (c.part p).blocks b = none) → l.Sublist (tail ++ (batch ++ [c])) →
      ∃ m, m.Sublist (tail ++ batch) ∧ X.replay (synced ++ l) p = X.replay (synced ++ m) p := by
    intro l hnone hl
    rcases sublist_snoc hl with hl | ⟨m, hm, rfl⟩
    · exact ⟨l, hl, rfl⟩
    · exact ⟨m, hm, by rw [← append_assoc, hsame hnone]⟩
  have hpage : ∀ g', g' = (if take then g.recordCaptured hash else g) → g'.version = g.version ∧
      g'.history = g.history ∧ g'.dirty = g.dirty ∧ g'.held = g.held ∧ g'.origin = g.origin := by
    rintro _ rfl
    split <;> simp
  obtain ⟨gver, ghist, gdirty, gheld, gorigin⟩ := hpage _ rfl
  refine ⟨?_, ?_, ?_, ?_, ?_, ?_, ?_, ?_⟩
  · rw [ghist]
    exact h.base
  · rw [gver]
    exact h.le
  · intro d hd hlt ht
    simp only [mem_append, mem_singleton] at hd
    rcases hd with hd | hd | hd | rfl
    · exact h.later d (by simp [hd]) hlt ht
    · exact h.later d (by simp [hd]) hlt ht
    · exact h.later d (by simp [hd]) hlt ht
    · rw [hver]
      exact h.le
  · intro d hd ht l hl b
    rw [gver, ghist]
    rcases sublist_snoc hl with hl | ⟨m, hm, rfl⟩
    · exact h.landed d hd ht l hl b
    · rw [← append_assoc, Base.replay_snoc hcov]
      cases hb : (c.part p).blocks b with
      | none =>
        rw [Overlay.lay_none hb]
        exact h.landed d hd ht m hm b
      | some x =>
        rw [hc] at hb
        rw [hc, Overlay.lay_some hb, (part_some hb).2]
        exact ⟨g.version, (hrec d (mem_append_left _ hd)).1, Nat.le_refl _, rfl⟩
  · intro d hd ht b
    rw [gver, ghist]
    cases take with
    | true =>
      rw [h.taken_gives hinj habsent hc hcov]
      refine ⟨g.version, ?_, Nat.le_refl _, rfl⟩
      rcases mem_append.mp hd with hd | hd
      · exact (hrec d (hbatch hd)).1
      · rw [mem_singleton.mp hd, hver]
    | false =>
      rcases mem_append.mp hd with hd | hd
      · rw [← append_assoc, hsame (by rw [hc]; exact part_untaken)]
        exact h.landing d hd ht b
      · rw [mem_singleton.mp hd, htaken] at ht
        cases ht
  · intro d hd b
    by_cases htd : take = true ∧ g.dirty = true
    · obtain ⟨rfl, hdirty⟩ := htd
      rw [h.taken_gives hinj habsent hc hcov]
      rw [if_pos rfl, recordCaptured, if_pos hdirty] at hd
      cases hd
      rfl
    · have hdig : g.digests = .known d := by
        cases take with
        | false => exact hd
        | true =>
          rw [if_pos rfl, recordCaptured, if_neg fun hdirty => htd ⟨rfl, hdirty⟩] at hd
          exact hd
      have hnone : ∀ b, (c.part p).blocks b = none := by
        rw [hc]
        cases take with
        | false => exact part_untaken
        | true => exact part_clean (by simpa using htd)
      rw [← append_assoc, hsame hnone]
      exact h.sums d hdig b
  · intro hclean
    rw [gdirty] at hclean
    obtain ⟨hbase, hall⟩ := h.clean hclean
    rw [bytes, gver, ghist]
    refine ⟨hbase, fun l hl => ?_⟩
    obtain ⟨m, hm, heq⟩ := hgives l (by rw [hc]; exact part_clean hclean) hl
    rw [heq]
    exact hall m hm
  · intro hdirty hheld o ho
    rw [gdirty] at hdirty
    rw [gheld] at hheld
    rw [gorigin] at ho
    obtain ⟨hbase, hall⟩ := h.origin hdirty hheld o ho
    refine ⟨hbase, fun hdig l hl => ?_⟩
    cases take with
    | true =>
      rw [if_pos rfl, recordCaptured, if_pos hdirty] at hdig
      cases hdig
    | false =>
      obtain ⟨m, hm, heq⟩ := hgives l (by rw [hc]; exact part_untaken) hl
      rw [heq]
      exact hall hdig m hm

theorem lands (h : Follows hash p g synced tail batch X w) :
    Follows hash p g (synced ++ batch) [] [] X w := by
  have hsub : batch.Sublist (tail ++ batch) := sublist_append_right _ _
  have hnil : ∀ l : List (Commit P B β), l.Sublist ([] ++ []) → l = [] :=
    fun l hl => sublist_nil.mp hl
  refine ⟨h.base, h.le, ?_, ?_, ?_, ?_, ?_, ?_⟩
  · intro c hc
    refine h.later c ?_
    simp only [append_nil, mem_append] at hc ⊢
    exact hc.imp_right .inr
  · intro c hc ht l hl b
    rw [hnil l hl, append_nil]
    rcases mem_append.mp hc with hc | hc
    · exact h.landed c hc ht batch hsub b
    · exact h.landing c hc ht b
  · intro c hc
    cases hc
  · simp only [append_nil]
    exact h.sums
  · intro hd
    refine ⟨(h.clean hd).1, fun l hl => ?_⟩
    rw [hnil l hl, append_nil]
    exact (h.clean hd).2 batch hsub
  · intro hd hheld o ho
    refine ⟨(h.origin hd hheld o ho).1, fun hdig l hl => ?_⟩
    rw [hnil l hl, append_nil]
    exact (h.origin hd hheld o ho).2 hdig batch hsub

theorem fails (h : Follows hash p g synced tail batch X w)
    (hrec : Recorded p g (synced ++ (tail ++ batch))) :
    Follows hash p (if batch.any fun c => (c.part p).taken then g.giveBack else g) synced
      (tail ++ batch) [] X w := by
  have hlists : tail ++ batch ++ [] = tail ++ batch := append_nil _
  split
  · have h' := h.giveBack
    refine ⟨h'.base, h'.le, ?_, ?_, nofun, nofun, ?_, ?_⟩
    · rw [hlists]
      exact h'.later
    · rw [hlists]
      exact h'.landed
    · rw [hlists]
      exact h'.clean
    · rw [hlists]
      exact h'.origin
  · next hnot =>
    have hbatch : ∀ c ∈ batch, ∀ b, (c.part p).blocks b = none := by
      intro c hc b
      refine hrec.untaken (by simp [hc]) ?_ b
      rw [← Bool.not_eq_true]
      exact fun ht => hnot (any_eq_true.mpr ⟨c, hc, ht⟩)
    refine ⟨h.base, h.le, ?_, ?_, nofun, ?_, ?_, ?_⟩
    · rw [hlists]
      exact h.later
    · rw [hlists]
      exact h.landed
    · intro d hd b
      rw [h.sums d hd b, append_nil, Base.replay_append_none fun c hc _ => hbatch c hc]
    · rw [hlists]
      exact h.clean
    · rw [hlists]
      exact h.origin

end Follows

end Sproutfs.HostJournal
