import Mathlib.Data.List.Chain
import Mathlib.Order.Basic

/-!
# One object of a store with conditional writes

An object of a linearizable store that gives every version it stores a tag, and that takes a write only
while the object is absent, or only while its version has a given tag. The versions are kept as history,
each with the life of the object it belongs to: a removal ends a life. Two versions may share a tag only
where they share their value.

`Write.Obeys` says of one write that its value relates by `step` to the value of a version with the tag
the write expects. When every write obeys, the versions of one life form a chain under `step`
(`Sound.lands`), whatever order the writes land in and however often.
-/

namespace CasStore

variable {α τ : Type*} {R : α → α → Prop}

inductive Write (α τ : Type*) where
  | create (next : α)
  | replace (expected : τ) (next : α)
  | remove (expected : τ)
  deriving DecidableEq

structure Version (α τ : Type*) where
  life : Nat
  value : α
  tag : τ
  deriving DecidableEq

structure Store (α τ : Type*) where
  stored : Option (Version α τ) := none
  life : Nat := 0
  versions : List (Version α τ) := []

/-- A version of value `a` may be given the tag `t`. -/
def Store.MayTag (s : Store α τ) (a : α) (t : τ) : Prop := ∀ v ∈ s.versions, v.tag = t → v.value = a

/-- The store once `v` is its newest version. -/
def Store.push (s : Store α τ) (v : Version α τ) : Store α τ := ⟨some v, v.life, s.versions ++ [v]⟩

/-- A write takes effect. -/
inductive Lands (s : Store α τ) : Write α τ → Store α τ → Prop where
  | create (next : α) (t : τ) (h : s.stored = none) (ht : s.MayTag next t) :
      Lands s (.create next) (s.push ⟨s.life + 1, next, t⟩)
  | replace (v : Version α τ) (next : α) (t : τ) (h : s.stored = some v) (ht : s.MayTag next t) :
      Lands s (.replace v.tag next) (s.push ⟨s.life, next, t⟩)
  | remove (v : Version α τ) (h : s.stored = some v) :
      Lands s (.remove v.tag) { s with stored := none }

instance [DecidableEq α] [DecidableEq τ] (s : Store α τ) (a : α) (t : τ) :
    Decidable (s.MayTag a t) :=
  inferInstanceAs (Decidable (∀ v ∈ s.versions, v.tag = t → v.value = a))

/-- `Lands` computed, with the tag the store gives. -/
def Store.land [DecidableEq α] [DecidableEq τ] (s : Store α τ) (t : τ) :
    Write α τ → Option (Store α τ)
  | .create next =>
    if s.stored = none ∧ s.MayTag next t then some (s.push ⟨s.life + 1, next, t⟩) else none
  | .replace expected next =>
    if s.stored.map (·.tag) = some expected ∧ s.MayTag next t then some (s.push ⟨s.life, next, t⟩)
    else none
  | .remove expected =>
    if s.stored.map (·.tag) = some expected then some { s with stored := none } else none

/-- What a client promises of a write: a first value satisfies `init`, and a value it puts in place
of another relates to that one by `step`. -/
def Write.Obeys (init : α → Prop) (step : α → α → Prop) (s : Store α τ) : Write α τ → Prop
  | .create next => init next
  | .replace expected next => ∃ v ∈ s.versions, v.tag = expected ∧ step v.value next
  | .remove _ => True

/-- `v` is the version after `u`. -/
def Follows (init : α → Prop) (step : α → α → Prop) (u v : Version α τ) : Prop :=
  (u.life = v.life ∧ step u.value v.value) ∨ (u.life < v.life ∧ init v.value)

/-- The versions so far are what obedient writes make. -/
structure Sound (init : α → Prop) (step : α → α → Prop) (s : Store α τ) : Prop where
  tags : ∀ u ∈ s.versions, ∀ v ∈ s.versions, u.tag = v.tag → u.value = v.value
  lives : ∀ v ∈ s.versions, v.life ≤ s.life
  stored : ∀ v, s.stored = some v → s.versions.getLast? = some v ∧ v.life = s.life
  first : ∀ v, s.versions.head? = some v → init v.value
  chain : s.versions.IsChain (Follows init step)

section Store

variable {init : α → Prop} {step : α → α → Prop} {s s' : Store α τ} {w w' : Write α τ}

@[simp] theorem Store.push_stored (v : Version α τ) : (s.push v).stored = some v := rfl
@[simp] theorem Store.push_life (v : Version α τ) : (s.push v).life = v.life := rfl
@[simp] theorem Store.push_versions (v : Version α τ) :
    (s.push v).versions = s.versions ++ [v] := rfl

theorem sound_empty : Sound init step ({} : Store α τ) where
  tags := by simp
  lives := by simp
  stored := by simp
  first := by simp
  chain := .nil

variable {v : Version α τ}

theorem Sound.mem_versions (h : Sound init step s) (hv : s.stored = some v) : v ∈ s.versions :=
  List.mem_of_getLast? (h.stored v hv).1

theorem Sound.push (h : Sound init step s) (htag : s.MayTag v.value v.tag) (hlife : s.life ≤ v.life)
    (hfirst : s.versions = [] → init v.value)
    (hnext : ∀ u, s.versions.getLast? = some u → Follows init step u v) :
    Sound init step (s.push v) where
  tags := by
    intro u hu u' hu' htt
    rcases List.mem_append.mp hu with hu | hu <;> rcases List.mem_append.mp hu' with hu' | hu'
    · exact h.tags u hu u' hu' htt
    · cases List.mem_singleton.mp hu'
      exact htag u hu htt
    · cases List.mem_singleton.mp hu
      exact (htag u' hu' htt.symm).symm
    · rw [List.mem_singleton.mp hu, List.mem_singleton.mp hu']
  lives := by
    intro u hu
    rcases List.mem_append.mp hu with hu | hu
    · exact (h.lives u hu).trans hlife
    · rw [List.mem_singleton.mp hu]; exact le_rfl
  stored := by
    intro u hu
    cases hu
    exact ⟨List.getLast?_concat, rfl⟩
  first := by
    intro u hu
    rcases hs : s.versions with _ | ⟨a, l⟩
    · simp only [Store.push_versions, hs, List.nil_append, List.head?_cons, Option.some.injEq] at hu
      rw [← hu]
      exact hfirst hs
    · simp only [Store.push_versions, hs, List.cons_append, List.head?_cons] at hu
      exact h.first u (by rw [hs]; exact hu)
  chain := by
    refine List.isChain_append.mpr ⟨h.chain, .singleton _, fun u hu x hx => ?_⟩
    cases hx
    exact hnext u hu

theorem Sound.lands (h : Sound init step s) (hw : w.Obeys init step s) (hl : Lands s w s') :
    Sound init step s' := by
  cases hl with
  | create next t hs ht =>
    refine h.push ht (Nat.le_succ _) (fun _ => hw) fun u hu => .inr ⟨?_, hw⟩
    exact Nat.lt_succ_of_le (h.lives u (List.mem_of_getLast? hu))
  | replace v next t hs ht =>
    obtain ⟨u, hu, htag, hstep⟩ := hw
    obtain ⟨hlast, hlife⟩ := h.stored v hs
    have hv := List.mem_of_getLast? hlast
    refine h.push ht le_rfl (fun hnil => ?_) fun x hx => .inl ?_
    · rw [hnil] at hv
      cases hv
    · cases hlast.symm.trans hx
      exact ⟨hlife, h.tags u hu v hv htag ▸ hstep⟩
  | remove v hs =>
    exact { h with stored := fun v hv => (Option.some_ne_none v hv.symm).elim }

theorem Store.lands_of_land [DecidableEq α] [DecidableEq τ] {t : τ} (h : s.land t w = some s') :
    Lands s w s' ∧ ∀ v, s'.stored = some v → v.tag = t := by
  cases w with
  | create next =>
    simp only [Store.land, Option.ite_none_right_eq_some, Option.some.injEq] at h
    obtain ⟨⟨hs, ht⟩, rfl⟩ := h
    exact ⟨.create next t hs ht, fun v hv => by cases hv; rfl⟩
  | replace expected next =>
    simp only [Store.land, Option.ite_none_right_eq_some, Option.some.injEq] at h
    obtain ⟨⟨hs, ht⟩, rfl⟩ := h
    obtain ⟨v, hv, rfl⟩ := Option.map_eq_some_iff.mp hs
    exact ⟨.replace v next t hv ht, fun v hv => by cases hv; rfl⟩
  | remove expected =>
    simp only [Store.land, Option.ite_none_right_eq_some, Option.some.injEq] at h
    obtain ⟨hs, rfl⟩ := h
    obtain ⟨v, hv, rfl⟩ := Option.map_eq_some_iff.mp hs
    exact ⟨.remove v hv, nofun⟩

theorem Lands.versions (hl : Lands s w s') : ∃ l, s'.versions = s.versions ++ l := by
  cases hl with
  | create next t hs ht => exact ⟨_, rfl⟩
  | replace v next t hs ht => exact ⟨_, rfl⟩
  | remove v hs => exact ⟨[], (List.append_nil _).symm⟩

theorem Lands.mem_versions (hl : Lands s w s') (hv : v ∈ s.versions) : v ∈ s'.versions := by
  obtain ⟨l, hl⟩ := hl.versions
  exact hl ▸ List.mem_append_left l hv

/-- What a client promised of a write stays true of it until it lands. -/
theorem Write.Obeys.mono (h : w.Obeys init step s)
    (hv : ∀ v ∈ s.versions, v ∈ s'.versions) : w.Obeys init step s' := by
  cases w with
  | create next => exact h
  | replace expected next =>
    obtain ⟨v, hmem, ht, hstep⟩ := h
    exact ⟨v, hv v hmem, ht, hstep⟩
  | remove expected => exact h

/-! ## What the history shows -/

section

variable (h : Sound init step s)

include h

theorem Sound.pairwise (htrans : ∀ a b c, R a b → R b c → R a c) (hstep : ∀ a b, step a b → R a b) :
    s.versions.Pairwise fun u v => u.life = v.life → R u.value v.value := by
  let L : Version α τ → Version α τ → Prop := fun u v =>
    u.life < v.life ∨ (u.life = v.life ∧ R u.value v.value)
  have hL : Trans L L L := ⟨by
    rintro a b c (hab | ⟨hab, rab⟩) (hbc | ⟨hbc, rbc⟩)
    · exact .inl (hab.trans hbc)
    · exact .inl (hbc ▸ hab)
    · exact .inl (hab ▸ hbc)
    · exact .inr ⟨hab.trans hbc, htrans _ _ _ rab rbc⟩⟩
  have hchain : s.versions.IsChain L := h.chain.imp fun u v huv => by
    rcases huv with ⟨hl, hs⟩ | ⟨hl, -⟩
    · exact .inr ⟨hl, hstep _ _ hs⟩
    · exact .inl hl
  refine hchain.pairwise.imp fun {u v} huv hl => ?_
  rcases huv with hlt | ⟨-, hr⟩
  · exact absurd hl hlt.ne
  · exact hr

theorem Sound.pairwise_le {β : Type*} [Preorder β] (f : α → β) (hstep : ∀ a b, step a b → f a ≤ f b) :
    s.versions.Pairwise fun u v => u.life = v.life → f u.value ≤ f v.value :=
  h.pairwise (R := fun a b => f a ≤ f b) (fun _ _ _ => le_trans) hstep

theorem Sound.newest (hrefl : ∀ a, R a a) (htrans : ∀ a b c, R a b → R b c → R a c)
    (hstep : ∀ a b, step a b → R a b) {u : Version α τ} (hv : s.stored = some v) (hu : u ∈ s.versions)
    (hl : u.life = v.life) : R u.value v.value := by
  obtain ⟨l, hlast⟩ := List.getLast?_eq_some_iff.mp (h.stored v hv).1
  have hp := h.pairwise htrans hstep
  rw [hlast] at hp hu
  rcases List.mem_append.mp hu with hu | hu
  · exact (List.pairwise_append.mp hp).2.2 u hu v (List.mem_singleton_self v) hl
  · rw [List.mem_singleton.mp hu]
    exact hrefl _

theorem Sound.forall {P : α → Prop} (hinit : ∀ a, init a → P a) (hstep : ∀ a b, step a b → P a → P b) :
    ∀ v ∈ s.versions, P v.value := by
  have hnext : ∀ u v : Version α τ, Follows init step u v → P u.value → P v.value := by
    rintro u v (⟨-, hs⟩ | ⟨-, hi⟩) hu
    · exact hstep _ _ hs hu
    · exact hinit _ hi
  have hhead : ∀ v, s.versions.head? = some v → P v.value := fun v hv => hinit _ (h.first v hv)
  have hchain := h.chain
  generalize s.versions = l at hchain hhead
  induction l with
  | nil => simp
  | cons u l ih =>
    obtain ⟨hu, hrest⟩ := List.isChain_cons.mp hchain
    intro v hv
    rcases List.mem_cons.mp hv with rfl | hv
    · exact hhead v rfl
    · exact ih hrest (fun x hx => hnext u x (hu x hx) (hhead u rfl)) v hv

/-- A version begins a life, or it was made by a step from an earlier version of its life. -/
theorem Sound.origin {l r : List (Version α τ)} (hs : s.versions = l ++ v :: r) :
    init v.value ∨ ∃ u ∈ l, u.life = v.life ∧ step u.value v.value := by
  rcases List.eq_nil_or_concat l with rfl | ⟨l', u, rfl⟩
  · exact .inl (h.first v (by rw [hs]; rfl))
  · have hchain := h.chain
    rw [hs] at hchain
    rcases (List.isChain_append.mp hchain).2.2 u (by simp) v (by simp) with huv | ⟨-, hi⟩
    · exact .inr ⟨u, by simp, huv⟩
    · exact .inl hi

end

end Store

end CasStore
