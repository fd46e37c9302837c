import Mathlib.Logic.Function.Basic
import Mathlib.Logic.Relation

/-!
# Machines

A machine is a partial function that takes a state and an action to the next state. `Runs` is what it
reaches by actions that each meet a condition where they are taken; an invariant of the steps is one
of the runs. `exec` plays a list of actions and so produces runs by computation.
-/

namespace Machine

variable {σ α : Type*} (step : σ → α → Option σ)

/-- One step, by an action that meets the condition. -/
def Moves (ok : σ → α → Prop) (s s' : σ) : Prop := ∃ a, ok s a ∧ step s a = some s'

/-- Any number of steps, by actions that each meet the condition where they are taken. -/
def Runs (ok : σ → α → Prop) : σ → σ → Prop := Relation.ReflTransGen (Moves step ok)

/-- Play the actions as long as each is possible and meets the condition. -/
def exec (ok : σ → α → Bool) (s : σ) : List α → Option σ
  | [] => some s
  | a :: rest => if ok s a then (step s a).bind fun s' => exec ok s' rest else none

variable {step} {ok ok' : σ → α → Prop} {I : σ → Prop} {s s' s'' : σ}

theorem Runs.refl (s : σ) : Runs step ok s s := Relation.ReflTransGen.refl

theorem Runs.trans (h : Runs step ok s s') (h' : Runs step ok s' s'') : Runs step ok s s'' :=
  Relation.ReflTransGen.trans h h'

theorem Runs.head {a : α} (hok : ok s a) (h : step s a = some s') (hr : Runs step ok s' s'') :
    Runs step ok s s'' :=
  Relation.ReflTransGen.head ⟨a, hok, h⟩ hr

theorem Runs.mono (hok : ∀ s a, ok s a → ok' s a) (h : Runs step ok s s') : Runs step ok' s s' := by
  refine Relation.ReflTransGen.mono ?_ _ _ h
  rintro s s' ⟨a, ha, hs⟩
  exact ⟨a, hok s a ha, hs⟩

theorem Runs.invariant (hstep : ∀ s a s', I s → ok s a → step s a = some s' → I s')
    (h0 : I s) (h : Runs step ok s s') : I s' := by
  induction h with
  | refl => exact h0
  | tail _ hm ih =>
    obtain ⟨a, ha, hs⟩ := hm
    exact hstep _ a _ ih ha hs

theorem exec_runs {okb : σ → α → Bool} (hok : ∀ s a, okb s a = true → ok s a) {l : List α}
    (h : exec step okb s l = some s') : Runs step ok s s' := by
  induction l generalizing s with
  | nil =>
    cases h
    exact .refl _
  | cons a rest ih =>
    simp only [exec] at h
    split at h
    case isFalse => cases h
    case isTrue ha =>
      obtain ⟨t, ht, hrest⟩ := Option.bind_eq_some_iff.mp h
      exact .head (hok s a ha) ht (ih hrest)

/-! ## Tables -/

/-- An entry of a table after one entry was set is the one set, or an entry it had. -/
theorem update_some {κ β : Type*} [DecidableEq κ] {f : κ → Option β} {k x : κ} {b y : β}
    (h : Function.update f k (some b) x = some y) : (x = k ∧ y = b) ∨ (x ≠ k ∧ f x = some y) := by
  by_cases hx : x = k
  · subst hx
    rw [Function.update_self] at h
    exact .inl ⟨rfl, (Option.some.inj h).symm⟩
  · rw [Function.update_of_ne hx] at h
    exact .inr ⟨hx, h⟩

/-- An entry of a table after one entry was cleared is an entry it had. -/
theorem update_none {κ β : Type*} [DecidableEq κ] {f : κ → Option β} {k x : κ} {y : β}
    (h : Function.update f k none x = some y) : x ≠ k ∧ f x = some y := by
  by_cases hx : x = k
  · subst hx
    rw [Function.update_self] at h
    cases h
  · rw [Function.update_of_ne hx] at h
    exact ⟨hx, h⟩

/-- One entry of a table of tables is set. -/
theorem update_two {κ ι β : Type*} [DecidableEq κ] [DecidableEq ι] (f : κ → ι → β) (k k' : κ) (i i' : ι)
    (b : β) :
    Function.update f k (Function.update (f k) i b) k' i' = if k' = k ∧ i' = i then b else f k' i' := by
  by_cases hk : k' = k
  · subst hk
    by_cases hi : i' = i
    · subst hi
      simp
    · simp [hi]
  · simp [hk]

end Machine
