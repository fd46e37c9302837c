import Mathlib.Data.List.Basic

/-!
# Overlays

Partial writes laid over a base, one after another: what is read at a place is what the last write to
it wrote, and the base where nothing wrote.
-/

namespace Overlay

variable {κ β : Type*}

/-- One partial write over a base. -/
def lay (base : κ → β) (w : κ → Option β) : κ → β := fun k => (w k).getD (base k)

/-- Partial writes over a base, in order. -/
def replay (base : κ → β) (ws : List (κ → Option β)) : κ → β := ws.foldl lay base

variable {base : κ → β} {w : κ → Option β} {ws vs : List (κ → Option β)} {k : κ} {x : β}

@[simp] theorem replay_nil : replay base [] = base := rfl

@[simp] theorem replay_append : replay base (ws ++ vs) = replay (replay base ws) vs :=
  List.foldl_append

@[simp] theorem replay_singleton : replay base [w] = lay base w := rfl

theorem lay_some (h : w k = some x) : lay base w k = x := by
  rw [lay, h, Option.getD_some]

theorem lay_none (h : w k = none) : lay base w k = base k := by
  rw [lay, h, Option.getD_none]

theorem replay_untouched (h : ∀ w ∈ ws, w k = none) : replay base ws k = base k := by
  induction ws generalizing base with
  | nil => rfl
  | cons w ws ih =>
    rw [show replay base (w :: ws) = replay (lay base w) ws from rfl,
      ih fun v hv => h v (List.mem_cons_of_mem _ hv), lay_none (h w List.mem_cons_self)]

theorem replay_mem (base : κ → β) (ws : List (κ → Option β)) (k : κ) :
    replay base ws k = base k ∨ ∃ w ∈ ws, w k = some (replay base ws k) := by
  induction ws generalizing base with
  | nil => exact .inl rfl
  | cons w ws ih =>
    have heq : replay base (w :: ws) = replay (lay base w) ws := rfl
    rw [heq]
    rcases ih (lay base w) with h | ⟨v, hv, h⟩
    · rw [h]
      cases hw : w k with
      | none => exact .inl (lay_none hw)
      | some x => exact .inr ⟨w, List.mem_cons_self, by rw [lay_some hw, hw]⟩
    · exact .inr ⟨v, List.mem_cons_of_mem _ hv, h⟩

end Overlay
