import Mathlib.Data.List.Induction

/-!
# Walks over a range, and the runs they cut it into

A loop that moves a cursor over a range is `walk`: each round takes the cursor further, or fails. `Tiles`
says that some labelled runs are adjacent, cover a range exactly, and give every position of it the label
a function gives it.
-/

namespace Walk

/-! ## Walks -/

section Walk

variable {σ : Type*} {cursor stop : Nat}

/-- Take rounds until the cursor is at the stop. A round that does not move the cursor would never end. -/
def walk (round : Nat → σ → Option (Nat × σ)) (stop cursor : Nat) (s : σ) : Option σ :=
  if cursor < stop then
    match round cursor s with
    | none => none
    | some (next, s') => if cursor < next then walk round stop next s' else none
  else some s
termination_by stop - cursor

/-- What every round keeps holds at the stop, and a walk whose rounds succeed does. -/
theorem walk_rule (round : Nat → σ → Option (Nat × σ)) (stop : Nat) (Inv : Nat → σ → Prop) (Live : Prop)
    (hround : ∀ c s, c < stop → Inv c s → (∀ next s', round c s = some (next, s') → c < next ∧ next ≤ stop ∧ Inv next s') ∧ (Live → (round c s).isSome))
    {s : σ} (hle : cursor ≤ stop) (h : Inv cursor s) :
    (∀ s', walk round stop cursor s = some s' → Inv stop s') ∧ (Live → (walk round stop cursor s).isSome) := by
  induction hn : stop - cursor using Nat.strongRecOn generalizing cursor s with
  | ind n ih =>
    rw [walk]
    by_cases hlt : cursor < stop
    · obtain ⟨hkeep, hlive⟩ := hround cursor s hlt h
      rw [if_pos hlt]
      cases hr : round cursor s with
      | none =>
        refine ⟨nofun, fun hl => ?_⟩
        have := hlive hl
        rw [hr] at this
        cases this
      | some p =>
        obtain ⟨next, s'⟩ := p
        obtain ⟨hnext, hstop, hinv⟩ := hkeep next s' hr
        dsimp only
        rw [if_pos hnext]
        exact ih (stop - next) (by omega) hstop hinv rfl
    · rw [if_neg hlt]
      have heq : cursor = stop := by omega
      refine ⟨fun s' hs => ?_, fun _ => rfl⟩
      cases hs
      rwa [← heq]

/-- Move the cursor on while it is before the stop and the test allows. -/
def stretch (go : Nat → Bool) (move : Nat → Nat) (stop cursor : Nat) : Nat :=
  if cursor < stop ∧ go cursor = true then
    if cursor < move cursor then stretch go move stop (move cursor) else cursor
  else cursor
termination_by stop - cursor

theorem stretch_rule {go : Nat → Bool} {move : Nat → Nat} (Inv : Nat → Prop)
    (hmove : ∀ c, c < stop → go c = true → Inv c → Inv (move c)) (h : Inv cursor) :
    Inv (stretch go move stop cursor) := by
  induction hn : stop - cursor using Nat.strongRecOn generalizing cursor with
  | ind n ih =>
    rw [stretch]
    by_cases hgo : cursor < stop ∧ go cursor = true
    · rw [if_pos hgo]
      by_cases hlt : cursor < move cursor
      · rw [if_pos hlt]
        exact ih (stop - move cursor) (by omega) (hmove cursor hgo.1 hgo.2 h) rfl
      · rwa [if_neg hlt]
    · rwa [if_neg hgo]

/-- A stretch whose every move goes on ends at the stop, or where the test refuses. -/
theorem stretch_end {go : Nat → Bool} {move : Nat → Nat} (hmove : ∀ c, c < move c) (cursor : Nat) :
    stop ≤ stretch go move stop cursor ∨ go (stretch go move stop cursor) = false := by
  fun_induction stretch go move stop cursor with
  | case1 _ _ _ ih => exact ih
  | case2 c _ hstuck => exact absurd (hmove c) hstuck
  | case3 c hgo =>
    rcases Nat.lt_or_ge c stop with hlt | hge
    · exact .inr (Bool.eq_false_iff.mpr fun h => hgo ⟨hlt, h⟩)
    · exact .inl hge

end Walk

/-! ## Runs -/

section Runs

variable {α : Type*}

structure Run (α : Type*) where
  offset : Nat
  length : Nat
  label : α
  deriving DecidableEq, Repr

/-- The runs are adjacent from `lo` to `hi`, none is empty, and each has the label of its positions. -/
inductive Tiles (f : Nat → α) : Nat → Nat → List (Run α) → Prop
  | nil (p : Nat) : Tiles f p p []
  | cons {p n hi : Nat} {a : α} {xs : List (Run α)} (pos : 0 < n) (label : ∀ b, p ≤ b → b < p + n → f b = a)
      (rest : Tiles f (p + n) hi xs) : Tiles f p hi (⟨p, n, a⟩ :: xs)

/-- Append a run, merging it into the last where the two are adjacent and have one label. -/
def push [DecidableEq α] (xs : List (Run α)) (next : Run α) : List (Run α) :=
  match xs.getLast? with
  | none => [next]
  | some last =>
    if last.label = next.label ∧ last.offset + last.length = next.offset then
      xs.dropLast ++ [{ last with length := last.length + next.length }]
    else xs ++ [next]

namespace Tiles

variable {f g : Nat → α} {lo mid hi : Nat} {xs ys : List (Run α)} {x : Run α}

theorem one {p n : Nat} {a : α} (hpos : 0 < n) (hl : ∀ b, p ≤ b → b < p + n → f b = a) :
    Tiles f p (p + n) [⟨p, n, a⟩] :=
  .cons hpos hl (.nil _)

theorem le (h : Tiles f lo hi xs) : lo ≤ hi := by
  induction h with
  | nil => exact Nat.le_refl _
  | cons _ _ _ ih => omega

theorem append (h : Tiles f lo mid xs) (h' : Tiles f mid hi ys) : Tiles f lo hi (xs ++ ys) := by
  induction h with
  | nil => exact h'
  | cons pos label _ ih => exact .cons pos label (ih h')

theorem split (h : Tiles f lo hi (xs ++ ys)) : ∃ mid, Tiles f lo mid xs ∧ Tiles f mid hi ys := by
  induction xs generalizing lo with
  | nil => exact ⟨lo, .nil lo, h⟩
  | cons x xs ih =>
    cases h with
    | cons pos label rest =>
      obtain ⟨mid, h1, h2⟩ := ih rest
      exact ⟨mid, .cons pos label h1, h2⟩

theorem congr (h : Tiles f lo hi xs) (hfg : ∀ b, lo ≤ b → b < hi → f b = g b) : Tiles g lo hi xs := by
  induction h with
  | nil p => exact .nil p
  | cons pos label rest ih =>
    refine .cons pos (fun b h1 h2 => ?_) (ih fun b h1 h2 => hfg b (by omega) h2)
    rw [← hfg b h1 (Nat.lt_of_lt_of_le h2 rest.le), label b h1 h2]

theorem push [DecidableEq α] (h : Tiles f lo mid xs) (hx : Tiles f mid hi [x]) :
    Tiles f lo hi (Walk.push xs x) := by
  rw [Walk.push]
  rcases List.eq_nil_or_concat xs with rfl | ⟨ys, last, rfl⟩
  · exact h.append hx
  · rw [List.concat_eq_append] at h ⊢
    rw [List.getLast?_concat, List.dropLast_concat]
    dsimp only
    split
    · next hmerge =>
      obtain ⟨p, hys, hlast⟩ := h.split
      refine hys.append ?_
      cases hlast with
      | @cons _ n _ _ _ pos label rest =>
        cases rest
        cases hx with
        | cons pos' label' rest' =>
          cases rest'
          rw [Nat.add_assoc]
          refine one (Nat.add_pos_left pos _) fun b h1 h2 => ?_
          by_cases hb : b < p + n
          · exact label b h1 hb
          · exact (label' b (Nat.le_of_not_lt hb) (by omega)).trans hmerge.1.symm
    · exact h.append hx

end Tiles

end Runs

end Walk
