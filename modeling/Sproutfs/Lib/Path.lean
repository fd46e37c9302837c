import Mathlib.Data.List.Infix

/-!
# Paths

A path is a list of elements, each ended by a separator, and what follows them. Where no element holds the
separator, a path that another begins with agrees with it element by element.
-/

namespace Path

open List

variable {α : Type*} {sep : α} {e f x y : List α} {es fs : List (List α)}

def path (sep : α) (es : List (List α)) (x : List α) : List α := es.foldr (fun e rest => e ++ sep :: rest) x

theorem path_cons : path sep (e :: es) x = e ++ sep :: path sep es x := rfl

theorem path_append : path sep (es ++ fs) x = path sep es (path sep fs x) := foldr_append ..

theorem path_inj : path sep es x = path sep es y ↔ x = y := by
  induction es with
  | nil => rfl
  | cons e es ih => simp [path_cons, ih]

theorem prefix_at_sep (he : sep ∉ e) (hf : sep ∉ f) (h : e ++ sep :: x <+: f ++ sep :: y) :
    e = f ∧ x <+: y := by
  induction e generalizing f with
  | nil =>
    cases f with
    | nil => exact ⟨rfl, (cons_prefix_cons.mp h).2⟩
    | cons b f => exact absurd (cons_prefix_cons.mp h).1 fun hb => hf (hb ▸ mem_cons_self)
  | cons a e ih =>
    cases f with
    | nil => exact absurd (cons_prefix_cons.mp h).1 fun ha => he (ha ▸ mem_cons_self)
    | cons b f =>
      obtain ⟨rfl, hrest⟩ := cons_prefix_cons.mp h
      exact (ih (not_mem_of_not_mem_cons he) (not_mem_of_not_mem_cons hf) hrest).imp_left (congrArg _)

/-- A path that another begins with has its first elements, or has them all and goes on in what follows
them. -/
theorem path_prefix (he : ∀ e ∈ es, sep ∉ e) (hf : ∀ f ∈ fs, sep ∉ f)
    (h : path sep es x <+: path sep fs y) : es <+: fs ∨ fs <+: es ∧ sep ∈ y := by
  induction es generalizing fs with
  | nil => exact .inl nil_prefix
  | cons e es ih =>
    cases fs with
    | nil => exact .inr ⟨ nil_prefix, h.subset (mem_append_right _ mem_cons_self)⟩
    | cons f fs =>
      obtain ⟨rfl, hrest⟩ := prefix_at_sep (he e mem_cons_self) (hf f mem_cons_self) h
      have := ih (forall_mem_cons.mp he).2 (forall_mem_cons.mp hf).2 hrest
      simpa only [cons_prefix_cons, true_and] using this

end Path
