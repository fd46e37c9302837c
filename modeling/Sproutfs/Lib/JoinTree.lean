import Mathlib.Algebra.GroupWithZero.Nat
import Mathlib.Data.List.Basic

/-!
# Height-balanced trees that are joined

A binary tree whose nodes store the height and the number of items below them. `join` puts an item between
two trees of any heights: it goes down the taller one to where the heights meet, and each node on the way
back is balanced again.
-/

inductive JoinTree (α : Type*) where
  | nil
  | node (left : JoinTree α) (item : α) (right : JoinTree α) (height count : Nat)
  deriving Repr, DecidableEq

namespace JoinTree

variable {α : Type*}

def depth : JoinTree α → Nat
  | nil => 0
  | node _ _ _ h _ => h

def size : JoinTree α → Nat
  | nil => 0
  | node _ _ _ _ n => n

def branch (left : JoinTree α) (item : α) (right : JoinTree α) : JoinTree α :=
  node left item right (1 + max left.depth right.depth) (1 + left.size + right.size)

/-- Put an item over two trees whose heights differ by at most two. -/
def balance (left : JoinTree α) (item : α) (right : JoinTree α) : JoinTree α :=
  if left.depth > right.depth + 1 then
    match left with
    | nil => branch left item right
    | node ll x lr _ _ =>
      if ll.depth ≥ lr.depth then branch ll x (branch lr item right)
      else match lr with
        | nil => branch left item right
        | node pl p pr _ _ => branch (branch ll x pl) p (branch pr item right)
  else if right.depth > left.depth + 1 then
    match right with
    | nil => branch left item right
    | node rl x rr _ _ =>
      if rr.depth ≥ rl.depth then branch (branch left item rl) x rr
      else match rl with
        | nil => branch left item right
        | node pl p pr _ _ => branch (branch left item pl) p (branch pr x rr)
  else branch left item right

/-- Put an item between two trees of any heights. -/
def join (left : JoinTree α) (item : α) (right : JoinTree α) : JoinTree α :=
  if left.depth > right.depth + 1 then
    match left with
    | nil => branch nil item right
    | node ll x lr _ _ => balance ll x (join lr item right)
  else if right.depth > left.depth + 1 then
    match right with
    | nil => branch left item nil
    | node rl x rr _ _ => balance (join left item rl) x rr
  else branch left item right
termination_by sizeOf left + sizeOf right

def toList : JoinTree α → List α
  | nil => []
  | node left item right _ _ => left.toList ++ item :: right.toList

/-- The stored heights and counts are right, and the heights of siblings are within one. -/
def Balanced : JoinTree α → Prop
  | nil => True
  | node left _ right h n =>
    left.Balanced ∧ right.Balanced ∧ h = 1 + max left.depth right.depth ∧
      n = 1 + left.size + right.size ∧ left.depth ≤ right.depth + 1 ∧ right.depth ≤ left.depth + 1

section Items

variable (left right : JoinTree α) (item : α)

@[simp] theorem toList_nil : (nil : JoinTree α).toList = [] := rfl

@[simp] theorem toList_branch : (branch left item right).toList = left.toList ++ item :: right.toList := rfl

@[simp] theorem toList_balance : (balance left item right).toList = left.toList ++ item :: right.toList := by
  unfold balance
  split
  · cases left with
    | nil => rfl
    | node ll x lr h n =>
      dsimp only
      split
      · simp [toList]
      · cases lr with
        | nil => rfl
        | node pl p pr k m => simp [toList]
  · split
    · cases right with
      | nil => rfl
      | node rl x rr h n =>
        dsimp only
        split
        · simp [toList]
        · cases rl with
          | nil => rfl
          | node pl p pr k m => simp [toList]
    · rfl

@[simp] theorem toList_join : (join left item right).toList = left.toList ++ item :: right.toList := by
  fun_induction join left item right <;> simp_all [toList]

end Items

section Heights

variable {left right : JoinTree α} {item : α}

theorem branch_balanced (hl : left.Balanced) (hr : right.Balanced) (hlr : left.depth ≤ right.depth + 1)
    (hrl : right.depth ≤ left.depth + 1) : (branch left item right).Balanced :=
  ⟨hl, hr, rfl, rfl, hlr, hrl⟩

@[simp] theorem depth_branch : (branch left item right).depth = 1 + max left.depth right.depth := rfl

@[simp] theorem depth_nil : (nil : JoinTree α).depth = 0 := rfl

@[simp] theorem depth_node {h n : Nat} : (node left item right h n).depth = h := rfl

/-- The left part is taller by two: one rotation, or two where its inner child is the taller one. -/
theorem balance_left (item : α) (hl : left.Balanced) (hr : right.Balanced) (h : left.depth = right.depth + 2) :
    (balance left item right).Balanced ∧ left.depth ≤ (balance left item right).depth ∧
      (balance left item right).depth ≤ left.depth + 1 := by
  unfold balance
  rw [if_pos (by omega)]
  cases left with
  | nil => cases h
  | node ll x lr k n =>
    obtain ⟨hll, hlr, hk, _, h1, h2⟩ := hl
    rw [depth_node] at h ⊢
    dsimp only
    by_cases hin : ll.depth ≥ lr.depth
    · rw [if_pos hin]
      have inner : (branch lr item right).Balanced := branch_balanced hlr hr (by omega) (by omega)
      refine ⟨branch_balanced hll inner ?_ ?_, ?_, ?_⟩ <;> simp only [depth_branch] <;> omega
    · rw [if_neg hin]
      cases lr with
      | nil => exact absurd (Nat.zero_le _) hin
      | node pl p pr m c =>
        obtain ⟨hpl, hpr, hm, _, h3, h4⟩ := hlr
        rw [depth_node] at hk h1 h2 hin
        have outer : (branch ll x pl).Balanced := branch_balanced hll hpl (by omega) (by omega)
        have inner : (branch pr item right).Balanced := branch_balanced hpr hr (by omega) (by omega)
        refine ⟨branch_balanced outer inner ?_ ?_, ?_, ?_⟩ <;> simp only [depth_branch] <;> omega

theorem balance_right (item : α) (hl : left.Balanced) (hr : right.Balanced) (h : right.depth = left.depth + 2) :
    (balance left item right).Balanced ∧ right.depth ≤ (balance left item right).depth ∧
      (balance left item right).depth ≤ right.depth + 1 := by
  unfold balance
  rw [if_neg (by omega), if_pos (by omega)]
  cases right with
  | nil => cases h
  | node rl x rr k n =>
    obtain ⟨hrl, hrr, hk, _, h1, h2⟩ := hr
    rw [depth_node] at h ⊢
    dsimp only
    by_cases hin : rr.depth ≥ rl.depth
    · rw [if_pos hin]
      have inner : (branch left item rl).Balanced := branch_balanced hl hrl (by omega) (by omega)
      refine ⟨branch_balanced inner hrr ?_ ?_, ?_, ?_⟩ <;> simp only [depth_branch] <;> omega
    · rw [if_neg hin]
      cases rl with
      | nil => exact absurd (Nat.zero_le _) hin
      | node pl p pr m c =>
        obtain ⟨hpl, hpr, hm, _, h3, h4⟩ := hrl
        rw [depth_node] at hk h1 h2 hin
        have inner : (branch left item pl).Balanced := branch_balanced hl hpl (by omega) (by omega)
        have outer : (branch pr x rr).Balanced := branch_balanced hpr hrr (by omega) (by omega)
        refine ⟨branch_balanced inner outer ?_ ?_, ?_, ?_⟩ <;> simp only [depth_branch] <;> omega

theorem balance_close (hlr : left.depth ≤ right.depth + 1) (hrl : right.depth ≤ left.depth + 1) :
    balance left item right = branch left item right := by
  unfold balance
  rw [if_neg (by omega), if_neg (by omega)]

/-- One part of a node grew by at most one: the node is balanced again, and no smaller than it was. -/
theorem balance_grown_right {lr : JoinTree α} (item : α) (hl : left.Balanced) (hr : right.Balanced)
    (h1 : left.depth ≤ lr.depth + 1) (h2 : lr.depth ≤ left.depth + 1) (hlo : lr.depth ≤ right.depth)
    (hhi : right.depth ≤ lr.depth + 1) :
    (balance left item right).Balanced ∧ 1 + max left.depth lr.depth ≤ (balance left item right).depth ∧
      (balance left item right).depth ≤ 2 + max left.depth lr.depth := by
  by_cases hgap : right.depth = left.depth + 2
  · obtain ⟨hb, hge, hle⟩ := balance_right item hl hr hgap
    exact ⟨hb, by omega, by omega⟩
  · rw [balance_close (by omega) (by omega)]
    refine ⟨branch_balanced hl hr (by omega) (by omega), ?_, ?_⟩ <;> rw [depth_branch] <;> omega

theorem balance_grown_left {rl : JoinTree α} (item : α) (hl : left.Balanced) (hr : right.Balanced)
    (h1 : rl.depth ≤ right.depth + 1) (h2 : right.depth ≤ rl.depth + 1) (hlo : rl.depth ≤ left.depth)
    (hhi : left.depth ≤ rl.depth + 1) :
    (balance left item right).Balanced ∧ 1 + max rl.depth right.depth ≤ (balance left item right).depth ∧
      (balance left item right).depth ≤ 2 + max rl.depth right.depth := by
  by_cases hgap : left.depth = right.depth + 2
  · obtain ⟨hb, hge, hle⟩ := balance_left item hl hr hgap
    exact ⟨hb, by omega, by omega⟩
  · rw [balance_close (by omega) (by omega)]
    refine ⟨branch_balanced hl hr (by omega) (by omega), ?_, ?_⟩ <;> rw [depth_branch] <;> omega

/-- Joined trees are balanced, and as tall as the taller of them or one taller. -/
theorem join_balanced (left : JoinTree α) (item : α) (right : JoinTree α) (hl : left.Balanced)
    (hr : right.Balanced) :
    (join left item right).Balanced ∧ max left.depth right.depth ≤ (join left item right).depth ∧
      (join left item right).depth ≤ 1 + max left.depth right.depth := by
  fun_induction join left item right with
  | case1 right hgt => exact absurd hgt (by simp)
  | case2 right ll x lr h n hgt ih =>
    obtain ⟨hll, hlr, hh, _, h1, h2⟩ := hl
    obtain ⟨hb, hge, hle⟩ := ih hlr hr
    rw [depth_node] at hgt ⊢
    obtain ⟨hb', hge', hle'⟩ := balance_grown_right x hll hb h1 h2 (by omega) (by omega)
    exact ⟨hb', by omega, by omega⟩
  | case3 left hgt hlt => exact absurd hlt (by simp)
  | case4 left rl x rr h n hgt hlt ih =>
    obtain ⟨hrl, hrr, hh, _, h1, h2⟩ := hr
    obtain ⟨hb, hge, hle⟩ := ih hl hrl
    rw [depth_node] at hlt ⊢
    obtain ⟨hb', hge', hle'⟩ := balance_grown_left x hb hrr h1 h2 (by omega) (by omega)
    exact ⟨hb', by omega, by omega⟩
  | case5 left right hgt hlt =>
    refine ⟨branch_balanced hl hr (by omega) (by omega), ?_, ?_⟩ <;> rw [depth_branch] <;> omega

/-- A balanced tree of a height has exponentially many items. -/
theorem Balanced.two_pow_le {t : JoinTree α} (h : t.Balanced) : 2 ^ (t.depth / 2) ≤ t.toList.length + 1 := by
  induction t with
  | nil => simp [toList]
  | node l x r k n ihl ihr =>
    obtain ⟨hl, hr, hk, -, h1, h2⟩ := h
    have ihl := ihl hl
    have ihr := ihr hr
    rw [depth_node, toList, List.length_append, List.length_cons]
    by_cases hone : k < 2
    · rw [Nat.div_eq_of_lt hone]
      omega
    · -- Both parts are at least two lower.
      have hpow : ∀ d, k ≤ d + 2 → 2 ^ ((k - 2) / 2) ≤ 2 ^ (d / 2) := fun d hd =>
        Nat.pow_le_pow_right (by decide) (by omega)
      have hpl := hpow l.depth (by omega)
      have hpr := hpow r.depth (by omega)
      rw [show k / 2 = (k - 2) / 2 + 1 by omega, Nat.pow_succ]
      omega

end Heights

end JoinTree
