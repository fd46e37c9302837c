import Mathlib.Algebra.BigOperators.Group.Finset.Basic
import Mathlib.Data.Fintype.Card
import Mathlib.Tactic
import Sproutfs.Cluster.Repair

/-!
# A repair sends each stripe that is missing once

The indices are offered to one rank after the other, each taking as many as it lacks of those that
are left. So the ranks together take the smaller of what is missing and what they lack.
-/

namespace Sproutfs.Cluster.WindowRead

open List Option

variable {ι ε α β : Type} [DecidableEq ι] {w : WindowRead ι ε} {at_ : Nat} {held : List (Fin w.width)}
  {cs : List ι} {i : Fin w.width} {c : ι}

/-! ## One rank -/

/-- A rank takes the first of the indices left, as many as it lacks. -/
theorem offer_eq_take {n : Nat} {mine held pref : List (Fin n)} (hmine : mine ⊆ held)
    (hpref : pref.Nodup) (k : Nat) :
    offer mine k held pref = (pref.filter (· ∉ held)).take k := by
  induction pref generalizing held k with
  | nil => cases k <;> simp [offer]
  | cons i rest ih =>
    obtain ⟨hi, hrest⟩ := nodup_cons.mp hpref
    cases k with
    | zero => simp [offer]
    | succ k =>
      by_cases hheld : i ∈ held
      · rw [offer, if_pos (.inl hheld), ih hmine hrest, filter_cons_of_neg (by simpa using hheld)]
      · rw [offer, if_neg (not_or.mpr ⟨hheld, fun h => hheld (hmine h)⟩),
          ih (subset_append_of_subset_left _ hmine) hrest,
          filter_cons_of_pos (by simpa using hheld), take_succ_cons]
        congr 2
        refine filter_congr fun j hj => ?_
        have : j ≠ i := fun h => hi (h ▸ hj)
        simp [this]

theorem mem_own : i ∈ w.own c ↔ holder w.ranks i.val = some c := by
  simp [own]

theorem own_nodup (c : ι) : (w.own c).Nodup := (nodup_finRange _).filter _

/-- Every index is offered once. -/
theorem preferred_nodup (c : ι) : (w.preferred c).Nodup := by
  refine nodup_append.mpr ⟨own_nodup c, (nodup_finRange _).filter _, ?_⟩
  rintro i hi j hj rfl
  simp [mem_own.mp hi] at hj

omit [DecidableEq ι] in
theorem holder_mem {i : Nat} {c : ι} (h : holder w.ranks i = some c) : c ∈ w.ranks :=
  mem_of_getElem? h

omit [DecidableEq ι] in
theorem holder_isSome (hne : w.ranks ≠ []) (i : Nat) : ∃ c, holder w.ranks i = some c :=
  ⟨_, getElem?_eq_getElem (Nat.mod_lt _ (length_pos_of_ne_nil hne))⟩

theorem mem_preferred (hne : w.ranks ≠ []) (c : ι) (i : Fin w.width) : i ∈ w.preferred c := by
  obtain ⟨d, hd⟩ := holder_isSome hne i.val
  by_cases h : d = c <;> simp [preferred, mem_own, hd, h]

/-! ## One rank after the other -/

/-- The indices that none of `held` is. -/
def free {n : Nat} (held : List (Fin n)) : Finset (Fin n) := Finset.univ \ held.toFinset

/-- What is held has what the ranks to come answered. -/
def Covers (w : WindowRead ι ε) (at_ : Nat) (cs : List ι) (held : List (Fin w.width)) : Prop :=
  ∀ c ∈ cs, w.holds at_ c ⊆ held

omit [DecidableEq ι] in
theorem Covers.tail {c : ι} {cs : List ι} {held : List (Fin w.width)} (h : w.Covers at_ (c :: cs) held)
    (sent : List (Fin w.width)) : w.Covers at_ cs (held ++ sent) :=
  fun d hd => subset_append_of_subset_left _ (h d (mem_cons_of_mem _ hd))

/-- What the first of the ranks takes. -/
def first (w : WindowRead ι ε) (at_ : Nat) (c : ι) (held : List (Fin w.width)) :
    List (Fin w.width) :=
  ((w.preferred c).filter (· ∉ held)).take (w.lacking at_ c)

theorem plan_cons (h : w.Covers at_ (c :: cs) held) :
    w.plan at_ (c :: cs) held =
      (w.first at_ c held).map (c, ·) ++ w.plan at_ cs (held ++ w.first at_ c held) := by
  rw [plan, offer_eq_take (h c mem_cons_self) (preferred_nodup c)]
  rfl

theorem first_nodup (c : ι) (held : List (Fin w.width)) : (w.first at_ c held).Nodup :=
  ((preferred_nodup c).filter _).sublist (take_sublist _ _)

theorem not_mem_of_first (h : i ∈ w.first at_ c held) : i ∉ held := by
  simpa using (mem_filter.mp (mem_of_mem_take h)).2

theorem first_length (hne : w.ranks ≠ []) (c : ι) (held : List (Fin w.width)) :
    (w.first at_ c held).length = min (w.lacking at_ c) (free held).card := by
  rw [first, length_take, ← toFinset_card_of_nodup ((preferred_nodup c).filter _)]
  congr 2
  ext i
  simp [free, mem_preferred hne]

theorem free_append {n : Nat} {held sent : List (Fin n)} (hnd : sent.Nodup) (h : ∀ i ∈ sent, i ∉ held) :
    (free (held ++ sent)).card = (free held).card - sent.length := by
  rw [← toFinset_card_of_nodup hnd, ← Finset.card_sdiff_of_subset]
  · congr 1
    ext i
    simp [free]
  · intro i hi
    simpa [free] using h i (mem_toFinset.mp hi)

/-- No index is sent twice, and none that is held. -/
theorem plan_fresh (hcs : w.Covers at_ cs held) :
    ((w.plan at_ cs held).map Prod.snd).Nodup ∧ ∀ p ∈ w.plan at_ cs held, p.2 ∉ held := by
  induction cs generalizing held with
  | nil => simp [plan]
  | cons c cs ih =>
    obtain ⟨hnd, hnew⟩ := ih (hcs.tail (w.first at_ c held))
    rw [plan_cons hcs]
    constructor
    · rw [List.map_append, List.map_map, List.nodup_append]
      refine ⟨by simpa using first_nodup c held, hnd, ?_⟩
      rintro i hi _ hj rfl
      obtain ⟨p, hp, rfl⟩ := mem_map.mp hj
      exact hnew p hp (mem_append_right _ (by simpa using hi))
    · intro p hp
      rcases mem_append.mp hp with hp | hp
      · obtain ⟨i, hi, rfl⟩ := mem_map.mp hp
        exact not_mem_of_first hi
      · exact fun h => hnew p hp (mem_append_left _ h)

/-- Together the ranks take what they lack, or all that is left. -/
theorem plan_length (hne : w.ranks ≠ []) (hcs : w.Covers at_ cs held) :
    (w.plan at_ cs held).length = min (free held).card (cs.map (w.lacking at_)).sum := by
  induction cs generalizing held with
  | nil => simp [plan]
  | cons c cs ih =>
    rw [plan_cons hcs, length_append, length_map, ih (hcs.tail _),
      free_append (first_nodup c held) fun i => not_mem_of_first, first_length hne, map_cons,
      sum_cons]
    omega

theorem fst_mem_of_plan {p : ι × Fin w.width} (hp : p ∈ w.plan at_ cs held) : p.1 ∈ cs := by
  induction cs generalizing held with
  | nil => simp [plan] at hp
  | cons c cs ih =>
    rcases mem_append.mp hp with hp | hp
    · obtain ⟨i, -, rfl⟩ := mem_map.mp hp
      exact mem_cons_self
    · exact mem_cons_of_mem _ (ih hp)

/-- A rank takes no more than it lacks. -/
theorem plan_to_le (hnd : cs.Nodup) (hcs : w.Covers at_ cs held) (c : ι) :
    ((w.plan at_ cs held).filter (·.1 = c)).length ≤ w.lacking at_ c := by
  induction cs generalizing held with
  | nil => simp [plan]
  | cons d cs ih =>
    obtain ⟨hd, hnd⟩ := nodup_cons.mp hnd
    rw [plan_cons hcs, filter_append, length_append]
    by_cases h : d = c
    · subst h
      have hnone : (w.plan at_ cs (held ++ w.first at_ d held)).filter (·.1 = d) = [] :=
        filter_eq_nil_iff.mpr fun p hp heq =>
          hd (of_decide_eq_true heq ▸ fst_mem_of_plan hp)
      rw [hnone, length_nil, Nat.add_zero]
      refine (length_filter_le _ _).trans ?_
      rw [length_map]
      exact length_take_le _ _
    · have hnone : ((w.first at_ d held).map (d, ·)).filter (·.1 = c) = [] := by
        refine filter_eq_nil_iff.mpr fun p hp heq => h ?_
        obtain ⟨i, -, rfl⟩ := mem_map.mp hp
        exact of_decide_eq_true heq
      rw [hnone, length_nil, Nat.zero_add]
      exact ih hnd (hcs.tail _)

/-! ## Ranks that hold their own indices alone -/

/-- The rank's answer has indices the membership puts on it, each once. -/
structure HoldsOwn (w : WindowRead ι ε) (at_ : Nat) (c : ι) : Prop where
  once : (w.holds at_ c).Nodup
  own : w.holds at_ c ⊆ w.own c

/-- A rank that lacks only its own indices takes all of them: they come first. -/
theorem first_own (h : w.HoldsOwn at_ c) (hheld : ∀ i ∈ w.own c, i ∈ held ↔ i ∈ w.holds at_ c) :
    w.first at_ c held = (w.own c).filter (· ∉ held) := by
  have hhas : ((w.own c).filter (· ∈ held)).length = (w.holds at_ c).length := by
    refine List.Perm.length_eq ((perm_ext_iff_of_nodup ((own_nodup c).filter _) h.once).mpr ?_)
    intro i
    rw [mem_filter, decide_eq_true_eq]
    exact ⟨fun hi => (hheld i hi.1).mp hi.2, fun hi => ⟨h.own hi, (hheld i (h.own hi)).mpr hi⟩⟩
  have hlack : ((w.own c).filter (· ∉ held)).length = w.lacking at_ c := by
    have := length_eq_length_filter_add (l := w.own c) (· ∈ held)
    simp only [lacking, share, decide_not] at this ⊢
    omega
  rw [first, preferred, filter_append, take_left' hlack]

theorem plan_own (hnd : cs.Nodup) (hown : ∀ c ∈ cs, w.HoldsOwn at_ c) (hcs : w.Covers at_ cs held)
    (hheld : ∀ c ∈ cs, ∀ i ∈ w.own c, i ∈ held ↔ i ∈ w.holds at_ c) (c : ι) (i : Fin w.width) :
    (c, i) ∈ w.plan at_ cs held ↔ c ∈ cs ∧ i ∈ w.own c ∧ i ∉ w.holds at_ c := by
  induction cs generalizing held with
  | nil => simp [plan]
  | cons d cs ih =>
    obtain ⟨hd, hnd⟩ := nodup_cons.mp hnd
    have hfirst := first_own (hown d mem_cons_self) (hheld d mem_cons_self)
    rw [plan_cons hcs, hfirst, mem_append, mem_cons, or_and_right,
      ih hnd (fun e he => hown e (mem_cons_of_mem _ he)) (hcs.tail _)]
    · refine or_congr_left ?_
      constructor
      · intro h
        obtain ⟨j, hj, heq⟩ := mem_map.mp h
        cases heq
        obtain ⟨hj, hnot⟩ := mem_filter.mp hj
        exact ⟨rfl, hj, fun h => of_decide_eq_true hnot ((hheld c mem_cons_self i hj).mpr h)⟩
      · rintro ⟨rfl, hi, hnot⟩
        refine mem_map.mpr ⟨i, mem_filter.mpr ⟨hi, decide_eq_true fun h => ?_⟩, rfl⟩
        exact hnot ((hheld c mem_cons_self i hi).mp h)
    · -- What the first rank took is its own, so it is of no rank after it.
      intro e he j hj
      rw [mem_append, hheld e (mem_cons_of_mem _ he) j hj, or_iff_left]
      intro hmem
      have := (mem_own.mp hj).symm.trans (mem_own.mp (mem_filter.mp hmem).1)
      exact hd (Option.some.inj this ▸ he)

/-! ## Every index held -/

theorem sum_share (hne : w.ranks ≠ []) : (w.ranks.map w.share).sum = w.width := by
  have hmaps : Set.MapsTo (fun i : Fin w.width => holder w.ranks i.val)
      ((Finset.univ : Finset (Fin w.width)) : Set (Fin w.width)) (w.ranks.toFinset.image some) := by
    intro i _
    obtain ⟨c, hc⟩ := holder_isSome hne i.val
    simpa [hc] using holder_mem hc
  have hcard := Finset.card_eq_sum_card_fiberwise hmaps
  rw [Finset.card_fin, Finset.sum_image fun a _ b _ h => Option.some.inj h,
    sum_toFinset _ w.distinct] at hcard
  refine Eq.trans (congrArg List.sum (map_congr_left fun c _ => ?_)) hcard.symm
  rw [share, ← toFinset_card_of_nodup (own_nodup c)]
  congr 1
  ext i
  simp [mem_own]

theorem sum_lacking (h : ∀ c ∈ cs, (w.holds at_ c).length ≤ w.share c) :
    (cs.map (w.lacking at_)).sum + (cs.flatMap (w.holds at_)).length = (cs.map w.share).sum := by
  induction cs with
  | nil => rfl
  | cons c cs ih =>
    have hc := h c mem_cons_self
    have := ih fun d hd => h d (mem_cons_of_mem _ hd)
    simp only [map_cons, sum_cons, flatMap_cons, length_append, lacking] at this ⊢
    omega

omit [DecidableEq ι] in
theorem covers_held : w.Covers at_ w.ranks (w.held at_) :=
  fun c hc _ hi => mem_flatMap.mpr ⟨c, hc, hi⟩

/-- Where no rank is over its share and no index is held twice, the ranks lack all that is missing. -/
theorem plan_complete (hne : w.ranks ≠ []) (hle : ∀ c ∈ w.ranks, (w.holds at_ c).length ≤ w.share c)
    (honce : (w.held at_).Nodup) (hi : i ∉ w.held at_) : ∃ c, (c, i) ∈ w.plan at_ w.ranks (w.held at_) := by
  have hfree : (free (w.held at_)).card = w.width - (w.held at_).length := by
    rw [free, Finset.card_sdiff_of_subset (Finset.subset_univ _), Finset.card_fin,
      toFinset_card_of_nodup honce]
  have hsum := sum_lacking hle
  rw [sum_share hne] at hsum
  obtain ⟨hnd, hnew⟩ := plan_fresh (covers_held : w.Covers at_ _ _)
  have hall : ((w.plan at_ w.ranks (w.held at_)).map Prod.snd).toFinset = free (w.held at_) := by
    refine Finset.eq_of_subset_of_card_le (fun j hj => ?_) ?_
    · obtain ⟨p, hp, rfl⟩ := mem_map.mp (mem_toFinset.mp hj)
      simpa [free] using hnew p hp
    · rw [toFinset_card_of_nodup hnd, length_map, plan_length hne covers_held]
      unfold held at hfree ⊢
      omega
  have hmem : i ∈ ((w.plan at_ w.ranks (w.held at_)).map Prod.snd).toFinset := by
    rw [hall]
    simpa [free] using hi
  obtain ⟨p, hp, rfl⟩ := mem_map.mp (mem_toFinset.mp hmem)
  exact ⟨p.1, hp⟩

/-! ## The repair -/

variable (w) in
/-- The indices of a want a rank is sent. -/
def sentTo (split : ε → Option (Fin w.width → β)) (at_ : Nat) (c : ι) : List (Fin w.width) :=
  ((w.repair split at_).filter (·.1 = c)).map (·.2.1)

variable (w) in
/-- What a rank holds of a want once the sends have landed. -/
def after (split : ε → Option (Fin w.width → β)) (at_ : Nat) (c : ι) : List (Fin w.width) :=
  w.holds at_ c ++ w.sentTo split at_ c

/-- The read is one under the deployment's code that heard from every rank and rebuilt the want, and
what it rebuilt can be split. -/
structure Repairs (w : WindowRead ι ε) (split : ε → Option (Fin w.width → β)) (at_ : Nat) : Prop where
  code : w.earlier = false
  ranked : w.ranks ≠ []
  heard : ∀ c ∈ w.ranks, w.answered c ≠ none
  want : at_ < w.pages.length
  rebuilt : w.envelopes at_ ≠ none
  splits : ∀ b e, w.envelopes b = some e → split e ≠ none

variable {split : ε → Option (Fin w.width → β)}

/-- To whom and of which index each send is. -/
def keys {n : Nat} (l : List (ι × Fin n × β)) : List (ι × Fin n) := l.map fun m => (m.1, m.2.1)

theorem sends_isSome (h : ∀ e, w.envelopes at_ = some e → split e ≠ none) :
    ∃ l, w.sends split at_ = some l := by
  unfold sends
  cases he : w.envelopes at_ with
  | none => exact ⟨[], rfl⟩
  | some e =>
    obtain ⟨stripes, hs⟩ := ne_none_iff_exists'.mp (h e he)
    dsimp only
    rw [hs]
    split_ifs <;> exact ⟨_, rfl⟩

theorem keys_of_sends {l : List (ι × Fin w.width × β)} (h : w.sends split at_ = some l) :
    keys l = if w.envelopes at_ = none then [] else w.plan at_ w.ranks (w.held at_) := by
  unfold sends at h
  cases he : w.envelopes at_ with
  | none =>
    rw [he] at h
    cases h
    rfl
  | some e =>
    rw [he] at h
    dsimp only at h
    rw [if_neg (some_ne_none e)]
    split_ifs at h with hplan
    · cases h
      exact hplan.symm
    · obtain ⟨stripes, -, rfl⟩ := map_eq_some_iff.mp h
      rw [keys, List.map_map]
      exact map_id _

theorem repair_cases (split : ε → Option (Fin w.width → β)) (at_ : Nat) :
    w.repair split at_ = [] ∨ keys (w.repair split at_) = w.plan at_ w.ranks (w.held at_) := by
  unfold repair
  split_ifs
  · exact .inl rfl
  · exact .inl rfl
  · cases hs : w.sends split at_ with
    | none => exact .inl rfl
    | some l =>
      have hkeys := keys_of_sends hs
      split_ifs at hkeys
      · exact .inl (map_eq_nil_iff.mp hkeys)
      · exact .inr hkeys
  · exact .inl rfl

theorem Repairs.keys_repair (h : w.Repairs split at_) :
    keys (w.repair split at_) = w.plan at_ w.ranks (w.held at_) := by
  obtain ⟨l, hl⟩ := sends_isSome (h.splits at_)
  have hheard : (w.ranks.any fun cache => (w.answered cache).isNone) = false := by
    simpa using h.heard
  have hsplit : ((List.range w.pages.length).any fun b => (w.sends split b).isNone) = false := by
    refine any_eq_false.mpr fun b _ => ?_
    obtain ⟨l, hl⟩ := sends_isSome (h.splits b)
    simp [hl]
  rw [repair, h.code, hheard, hsplit, Bool.false_or, if_neg Bool.false_ne_true,
    if_neg Bool.false_ne_true, if_pos h.want, hl, getD_some, keys_of_sends hl,
    if_neg h.rebuilt]

theorem mem_sentTo : i ∈ w.sentTo split at_ c ↔ (c, i) ∈ keys (w.repair split at_) := by
  simp only [sentTo, keys, List.mem_map, List.mem_filter, decide_eq_true_eq, Prod.mk.injEq, and_assoc]

/-- A repair sends nothing unless every rank answered, no index twice, none that a rank holds, and no
rank more than it lacks; so it puts no index on two ranks. Where it repairs a want, it sends the
smaller of what no rank holds and what the ranks lack. -/
theorem repair_sends_missing (w : WindowRead ι ε) (split : ε → Option (Fin w.width → β)) (at_ : Nat) :
    ((∃ c ∈ w.ranks, w.answered c = none) → w.repair split at_ = []) ∧
    ((w.repair split at_).map (·.2.1)).Nodup ∧
    (∀ m ∈ w.repair split at_, m.1 ∈ w.ranks ∧ ∀ c ∈ w.ranks, m.2.1 ∉ w.holds at_ c) ∧
    (∀ c, (w.sentTo split at_ c).length ≤ w.share c - (w.holds at_ c).length) ∧
    (∀ c ∈ w.ranks, ∀ d ∈ w.ranks, c ≠ d → ∀ i, i ∈ w.after split at_ c → i ∈ w.after split at_ d →
      i ∈ w.holds at_ c ∧ i ∈ w.holds at_ d) ∧
    (w.Repairs split at_ →
      (w.repair split at_).length =
        min (free (w.held at_)).card (w.ranks.map fun c => w.share c - (w.holds at_ c).length).sum ∧
      ((∀ c ∈ w.ranks, (w.holds at_ c).length ≤ w.share c) → (w.held at_).Nodup →
        ∀ i, ∃ c ∈ w.ranks, i ∈ w.after split at_ c) ∧
      ((∀ c ∈ w.ranks, w.HoldsOwn at_ c) → ∀ c ∈ w.ranks, ∀ i,
        i ∈ w.sentTo split at_ c ↔ holder w.ranks i.val = some c ∧ i ∉ w.holds at_ c)) := by
  obtain ⟨hnd, hnew⟩ := plan_fresh (covers_held : w.Covers at_ _ _)
  have hmap : (w.repair split at_).map (·.2.1) =
      (keys (w.repair split at_)).map Prod.snd := by
    rw [keys, List.map_map]
    rfl
  have hsent : ((w.repair split at_).map (·.2.1)).Nodup := by
    rcases repair_cases split at_ with h | h
    · simp [h]
    · rwa [hmap, h]
  have hmem : ∀ c i, i ∈ w.sentTo split at_ c → c ∈ w.ranks ∧ ∀ d ∈ w.ranks, i ∉ w.holds at_ d := by
    intro c i hi
    rw [mem_sentTo] at hi
    rcases repair_cases split at_ with h | h
    · simp [h, keys] at hi
    · rw [h] at hi
      exact ⟨fst_mem_of_plan hi, fun d hd hheld => hnew _ hi (covers_held d hd hheld)⟩
  refine ⟨?_, hsent, ?_, ?_, ?_, ?_⟩
  · rintro ⟨c, hc, hnone⟩
    have : (w.ranks.any fun cache => (w.answered cache).isNone) = true :=
      any_eq_true.mpr ⟨c, hc, by rw [hnone]; rfl⟩
    rw [repair, this, Bool.or_true, if_pos rfl]
  · intro m hm
    exact hmem m.1 m.2.1 (mem_sentTo.mpr (mem_map.mpr ⟨m, hm, rfl⟩))
  · intro c
    rcases repair_cases split at_ with h | h
    · simp [sentTo, h]
    · have hle := plan_to_le w.distinct (covers_held : w.Covers at_ _ _) c
      rw [← h, keys, List.filter_map, List.length_map] at hle
      rw [sentTo, length_map]
      exact hle
  · intro c hc d hd hne i hi hj
    rcases mem_append.mp hi with hi | hi <;> rcases mem_append.mp hj with hj | hj
    · exact ⟨hi, hj⟩
    · exact absurd hi ((hmem d i hj).2 c hc)
    · exact absurd hj ((hmem c i hi).2 d hd)
    · -- An index sent to both is sent twice.
      rw [mem_sentTo] at hi hj
      exact absurd (congrArg Prod.fst (inj_on_of_nodup_map (hmap ▸ hsent) hi hj rfl)) hne
  · intro h
    have hplan := h.keys_repair
    refine ⟨?_, fun hle honce i => ?_, fun hown c hc i => ?_⟩
    · have hlen := congrArg List.length hplan
      rw [keys, length_map, plan_length h.ranked covers_held] at hlen
      exact hlen
    · by_cases hi : i ∈ w.held at_
      · obtain ⟨c, hc, hi⟩ := mem_flatMap.mp hi
        exact ⟨c, hc, mem_append_left _ hi⟩
      · obtain ⟨c, hp⟩ := plan_complete h.ranked hle honce hi
        exact ⟨c, fst_mem_of_plan hp, mem_append_right _ (mem_sentTo.mpr (hplan ▸ hp))⟩
    · rw [mem_sentTo, hplan, plan_own w.distinct hown covers_held ?_, mem_own]
      · exact and_iff_right hc
      · intro d hd j hj
        refine ⟨fun hheld => ?_, fun hheld => covers_held d hd hheld⟩
        obtain ⟨e, he, hje⟩ := mem_flatMap.mp hheld
        have := (mem_own.mp hj).symm.trans (mem_own.mp ((hown e he).own hje))
        exact Option.some.inj this ▸ hje

/-- Two ranks for three stripes: rank 7 answers that it holds stripe 0, and rank 9 that it holds none. -/
def sampleRead (old : Bool) : WindowRead Nat Unit :=
  let w : WindowRead Nat Unit :=
    { width := 3, earlier := old, ranks := [7, 9], distinct := by decide, pages := [0],
      envelopes := fun _ => some () }
  (w.take (fun _ i => some i) 7 (some [(0, 0)])).take (fun _ i => some i) 9 (some [])

/-- The one stripe of the sample. -/
def sampleSplit (old : Bool) : Unit → Option (Fin (sampleRead old).width → Unit) :=
  fun _ => some fun _ => ()

theorem repair_sends_missing_sample : ∀ c ∈ (sampleRead false).ranks, ∀ i,
    i ∈ (sampleRead false).sentTo (sampleSplit false) 0 c ↔
      holder (sampleRead false).ranks i.val = some c ∧ i ∉ (sampleRead false).holds 0 c := by
  refine ((repair_sends_missing (sampleRead false) (sampleSplit false) 0).2.2.2.2.2
    ⟨rfl, cons_ne_nil _ _, ?_, Nat.one_pos, some_ne_none _,
      fun _ _ _ => some_ne_none _⟩).2.2 ?_
  · decide
  · exact fun c hc => ⟨by revert c; decide, by revert c; decide⟩

/-- A read under an earlier code sends nothing, although two stripes are missing. -/
theorem earlier_read_repairs_nothing :
    (∀ c ∈ (sampleRead true).ranks, (sampleRead true).answered c ≠ none) ∧
    (sampleRead true).envelopes 0 ≠ none ∧
    ((sampleRead true).repair (sampleSplit true) 0).length ≠
      min (free ((sampleRead true).held 0)).card ((sampleRead true).ranks.map
        fun c => (sampleRead true).share c - ((sampleRead true).holds 0 c).length).sum := by
  decide

end Sproutfs.Cluster.WindowRead
